import Dpos.Bytes
import Mathlib.Data.List.Sort
import Mathlib.Data.List.Dedup

/-! Transactions and block headers as the hash functions see them: the hash of a
transaction leaves its signature out, the full hash does not, and the header of a
block names its transactions by one root. -/
namespace Dpos

open List

structure Signature where
  ty : ℤ
  pubkey : Bytes
  signature : Bytes
  deriving DecidableEq, Repr

structure Transaction where
  execer : Bytes
  payload : Bytes
  signature : Option Signature
  fee : ℤ
  expire : ℤ
  nonce : ℤ
  toAddr : Bytes
  groupCount : ℤ
  header : Bytes
  next : Bytes
  deriving DecidableEq, Repr

structure Header where
  version : ℤ
  parentHash : Bytes
  txHash : Bytes
  stateHash : Bytes
  height : ℤ
  blockTime : ℤ
  txCount : ℤ
  difficulty : ℤ
  deriving DecidableEq, Repr

/-- What comes from outside: sha256, the protobuf encodings and `types.CheckSign` on data, executor
name and signature. -/
structure Crypto where
  sha256 : Bytes → Bytes
  encodeTx : Transaction → Bytes
  encodeHeader : Header → Bytes
  checkSign : Bytes → Bytes → Signature → Bool

def zeroHash : Bytes := replicate 32 0

/-- Collision freedom, and the fixed width of digests: two digests in a row can be
told apart. -/
structure Crypto.Ideal (c : Crypto) : Prop where
  sha256_injective : Function.Injective c.sha256
  sha256_append : ∀ x y x' y', c.sha256 x ++ c.sha256 y = c.sha256 x' ++ c.sha256 y' →
    c.sha256 x = c.sha256 x' ∧ c.sha256 y = c.sha256 y'
  sha256_ne_zeroHash : ∀ x, c.sha256 x ≠ zeroHash
  encodeTx_injective : Function.Injective c.encodeTx
  encodeHeader_injective : Function.Injective c.encodeHeader

/-- The encoding of a transaction is not itself a digest. -/
def Crypto.Apart (c : Crypto) (tx : Transaction) : Prop := ∀ x, c.encodeTx tx ≠ c.sha256 x

namespace Transaction

def hash (c : Crypto) (tx : Transaction) : Bytes :=
  c.sha256 (c.encodeTx {tx with signature := none, header := []})

def fullHash (c : Crypto) (tx : Transaction) : Bytes := c.sha256 (c.encodeTx tx)

/-- `Transaction.CheckSign`: the signature covers everything but itself. -/
def checkSign (c : Crypto) (tx : Transaction) : Bool :=
  match tx.signature with
  | none => false
  | some sign => c.checkSign (c.encodeTx {tx with signature := none}) tx.execer sign

lemma fullHash_injective {c : Crypto} (hc : c.Ideal) : Function.Injective (fullHash c) :=
  hc.sha256_injective.comp hc.encodeTx_injective

end Transaction

def paraKey : Bytes := Bytes.ofString "user.p."

def mainChainName : Bytes := Bytes.ofString "main"

def isParaExecName (exec : Bytes) : Bool := paraKey.isPrefixOf exec

/-- `GetParaExecTitleName`: up to the first dot behind the para key. -/
def getParaExecTitleName (exec : Bytes) : Option Bytes :=
  if isParaExecName exec then
    let i := (exec.drop paraKey.length).idxOf 46
    if paraKey.length+i < exec.length then some (exec.take (paraKey.length+i+1)) else none
  else none

namespace Transaction

/-- The title `TransactionSort` files a transaction under. -/
def title (tx : Transaction) : Bytes := (getParaExecTitleName tx.execer).getD mainChainName

end Transaction

/-- `TransactionSort`: the lists of the map from titles, in the order of the titles. -/
def transactionSort (txs : List Transaction) : List Transaction :=
  ((txs.map Transaction.title).dedup.insertionSort (· ≤ ·)).flatMap fun v => txs.filter fun tx => tx.title = v

variable {txs : List Transaction}

lemma mem_transactionSort {tx : Transaction} : tx ∈ transactionSort txs ↔ tx ∈ txs := by
  simp only [transactionSort,mem_flatMap,mem_insertionSort,mem_dedup,mem_map,mem_filter,decide_eq_true_eq]
  constructor
  · rintro ⟨_,_,ht,_⟩
    exact ht
  · intro ht
    exact ⟨tx.title,⟨tx,ht,rfl⟩,ht,rfl⟩

lemma nodup_titles (txs : List Transaction) : ((txs.map Transaction.title).dedup.insertionSort (· ≤ ·)).Nodup :=
  (perm_insertionSort _ _).nodup_iff.mpr (nodup_dedup _)

lemma nodup_transactionSort (h : txs.Nodup) : (transactionSort txs).Nodup := by
  apply nodup_flatMap.mpr
  refine ⟨fun _ _ => h.filter _,(nodup_titles txs).imp fun hne => ?_⟩
  intro tx ha hb
  simp only [mem_filter,decide_eq_true_eq] at ha hb
  exact hne (ha.2.symm.trans hb.2)

lemma filter_flatMap_filter {α β : Type} [DecidableEq β] (f : α → β) (l : List α) {vs : List β}
    (hvs : vs.Nodup) (u : β) : (vs.flatMap fun v => l.filter (f · = v)).filter (f · = u) =
      if u ∈ vs then l.filter (f · = u) else [] := by
  induction vs with
  | nil => simp
  | cons v vs ih =>
    obtain ⟨hv,hvs⟩ := nodup_cons.mp hvs
    rw [flatMap_cons,filter_append,ih hvs,filter_filter]
    by_cases hu : u = v
    · subst hu
      simp [hv]
    · have hn : l.filter (fun a => decide (f a = u) && decide (f a = v)) = [] := by
        apply filter_eq_nil_iff.mpr
        intro a _ ha
        simp only [Bool.and_eq_true,decide_eq_true_eq] at ha
        exact hu (ha.1.symm.trans ha.2)
      simp [hn,hu]

lemma filter_transactionSort (txs : List Transaction) (v : Bytes) :
    (transactionSort txs).filter (·.title = v) = txs.filter (·.title = v) := by
  rw [transactionSort,filter_flatMap_filter _ _ (nodup_titles txs)]
  split_ifs with hv
  · rfl
  · symm
    apply filter_eq_nil_iff.mpr
    intro tx htx ht
    simp only [mem_insertionSort,mem_dedup,mem_map,not_exists,not_and] at hv
    exact hv tx htx (by simpa using ht)

def frameSignature : Option Signature → Bytes
  | none => []
  | some sign => 1 :: (frameInt sign.ty ++ (frame sign.pubkey ++ (frame sign.signature ++ [])))

lemma frameSignature_injective : Function.Injective frameSignature := by
  rintro (_ | ⟨ty,p,s⟩) (_ | ⟨ty',p',s'⟩) h
  · rfl
  · simp [frameSignature] at h
  · simp [frameSignature] at h
  · obtain ⟨rfl,h⟩ := frameInt_append_inj (cons.inj h).2
    obtain ⟨rfl,h⟩ := frame_append_inj h
    obtain ⟨rfl,_⟩ := frame_append_inj h
    rfl

/-- The digest is the framed message. The first byte of an encoding keeps it apart
from digests, and a signature repeats the key and the data. -/
def Crypto.framed : Crypto where
  sha256 := frame
  encodeTx tx := 2 :: (frame tx.execer ++ (frame tx.payload ++ (frame (frameSignature tx.signature) ++
    (frameInt tx.fee ++ (frameInt tx.expire ++ (frameInt tx.nonce ++ (frame tx.toAddr ++
      (frameInt tx.groupCount ++ (frame tx.header ++ (frame tx.next ++ []))))))))))
  encodeHeader h := frameInt h.version ++ (frame h.parentHash ++ (frame h.txHash ++
    (frame h.stateHash ++ (frameInt h.height ++ (frameInt h.blockTime ++ (frameInt h.txCount ++
      (frameInt h.difficulty ++ [])))))))
  checkSign data _ sign := sign.signature = sign.pubkey ++ data

lemma Crypto.framed_ideal : Crypto.framed.Ideal where
  sha256_injective := by
    intro a b h
    exact (frame_append_inj (congrArg (· ++ []) h)).1
  sha256_append := by
    intro x y x' y' h
    obtain ⟨hx,hy⟩ := frame_append_inj h
    exact ⟨congrArg frame hx,hy⟩
  sha256_ne_zeroHash := by rintro (_ | ⟨b,x⟩) <;> simp [Crypto.framed,frame,zeroHash,replicate_succ]
  encodeTx_injective := by
    rintro ⟨e,p,s,fee,ex,n,ta,c,header,next⟩
      ⟨e',p',s',fee',ex',n',ta',c',header',next'⟩ h
    obtain ⟨rfl,h⟩ := frame_append_inj (cons.inj h).2
    obtain ⟨rfl,h⟩ := frame_append_inj h
    obtain ⟨hs,h⟩ := frame_append_inj h
    obtain rfl := frameSignature_injective hs
    obtain ⟨rfl,h⟩ := frameInt_append_inj h
    obtain ⟨rfl,h⟩ := frameInt_append_inj h
    obtain ⟨rfl,h⟩ := frameInt_append_inj h
    obtain ⟨rfl,h⟩ := frame_append_inj h
    obtain ⟨rfl,h⟩ := frameInt_append_inj h
    obtain ⟨rfl,h⟩ := frame_append_inj h
    obtain ⟨rfl,_⟩ := frame_append_inj h
    rfl
  encodeHeader_injective := by
    rintro ⟨v,ph,th,sh,height,bt,tc,d⟩
      ⟨v',ph',th',sh',height',bt',tc',d'⟩ h
    obtain ⟨rfl,h⟩ := frameInt_append_inj h
    obtain ⟨rfl,h⟩ := frame_append_inj h
    obtain ⟨rfl,h⟩ := frame_append_inj h
    obtain ⟨rfl,h⟩ := frame_append_inj h
    obtain ⟨rfl,h⟩ := frameInt_append_inj h
    obtain ⟨rfl,h⟩ := frameInt_append_inj h
    obtain ⟨rfl,h⟩ := frameInt_append_inj h
    obtain ⟨rfl,_⟩ := frameInt_append_inj h
    rfl

lemma Crypto.framed_apart (tx : Transaction) : Crypto.framed.Apart tx := by
  rintro (_ | ⟨b,x⟩) <;> simp [Crypto.framed,frame,replicate_succ]

end Dpos
