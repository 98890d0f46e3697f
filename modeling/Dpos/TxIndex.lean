import Dpos.BlockChain
import Dpos.KeyIndex

/-! The transaction index in the local database: the `txindex` plugin of the
executor writes it when a block is connected and deletes it when the block is
disconnected, and `HasTx` of the block store answers from it. The other local
writes of the executor are a parameter; of them it is promised that they stay away
from the keys of the index, as do the keys of the block store itself. -/
namespace Dpos.TxIndex
open KeyIndex List Except Transaction

/-- A key of the local database with its new value, nil to delete it. -/
abbrev LocalKV := Bytes × Option Bytes

abbrev LocalDB := Bytes → Option Bytes

def txHashPerfix : Bytes := Bytes.ofString "TX:"

def txShortHashPerfix : Bytes := Bytes.ofString "STX:"

def isIndexKey (key : Bytes) : Bool := txHashPerfix.isPrefixOf key || txShortHashPerfix.isPrefixOf key

structure TxResult where
  height : ℤ
  index : ℤ
  tx : Option Transaction
  receiptdate : Option ReceiptData
  blocktime : ℤ
  actionName : String
  deriving DecidableEq, Repr

/-- The two switches of the configuration, the hashes, the encoding of an entry, and
the local writes of the executor around those of the plugin. -/
structure Setup where
  quickIndex : Bool
  reduceLocaldb : Bool
  crypto : Crypto
  actionName : Transaction → String
  encodeTxResult : TxResult → Bytes
  addOthers : LocalDB → BlockDetail → Except String (List LocalKV × List LocalKV)
  delOthers : LocalDB → BlockDetail → Except String (List LocalKV × List LocalKV)
  addOthers_apart : ∀ db detail kvs, addOthers db detail = .ok kvs →
    ∀ kv ∈ kvs.1 ++ kvs.2, isIndexKey kv.1 = false
  delOthers_apart : ∀ db detail kvs, delOthers db detail = .ok kvs →
    ∀ kv ∈ kvs.1 ++ kvs.2, isIndexKey kv.1 = false

/-- The reply of the executor when a plugin panics. -/
def errExecPanic : String := "ErrExecPanic"

section
variable (su : Setup)

def calcTxKey (hash : Bytes) : Bytes := if su.quickIndex then txHashPerfix ++ hash else hash

def calcTxKeyValue (txr : TxResult) : Bytes :=
  if su.reduceLocaldb then su.encodeTxResult {txr with tx := none, receiptdate := none}
  else su.encodeTxResult txr

/-- The slice `hash[0:8]` has to be there. -/
def calcTxShortKey (hash : Bytes) : Except String Bytes :=
  if hash.length < 8 then .error errExecPanic else .ok (txShortHashPerfix ++ hash.take 8)

def getTx (height blocktime : ℤ) (tx : Transaction) (receipt : ReceiptData) (index : ℕ) :
    Except String (List LocalKV) := do
  let txhash := tx.hash su.crypto
  let txresult : TxResult := ⟨height,Word.wrap 32 index,some tx,some receipt,blocktime,su.actionName tx⟩
  let kvlist : List LocalKV := [(calcTxKey su txhash,some (calcTxKeyValue su txresult))]
  if su.quickIndex then
    let short ← calcTxShortKey txhash
    return kvlist ++ [(short,some (Bytes.ofString "1"))]
  else return kvlist

/-- The loop of `ExecLocal` and `ExecDelLocal`, from transaction `i` on; `edit` is
what happens to each entry. -/
def execTxs (edit : LocalKV → LocalKV) (height blocktime : ℤ) :
    ℕ → List Transaction → List ReceiptData → Except String (List LocalKV)
  | _,[],_ => return []
  | _,_ :: _,[] => .error errExecPanic
  | i,tx :: txs,receipt :: receipts => do
    let kv ← getTx su height blocktime tx receipt i
    let kvs ← execTxs edit height blocktime (i+1) txs receipts
    return kv.map edit ++ kvs

def execLocal (data : BlockDetail) : Except String (List LocalKV) :=
  execTxs su id data.block.height data.block.blockTime 0 data.block.txs data.receipts

def execDelLocal (data : BlockDetail) : Except String (List LocalKV) :=
  execTxs su (fun kv => (kv.1,none)) data.block.height data.block.blockTime 0 data.block.txs
    data.receipts

def getLocalKV (db : LocalDB) (detail : BlockDetail) : Except String (List LocalKV) := do
  let others ← su.addOthers db detail
  let kvs ← execLocal su detail
  return others.1 ++ kvs ++ others.2

def getDelLocalKV (db : LocalDB) (detail : BlockDetail) : Except String (List LocalKV) := do
  let others ← su.delOthers db detail
  let kvs ← execDelLocal su detail
  return others.1 ++ kvs ++ others.2

def addTxs (db : LocalDB) (detail : BlockDetail) : Except String LocalDB := do
  return writeAll db (← getLocalKV su db detail)

def delTxs (db : LocalDB) (detail : BlockDetail) : Except String LocalDB := do
  return writeAll db (← getDelLocalKV su db detail)

def hasTx (db : LocalDB) (key : Bytes) : Except String Bool :=
  if su.quickIndex then do
    let short ← calcTxShortKey key
    if (db short).isNone then return false else return (db (calcTxKey su key)).isSome
  else return (db (calcTxKey su key)).isSome

end

/-- The local database and the blocks of the main chain, the tip in front. -/
structure Chain where
  db : LocalDB
  blocks : List BlockDetail

def Chain.start : Chain := ⟨fun _ => none,[]⟩

inductive Op
  | connect (detail : BlockDetail)
  | disconnect

def loadBlock (detail : BlockDetail) : BlockDetail := ⟨detail.block,detail.receipts,[],[]⟩

def step (su : Setup) (s : Chain) : Op → Except String Chain
  | .connect detail => do return ⟨← addTxs su s.db detail,detail :: s.blocks⟩
  | .disconnect =>
    match s.blocks with
    | [] => .error "ErrBlockNotFound"
    | top :: rest => do return ⟨← delTxs su s.db (loadBlock top),rest⟩

def run (su : Setup) (s : Chain) (ops : List Op) : Except String Chain := ops.foldlM (step su) s

/-- Some block of the main chain contains a transaction with this hash. -/
def Chain.OnChain (c : Crypto) (s : Chain) (h : Bytes) : Prop :=
  ∃ detail ∈ s.blocks, ∃ tx ∈ detail.block.txs, tx.hash c = h

def Answers (su : Setup) (s : Chain) : Prop :=
  ∀ h : Bytes, 8 ≤ h.length → (hasTx su s.db h = .ok true ↔ s.OnChain su.crypto h)

/-- The tip has no transaction that shares the first eight bytes of its hash with a
transaction of an earlier block. -/
def TipApart (su : Setup) (s : Chain) : Prop :=
  ∀ tip ∈ s.blocks.head?, ∀ tx ∈ tip.block.txs, ∀ detail ∈ s.blocks.tail, ∀ tx' ∈ detail.block.txs,
    (tx.hash su.crypto).take 8 ≠ (tx'.hash su.crypto).take 8

/-! ### The index and the main chain -/

def indexKeys : Set Bytes := {key | isIndexKey key = true}

def txKeys (h : Bytes) : Set Bytes := {txHashPerfix ++ h,txShortHashPerfix ++ h.take 8}

def Chain.hashes (c : Crypto) (s : Chain) : List Bytes :=
  s.blocks.flatMap fun detail => detail.block.txs.map (hash c)

lemma Chain.onChain_iff (c : Crypto) (s : Chain) (h : Bytes) : s.OnChain c h ↔ h ∈ s.hashes c := by
  simp [Chain.OnChain,Chain.hashes]

lemma perfix_ne (x y : Bytes) : txHashPerfix ++ x ≠ txShortHashPerfix ++ y := by
  intro h
  simp [txHashPerfix,txShortHashPerfix,Bytes.ofString,Bytes.ofChars] at h

lemma full_mem_indexKeys (h : Bytes) : txHashPerfix ++ h ∈ indexKeys := by simp [indexKeys,isIndexKey]

lemma short_mem_indexKeys (p : Bytes) : txShortHashPerfix ++ p ∈ indexKeys := by simp [indexKeys,isIndexKey]

variable {h h' : Bytes}

lemma full_mem_txKeys : txHashPerfix ++ h ∈ txKeys h' ↔ h = h' := by simp [txKeys,perfix_ne]

lemma short_mem_txKeys {p : Bytes} : txShortHashPerfix ++ p ∈ txKeys h ↔ p = h.take 8 := by
  simp [txKeys,(perfix_ne _ _).symm]

lemma txKeys_disjoint (hne : h.take 8 ≠ h'.take 8) : Disjoint (txKeys h) (txKeys h') := by
  rw [Set.disjoint_left]
  rintro k (rfl | rfl) hk
  · exact hne (by rw [full_mem_txKeys.mp hk])
  · exact hne (short_mem_txKeys.mp hk)

lemma calcTxShortKey_eq_ok {key : Bytes} :
    calcTxShortKey h = .ok key ↔ 8 ≤ h.length ∧ key = txShortHashPerfix ++ h.take 8 := by
  unfold calcTxShortKey
  rw [ite_error_eq_ok,not_lt,ok.injEq,eq_comm (a := key)]

/-- The index holds the keys of the transactions on the main chain and no others. -/
structure Inv (su : Setup) (s : Chain) : Prop where
  indexes : Indexes indexKeys txKeys (s.hashes su.crypto) s.db
  long : ∀ h ∈ s.hashes su.crypto, 8 ≤ h.length

section
variable {su : Setup} (hq : su.quickIndex = true)
include hq

variable {height b : ℤ} {P : Option Bytes → Prop} {kvs : List LocalKV} {db db' : LocalDB} {s s' : Chain} {i : ℕ}

lemma getTx_eq_ok {tx : Transaction} {r : ReceiptData}
    {kv : List LocalKV} (h : getTx su height b tx r i = .ok kv) :
    8 ≤ (tx.hash su.crypto).length ∧ ∃ v, kv = [(txHashPerfix ++ tx.hash su.crypto,some v),
        (txShortHashPerfix ++ (tx.hash su.crypto).take 8,some (Bytes.ofString "1"))] := by
  simp only [getTx,hq,if_true,bind_eq_ok,calcTxShortKey_eq_ok] at h
  obtain ⟨sh,⟨hl,rfl⟩,hk⟩ := h
  refine ⟨hl,calcTxKeyValue su
    ⟨height,Word.wrap 32 i,some tx,some r,b,su.actionName tx⟩,?_⟩
  simpa [calcTxKey,hq] using (ok.inj hk).symm

lemma execTxs_covers {e : LocalKV → LocalKV} {txs : List Transaction} {rs : List ReceiptData}
    (h : execTxs su e height b i txs rs = .ok kvs)
    (hke : ∀ kv, (e kv).1 = kv.1) (hva : ∀ key v, P (e (key,some v)).2) :
    Covers indexKeys txKeys (txs.map (hash su.crypto)) P kvs ∧
      ∀ tx ∈ txs, 8 ≤ (tx.hash su.crypto).length := by
  induction txs generalizing i rs kvs with
  | nil =>
    obtain rfl : [] = kvs := ok.inj h
    exact ⟨.of_outside (by simp),by simp⟩
  | cons tx txs ih =>
    cases rs with
    | nil => cases h
    | cons r rs =>
      simp only [execTxs,bind_eq_ok,pure_eq_ok,ok.injEq] at h
      obtain ⟨kv,hk,kvs',hkvs,rfl⟩ := h
      obtain ⟨hl,v,rfl⟩ := getTx_eq_ok hq hk
      obtain ⟨hc,hlo⟩ := ih hkvs
      have ho : Covers indexKeys txKeys [tx.hash su.crypto] P
          ([(txHashPerfix ++ tx.hash su.crypto,some v),
            (txShortHashPerfix ++ (tx.hash su.crypto).take 8,some (Bytes.ofString "1"))].map e) := by
        refine ⟨fun k _ => ?_,fun k _ w hw => ?_⟩
        · simp [txKeys,Prod.ext_iff,hke,exists_or]
        · obtain ⟨kv,hk,he⟩ := mem_map.mp hw
          obtain ⟨v,hv⟩ : ∃ v, kv = (kv.1,some v) := by
            simp only [mem_cons,not_mem_nil,or_false] at hk
            rcases hk with rfl | rfl
            · exact ⟨_,rfl⟩
            · exact ⟨_,rfl⟩
          rw [hv] at he
          simpa only [he] using hva kv.1 v
      exact ⟨ho.append hc,by simpa [hl] using hlo⟩

omit hq in
/-- What the executor writes besides the plugin is for no transaction of the index. -/
theorem covers_around {its : List Bytes}
    (h : Covers indexKeys txKeys its P kvs) {os : List LocalKV × List LocalKV}
    (ho : ∀ kv ∈ os.1 ++ os.2, isIndexKey kv.1 = false) :
    Covers indexKeys txKeys its P (os.1 ++ kvs ++ os.2) := by
  have hou : ∀ kv ∈ os.1 ++ os.2, kv.1 ∉ indexKeys := by
    intro kv hk hm
    exact Bool.false_ne_true ((ho kv hk).symm.trans hm)
  have hb : Covers indexKeys txKeys [] P os.1 := .of_outside fun kv hk => hou kv (mem_append_left _ hk)
  have ha : Covers indexKeys txKeys [] P os.2 := .of_outside fun kv hk => hou kv (mem_append_right _ hk)
  simpa using (hb.append h).append ha

variable {d : BlockDetail}

lemma addTxs_eq_ok (h : addTxs su db d = .ok db') : ∃ kvs, db' = writeAll db kvs ∧
      Covers indexKeys txKeys (d.block.txs.map (hash su.crypto)) (·.isSome) kvs ∧
      ∀ tx ∈ d.block.txs, 8 ≤ (tx.hash su.crypto).length := by
  simp only [addTxs,getLocalKV,bind_eq_ok,pure_eq_ok,ok.injEq] at h
  obtain ⟨kvs,⟨os,ho,kvs',hkvs,rfl⟩,rfl⟩ := h
  obtain ⟨hc,hl⟩ := execTxs_covers hq (P := (·.isSome)) hkvs (fun _ => rfl) (fun _ _ => rfl)
  exact ⟨_,rfl,covers_around hc (su.addOthers_apart _ _ _ ho),hl⟩

lemma delTxs_eq_ok (h : delTxs su db d = .ok db') : ∃ kvs, db' = writeAll db kvs ∧
      Covers indexKeys txKeys (d.block.txs.map (hash su.crypto)) (· = none) kvs := by
  simp only [delTxs,getDelLocalKV,bind_eq_ok,pure_eq_ok,ok.injEq] at h
  obtain ⟨kvs,⟨os,ho,kvs',hkvs,rfl⟩,rfl⟩ := h
  obtain ⟨hc,-⟩ := execTxs_covers hq (P := (· = none)) hkvs (fun _ => rfl) (fun _ _ => rfl)
  exact ⟨_,rfl,covers_around hc (su.delOthers_apart _ _ _ ho)⟩

lemma hasTx_eq (db : LocalDB) (hl : 8 ≤ h.length) : hasTx su db h = .ok true ↔
      (db (txShortHashPerfix ++ h.take 8)).isSome ∧ (db (txHashPerfix ++ h)).isSome := by
  have hs : calcTxShortKey h = .ok (txShortHashPerfix ++ h.take 8) :=
    calcTxShortKey_eq_ok.mpr ⟨hl,rfl⟩
  simp only [hasTx,hq,if_true,hs,ok_bind,calcTxKey]
  cases hdb : db (txShortHashPerfix ++ h.take 8) <;> simp

section
variable (hs : Inv su s)
include hs

lemma Inv.answers : Answers su s := by
  intro h hl
  have hf : (s.db (txHashPerfix ++ h)).isSome ↔ h ∈ s.hashes su.crypto := by
    rw [hs.indexes _ (full_mem_indexKeys h)]
    simp [full_mem_txKeys]
  rw [hasTx_eq hq s.db hl,hf,Chain.onChain_iff,and_iff_right_iff_imp]
  intro hm
  exact (hs.indexes _ (short_mem_indexKeys _)).mpr ⟨h,hm,short_mem_txKeys.mpr rfl⟩

lemma Inv.connect (h : step su s (.connect d) = .ok s') : Inv su s' := by
  simp only [step,bind_eq_ok,pure_eq_ok,ok.injEq] at h
  obtain ⟨db,hdb,rfl⟩ := h
  obtain ⟨kvs,rfl,hc,hl⟩ := addTxs_eq_ok hq hdb
  refine ⟨hs.indexes.insert hc,?_⟩
  intro h hm
  rcases mem_append.mp (show h ∈ _ ++ s.hashes su.crypto from hm) with hm | hm
  · obtain ⟨tx,ht,rfl⟩ := mem_map.mp hm
    exact hl tx ht
  · exact hs.long h hm

lemma Inv.disconnect_cases (h : step su s .disconnect = .ok s') :
    ∃ top kvs, s.blocks = top :: s'.blocks ∧ s'.db = writeAll s.db kvs ∧
      Indexes indexKeys txKeys (top.block.txs.map (hash su.crypto) ++ s'.hashes su.crypto) s.db ∧
      Covers indexKeys txKeys (top.block.txs.map (hash su.crypto)) (· = none) kvs := by
  obtain ⟨db,bs⟩ := s
  cases bs with
  | nil => cases h
  | cons top rest =>
    simp only [step,bind_eq_ok,pure_eq_ok,ok.injEq] at h
    obtain ⟨db',hdb,rfl⟩ := h
    obtain ⟨kvs,rfl,hc⟩ := delTxs_eq_ok hq hdb
    exact ⟨top,kvs,rfl,rfl,hs.indexes,hc⟩

lemma Inv.disconnect (h : step su s .disconnect = .ok s') (ha : TipApart su s) : Inv su s' := by
  obtain ⟨top,kvs,hb,hdb,hi,hc⟩ := hs.disconnect_cases hq h
  refine ⟨?_,fun x hx => hs.long x ?_⟩
  · rw [hdb]
    refine hi.erase_apart hc ?_
    intro x hx y hy
    obtain ⟨tx,ht,rfl⟩ := mem_map.mp hx
    obtain ⟨d,hd,tx',ht',rfl⟩ := (Chain.onChain_iff _ _ _).mpr hy
    exact txKeys_disjoint (ha top (by simp [hb]) tx ht d (by simpa [hb]) tx' ht')
  · simp only [Chain.hashes,hb,flatMap_cons]
    exact mem_append_right _ hx

/-- A shared short key goes with the disconnected block, and `HasTx` forgets the
transaction that stays. -/
theorem Inv.tipApart (h : step su s .disconnect = .ok s')
    (ha : Answers su s') : TipApart su s := by
  obtain ⟨top,kvs,hb,hdb,hi,hc⟩ := hs.disconnect_cases hq h
  intro tip hti tx ht d hd tx' ht' he
  obtain rfl : top = tip := by simpa [hb] using hti
  have ho : s'.OnChain su.crypto (tx'.hash su.crypto) := ⟨d,by simpa [hb] using hd,tx',ht',rfl⟩
  have hl : 8 ≤ (tx'.hash su.crypto).length := by
    refine hs.long _ ((Chain.onChain_iff _ _ _).mp ?_)
    exact ⟨d,mem_of_mem_tail hd,tx',ht',rfl⟩
  have hso := ((hasTx_eq hq s'.db hl).mp ((ha _ hl).mpr ho)).1
  rw [hdb,hi.erase hc (short_mem_indexKeys _)] at hso
  refine hso.2 _ (mem_map_of_mem ht) ?_
  exact short_mem_txKeys.mpr he.symm

/-- One step keeps the invariant, unless it makes `HasTx` wrong. -/
theorem Inv.step {op : Op} (h : step su s op = .ok s') (ha : Answers su s') : Inv su s' := by
  cases op with
  | connect d => exact hs.connect hq h
  | disconnect => exact hs.disconnect hq h (hs.tipApart hq h ha)

end

end

variable (su : Setup) (s : Chain) (ops : List Op)

lemma Inv.start : Inv su .start := by
  refine ⟨fun k _ => ?_,fun h hh => ?_⟩
  · simp [Chain.start,Chain.hashes]
  · simp [Chain.start,Chain.hashes] at hh

lemma run_append (ops' : List Op) : run su s (ops ++ ops') = run su s ops >>= fun s' => run su s' ops' :=
  foldlM_append

lemma run_snoc (op : Op) : run su s (ops ++ [op]) = run su s ops >>= fun s' => step su s' op := by
  rw [run_append]
  simp only [run,foldlM_cons,foldlM_nil,bind_pure]

section
variable {su : Setup} (hq : su.quickIndex = true)
include hq

variable {ops pre : List Op} {s : Chain}

lemma run_inv_of_apart (ha : ∀ pre s, pre ++ [.disconnect] <+: ops → run su .start pre = .ok s → TipApart su s)
    (hp : pre <+: ops) (h : run su .start pre = .ok s) : Inv su s := by
  induction pre using reverseRecOn generalizing s with
  | nil =>
    cases h
    exact .start su
  | append_singleton pre op ih =>
    rw [run_snoc,bind_eq_ok] at h
    obtain ⟨s0,h0,hst⟩ := h
    have hs0 := ih ((prefix_append pre [op]).trans hp) h0
    cases op with
    | connect detail => exact hs0.connect hq hst
    | disconnect => exact hs0.disconnect hq hst (ha pre s0 hp h0)

lemma run_inv_of_answers (ha : ∀ pre s, pre <+: ops → run su .start pre = .ok s → Answers su s)
    (hp : pre <+: ops) (h : run su .start pre = .ok s) : Inv su s := by
  induction pre using reverseRecOn generalizing s with
  | nil =>
    cases h
    exact .start su
  | append_singleton pre op ih =>
    have hs := ha _ s hp h
    rw [run_snoc,bind_eq_ok] at h
    obtain ⟨s0,h0,hst⟩ := h
    exact (ih ((prefix_append pre [op]).trans hp) h0).step hq hst hs

end

/-- Through a run of connected and disconnected blocks `HasTx` is right in every
state exactly if no disconnected block has a transaction whose hash begins with the
same eight bytes as that of a transaction in the blocks that stay. -/
theorem hasTx_exact_iff {su : Setup} (hq : su.quickIndex = true) {ops : List Op} {final : Chain}
    (h : run su .start ops = .ok final) : (∀ pre s, pre <+: ops → run su .start pre = .ok s → Answers su s) ↔
      ∀ pre s, pre ++ [.disconnect] <+: ops → run su .start pre = .ok s → TipApart su s := by
  constructor
  · intro ha pre s hp hs
    have hi := run_inv_of_answers hq ha ((prefix_append _ _).trans hp) hs
    obtain ⟨rest,rfl⟩ := hp
    rw [run_append,bind_eq_ok] at h
    obtain ⟨s',hs',-⟩ := h
    have han := ha _ s' (prefix_append _ _) hs'
    rw [run_snoc,bind_eq_ok] at hs'
    obtain ⟨s0,hs0,hst⟩ := hs'
    obtain rfl : s = s0 := ok.inj (hs.symm.trans hs0)
    exact hi.tipApart hq hst han
  · intro hap pre s hp hs
    exact (run_inv_of_apart hq hap hp hs).answers hq

def backward : Crypto := {Crypto.framed with sha256 := fun b => (frame b).reverse}

def quickSetup : Setup where
  quickIndex := true
  reduceLocaldb := false
  crypto := backward
  actionName := fun _ => ""
  encodeTxResult := fun _ => []
  addOthers := fun _ _ => .ok ([],[])
  delOthers := fun _ _ => .ok ([],[])
  addOthers_apart := by
    rintro db detail kvs h kv hkv
    cases h
    simp at hkv
  delOthers_apart := by
    rintro db detail kvs h kv hkv
    cases h
    simp at hkv

def sampleTx (execer next : Bytes) : Transaction := ⟨execer,[],none,0,0,0,[],0,[],next⟩

def sampleBlock (tx : Transaction) : BlockDetail := ⟨Block.ofTxs [] [tx],[⟨2,[]⟩],[],[]⟩

/-- Two blocks whose transactions differ in the first byte of the hash. -/
theorem hasTx_exact_distinct :
    let ops := [.connect (sampleBlock (sampleTx [] [])),.connect (sampleBlock (sampleTx [] [7])),.disconnect]
    ∃ final, run quickSetup .start ops = .ok final ∧
      ∀ pre s, pre <+: ops → run quickSetup .start pre = .ok s → Answers quickSetup s := by
  intro ops
  have hb : (run quickSetup .start ops >>= fun s => ok s.blocks) =
      .ok [sampleBlock (sampleTx [] [])] := by decide +kernel
  obtain ⟨final,hf,-⟩ := bind_eq_ok.mp hb
  refine ⟨final,hf,(hasTx_exact_iff rfl hf).mpr ?_⟩
  intro pre s hp hs
  have ht : (run quickSetup .start (ops.take 2) >>= fun s => ok s.blocks) =
      .ok [sampleBlock (sampleTx [] [7]),sampleBlock (sampleTx [] [])] := by decide +kernel
  obtain rfl : pre = ops.take 2 := by
    rcases pre with _ | ⟨a,_ | ⟨b,_ | ⟨c,pre⟩⟩⟩ <;> simp_all [ops]
  rw [hs,ok_bind,ok.injEq] at ht
  have hne : ((sampleTx [] [7]).hash backward).take 8 ≠ ((sampleTx [] []).hash backward).take 8 := by
    decide +kernel
  simpa [TipApart,ht,sampleBlock,Block.ofTxs,quickSetup] using hne

/-- The short key of the transaction that stays is deleted with the block above it. -/
theorem hasTx_forgets_shared : let h := (sampleTx [] []).hash backward
    ∃ s, run quickSetup .start [.connect (sampleBlock (sampleTx [] [])),
        .connect (sampleBlock (sampleTx [1] [])),.disconnect] = .ok s ∧
      s.OnChain backward h ∧ 8 ≤ h.length ∧ hasTx quickSetup s.db h = .ok false := by
  intro h
  have hrun : (run quickSetup .start [.connect (sampleBlock (sampleTx [] [])),
      .connect (sampleBlock (sampleTx [1] [])),.disconnect] >>= fun s =>
        hasTx quickSetup s.db h >>= fun has => ok (has,s.blocks)) =
      .ok (false,[sampleBlock (sampleTx [] [])]) := by decide +kernel
  obtain ⟨s,hs,hr⟩ := bind_eq_ok.mp hrun
  obtain ⟨has,hh,he⟩ := bind_eq_ok.mp hr
  obtain ⟨rfl,hb⟩ := Prod.ext_iff.mp (ok.inj he)
  refine ⟨s,hs,?_,by decide +kernel,hh⟩
  exact ⟨sampleBlock (sampleTx [] []),by simp_all,sampleTx [] [],by simp [sampleBlock,Block.ofTxs],rfl⟩

end Dpos.TxIndex
