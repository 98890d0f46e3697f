import Dpos.PreExec
import Dpos.Decimal
import Dpos.Word
import Mathlib.Data.List.TakeWhile

/-! The transaction cache of `blockchain`: the hashes of the last blocks, which is all
that the check for duplicates looks at for a transaction with a height as its expiry. -/
namespace Dpos.TxCache

open List
open Word (wrap InRange)

/-- The configuration: the pack heights, how many blocks are read on a start, and whether an expiry
counts as a height. -/
structure Setup extends Config where
  enableTxHeight : Bool
  forkTxHeight : ℤ
  lowAllowPackHeight : ℕ
  highAllowPackHeight : ℕ
  defCacheSize : ℕ

def txHeightFlag : ℤ := 2^62

def expireBound : ℤ := 1000000000

section
variable (su : Setup)

def isEnableFork (height : ℤ) : Bool := su.enableTxHeight && (height = -1 || su.forkTxHeight ≤ height)

/-- `GetTxHeight`, -1 if the expiry is not a height. -/
def getTxHeight (valid height : ℤ) : ℤ :=
  if su.isPara then -1
  else if isEnableFork su height ∧ txHeightFlag < valid then valid-txHeightFlag
  else -1

def isExpire (tx : Transaction) (height blocktime : ℤ) : Bool :=
  if tx.expire = 0 then false
  else if tx.expire ≤ expireBound then tx.expire ≤ height
  else
    let txHeight := getTxHeight su tx.expire height
    if 0 < txHeight then
      ¬(txHeight-su.lowAllowPackHeight ≤ height ∧ height ≤ txHeight+su.highAllowPackHeight)
    else tx.expire ≤ blocktime

end

/-- `TxCache`; the oldest entry of `data` comes first. -/
structure Cache where
  capacity : ℕ
  cacheTxs : List Bytes
  data : List (ℤ × List Bytes)
  deriving DecidableEq, Repr

namespace Cache

def forget (c : Cache) (txHashes : List Bytes) : Cache := {c with cacheTxs := c.cacheTxs.filter (· ∉ txHashes)}

def del (c : Cache) (height : ℤ) : Cache :=
  match c.data.find? (·.1 = height) with
  | none => c
  | some txs => {c.forget txs.2 with data := c.data.filter (·.1 ≠ height)}

/-- The oldest entry makes room if there is none left. -/
def removeOldest (c : Cache) : Cache :=
  if c.capacity ≤ c.data.length then
    match c.data with
    | [] => c
    | txs :: rest => {c.forget txs.2 with data := rest}
  else c

def add (c : Cache) (height : ℤ) (txHashes : List Bytes) : Cache :=
  let c := (c.del height).removeOldest
  {c with cacheTxs := txHashes ++ c.cacheTxs, data := c.data ++ [(height,txHashes)]}

def hasCacheTx (c : Cache) (hash : Bytes) : Bool := hash ∈ c.cacheTxs

end Cache

/-- `BlockChain.HasTx`, where `stored` is the answer of the block store. -/
def hasTx (cache : Cache) (stored : Bytes → Except String Bool) (txhash : Bytes)
    (onlyquerycache : Bool) : Except String Bool :=
  if cache.hasCacheTx txhash then .ok true
  else if onlyquerycache then .ok false
  else stored txhash

section
variable (su : Setup) (cache : Cache) (stored : Bytes → Except String Bool)

/-- The loop of `GetDuplicateTxHashList`. The flag is not reset between two turns. -/
def duplicates (count : ℤ) : Bool → List (Bytes × ℤ) → List Bytes
  | _, [] => []
  | onlyquerycache, (txhash,expire) :: rest =>
    let onlyquerycache := onlyquerycache || 0 < getTxHeight su expire count
    match hasTx cache stored txhash onlyquerycache with
    | .ok true => txhash :: duplicates count onlyquerycache rest
    | _ => duplicates count onlyquerycache rest

/-- `GetDuplicateTxHashList`, `none` for `ErrInvalidParam`. -/
def getDuplicateTxHashList (hashes : List Bytes) (expire : Option (List ℤ)) (count : ℤ) :
    Option (List Bytes) :=
  match expire with
  | none => some (duplicates su cache stored count (count = -1) (hashes.map fun h => (h,0)))
  | some expire =>
    if expire.length ≠ hashes.length then none
    else some (duplicates su cache stored count (count = -1) (hashes.zip expire))

/-- What is reported for hashes with their expire values. -/
def reported (txs : List (Bytes × ℤ)) (count : ℤ) : List Bytes :=
  (getDuplicateTxHashList su cache stored (txs.map Prod.fst) (some (txs.map Prod.snd)) count).getD []

variable (txs : List (Bytes × ℤ)) (count : ℤ) (only : Bool) (tx : Bytes × ℤ)

lemma reported_eq : reported su cache stored txs count = duplicates su cache stored count (count = -1) txs := by
  have hz : (txs.map Prod.fst).zip (txs.map Prod.snd) = txs := by rw [← unzip_fst,← unzip_snd,zip_unzip]
  simp [reported,getDuplicateTxHashList,hz]

def Ordinary (count : ℤ) (tx : Bytes × ℤ) : Prop := getTxHeight su tx.2 count ≤ 0

instance (count : ℤ) (tx : Bytes × ℤ) : Decidable (Ordinary su count tx) := inferInstanceAs (Decidable (_ ≤ _))

lemma hasTx_eq_true {t : Bytes} {o : Bool} : hasTx cache stored t o = .ok true ↔
      cache.hasCacheTx t = true ∨ o = false ∧ stored t = .ok true := by
  unfold hasTx
  cases cache.hasCacheTx t <;> cases o <;> simp

variable (txs : List (Bytes × ℤ)) (h : Bytes)

lemma mem_duplicates_cons : h ∈ duplicates su cache stored count only (tx :: txs) ↔
      (h = tx.1 ∧ (cache.hasCacheTx h = true ∨ (only = false ∧ Ordinary su count tx) ∧ stored h = .ok true)) ∨
      h ∈ duplicates su cache stored count (only || ¬Ordinary su count tx) txs := by
  obtain ⟨t,e⟩ := tx
  have hf : (only || decide (0 < getTxHeight su e count)) =
      (only || decide ¬Ordinary su count (t,e)) := by
    simp [Ordinary]
  have hfa : (only || decide ¬Ordinary su count (t,e)) = false ↔
      only = false ∧ Ordinary su count (t,e) := by
    simp
  simp only [duplicates,hf]
  rw [← hfa]
  generalize (only || decide ¬Ordinary su count (t,e)) = only'
  have hh := @hasTx_eq_true cache stored t only'
  split
  · rename_i ht
    rw [mem_cons]
    exact or_congr_left (and_iff_left_of_imp fun he => he ▸ hh.mp ht).symm
  · rename_i hn
    refine (or_iff_right ?_).symm
    rintro ⟨rfl,hr⟩
    exact hn (hh.mpr hr)

lemma mem_duplicates : h ∈ duplicates su cache stored count only txs ↔
      (h ∈ txs.map Prod.fst ∧ cache.hasCacheTx h = true) ∨ (only = false ∧ stored h = .ok true ∧
        h ∈ (txs.takeWhile fun tx => Ordinary su count tx).map Prod.fst) := by
  induction txs generalizing only with
  | nil => simp [duplicates]
  | cons tx txs ih =>
    rw [mem_duplicates_cons,ih]
    by_cases ho : Ordinary su count tx
    · rw [takeWhile_cons_of_pos (by simpa using ho)]
      simp only [ho,not_true_eq_false,decide_false,Bool.or_false,and_true,map_cons,mem_cons]
      tauto
    · rw [takeWhile_cons_of_neg (by simpa using ho)]
      simp only [ho,not_false_eq_true,decide_true,Bool.or_true,and_false,map_cons,mem_cons,map_nil,not_mem_nil]
      simp
      tauto

lemma mem_reported : h ∈ reported su cache stored txs count ↔
      (h ∈ txs.map Prod.fst ∧ cache.hasCacheTx h = true) ∨ (count ≠ -1 ∧ stored h = .ok true ∧
        h ∈ (txs.takeWhile fun tx => Ordinary su count tx).map Prod.fst) := by
  rw [reported_eq,mem_duplicates]
  simp

lemma mem_reported_alone (count : ℤ) (h : Bytes) : h ∈ reported su cache stored [tx] count ↔
      h = tx.1 ∧ (cache.hasCacheTx h = true ∨ count ≠ -1 ∧ stored h = .ok true ∧ Ordinary su count tx) := by
  rw [mem_reported]
  by_cases ho : Ordinary su count tx
  · rw [takeWhile_cons_of_pos (by simpa using ho)]
    simp [ho]
    tauto
  · rw [takeWhile_cons_of_neg (by simpa using ho)]
    simp [ho]

/-- **A batch reports what its elements report alone**, exactly if each ordinary
transaction that is stored and not cached stands before the first one with a height. -/
theorem reported_batch_iff (txs : List (Bytes × ℤ)) (count : ℤ) : (∀ h, h ∈ reported su cache stored txs count ↔
      ∃ tx ∈ txs, h ∈ reported su cache stored [tx] count) ↔
    (count ≠ -1 → ∀ tx ∈ txs, Ordinary su count tx → stored tx.1 = .ok true → cache.hasCacheTx tx.1 = false →
        tx.1 ∈ (txs.takeWhile fun tx => Ordinary su count tx).map Prod.fst) := by
  simp only [mem_reported_alone]
  constructor
  · intro hb hct tx ht ho hs hc
    have hm := (hb tx.1).mpr ⟨tx,ht,rfl,.inr ⟨hct,hs,ho⟩⟩
    rw [mem_reported,hc] at hm
    simpa using (hm.resolve_left (by simp)).2.2
  · intro hbe h
    rw [mem_reported]
    constructor
    · rintro (⟨hm,hc⟩ | ⟨hct,hs,hm⟩)
      · obtain ⟨tx,ht,rfl⟩ := mem_map.mp hm
        exact ⟨tx,ht,rfl,.inl hc⟩
      · obtain ⟨tx,ht,rfl⟩ := mem_map.mp hm
        have ho : Ordinary su count tx := by simpa using mem_takeWhile_imp ht
        exact ⟨tx,(List.takeWhile_prefix _).subset ht,rfl,.inr ⟨hct,hs,ho⟩⟩
    · rintro ⟨tx,ht,rfl,hc | ⟨hct,hs,ho⟩⟩
      · exact .inl ⟨mem_map_of_mem ht,hc⟩
      · by_cases hc : cache.hasCacheTx tx.1 = true
        · exact .inl ⟨mem_map_of_mem ht,hc⟩
        · exact .inr ⟨hct,hs,hbe hct tx ht ho hs (by simpa using hc)⟩

end

/-- Every fork is active, a height may be missed by one. -/
def narrow : Setup where
  toConfig := .allForks
  enableTxHeight := true
  forkTxHeight := 0
  lowAllowPackHeight := 1
  highAllowPackHeight := 1
  defCacheSize := 128

/-- A transaction with a height hides the stored one behind it. -/
theorem reported_batch_misses :
    ∃ (cache : Cache) (stored : Bytes → Except String Bool) (txs : List (Bytes × ℤ)) (h : Bytes),
      h ∉ reported narrow cache stored txs 5 ∧ ∃ tx ∈ txs, h ∈ reported narrow cache stored [tx] 5 :=
  ⟨⟨3,[],[]⟩,fun h => .ok (h = [2]),[([1],txHeightFlag+5),([2],0)],[2],by decide,([2],0),by decide,by decide⟩

/-- `strconv.ParseInt` for base 10 and 64 bits. -/
def parseInt (text : Bytes) : Option ℤ := (Bytes.atoi text).filter fun n => InRange 64 n

inductive ExpireErr
  | errInvalidParam | errHeightLessZero | errHeightOverflow | parse
  deriving DecidableEq, Repr

section
variable (parseDuration : Bytes → Option ℤ)

/-- `ParseExpire`, without a result where the index is out of range. -/
def parseExpire (expire : Bytes) : Option (Except ExpireErr ℤ) :=
  match expire with
  | [] => some (.error .errInvalidParam)
  | [72] => none
  | 72 :: 58 :: text => some <| match parseInt text with
    | none => .error .parse
    | some txHeight =>
      if txHeight ≤ 0 then .error .errHeightLessZero
      else if wrap 64 (txHeight+txHeightFlag) < txHeight then .error .errHeightOverflow
      else .ok (wrap 64 (txHeight+txHeightFlag))
  | expire => some (((parseInt expire).or (parseDuration expire)).elim (.error .parse) .ok)

/-- Only the text `H` panics, and a height above the flag is refused. -/
theorem parseExpire_ok_iff (expire : Bytes) : (parseExpire parseDuration expire ≠ none ∧
    ∀ text v, expire = Bytes.ofString "H:" ++ text → parseExpire parseDuration expire = some (.ok v) →
      ∃ n, parseInt text = some n ∧ v = n+txHeightFlag ∧ InRange 64 v) ↔ expire ≠ Bytes.ofString "H" := by
  have hH : Bytes.ofString "H" = [72] := by decide
  have hc : Bytes.ofString "H:" = [72,58] := by decide
  rw [hH,hc]
  constructor
  · rintro h rfl
    exact h.1 rfl
  · refine fun h => ⟨?_,?_⟩
    · unfold parseExpire
      split <;> simp_all
    · rintro text v rfl hv
      simp only [parseExpire,cons_append,nil_append,Option.some.injEq] at hv
      cases hp : parseInt text with
      | none => simp [hp] at hv
      | some n =>
        obtain ⟨-,hn⟩ := Option.filter_eq_some_iff.mp hp
        simp only [hp] at hv
        split_ifs at hv with h0 ho
        have hr : InRange 64 (n+txHeightFlag) := by
          simp [InRange,txHeightFlag,wrap,Int.bmod] at hn ho ⊢
          omega
        rw [Word.wrap_eq_self hr] at hv
        cases hv
        exact ⟨n,rfl,rfl,hr⟩

theorem parseExpire_panics : parseExpire (fun _ => none) (Bytes.ofString "H") = none := by decide

end

end Dpos.TxCache
