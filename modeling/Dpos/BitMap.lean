import Dpos.Executor
import Dpos.PreExec
import Mathlib.Data.Nat.Digits.Defs

/-! The bit maps of `calcbitmap.go`: big numbers whose bits stand for the places of a list. -/
namespace Dpos.BitMap
open List

/-- `big.Int.Bytes`, without leading zeros. -/
def bytes (n : ℕ) : Bytes := ((Nat.digits 256 n).map UInt8.ofNat).reverse

def setBytes (bs : Bytes) : ℕ := Nat.ofDigits 256 (bs.reverse.map UInt8.toNat)

lemma setBytes_bytes (n : ℕ) : setBytes (bytes n) = n := by
  have hd : ∀ d ∈ Nat.digits 256 n, (UInt8.toNat ∘ UInt8.ofNat) d = id d := fun d hd =>
    Nat.mod_eq_of_lt (Nat.digits_lt_base (by decide) hd)
  rw [setBytes,bytes,reverse_reverse,map_map,map_congr_left hd,map_id,Nat.ofDigits_digits]

section
variable {α : Type}

/-- The loop that sets the bits of the elements that pass a test. -/
def setBits (p : ℕ → α → Bool) (xs : List α) : ℕ :=
  xs.zipIdx.foldl (fun rst x => if p x.2 x.1 then rst ||| 2^x.2 else rst) 0

/-- The elements whose places are marked. -/
def marked (ok : ℕ → Bool) (xs : List α) : List α := (xs.zipIdx.filter fun x => ok x.2).map Prod.fst

lemma setBits_concat (p : ℕ → α → Bool) (xs : List α) (x : α) :
    setBits p (xs ++ [x]) = if p xs.length x then setBits p xs ||| 2^xs.length else setBits p xs := by
  simp [setBits,zipIdx_append]

lemma testBit_setBits (p : ℕ → α → Bool) (xs : List α) (i : ℕ) : (setBits p xs).testBit i = xs[i]?.any (p i) := by
  induction xs using reverseRecOn with
  | nil => simp [setBits]
  | append_singleton xs x ih =>
    have hs : (setBits p (xs ++ [x])).testBit i = (xs[i]?.any (p i) || (decide (xs.length = i) && p xs.length x)) := by
      rw [setBits_concat]
      split_ifs with h <;> simp [ih,h,Nat.testBit_two_pow]
    rw [hs]
    rcases lt_trichotomy i xs.length with h | rfl | h
    · simp [getElem?_append_left h,h.ne']
    · simp
    · simp [getElem?_append_right h.le,getElem?_eq_none h.le,h.ne,show i-xs.length ≠ 0 by omega]

lemma marked_eq_filter {ok : ℕ → Bool} {p : α → Bool} {xs : List α} (h : ∀ i x, xs[i]? = some x → ok i = p x) :
    marked ok xs = xs.filter p := by
  rw [marked,filter_congr (q := p ∘ Prod.fst) fun x hx => h x.2 x.1 (mem_zipIdx_iff_getElem?.mp hx),← filter_map,
    zipIdx_map_fst]

end

/-- Whether a transaction has the receipt of a success. -/
def succeeds (data : List ReceiptData) (i : ℕ) : Bool := data[i]?.any (·.ty = Executor.execOk)

/-- `CalcBitMap`; there is no result where it asks for a receipt that is not there. -/
def calcBitMap (bases subs : List Bytes) (subData : List ReceiptData) : Option Bytes :=
  if subs.length ≤ subData.length then
    let subMap := marked (succeeds subData) subs
    some (bytes (setBits (fun _ base => base ∈ subMap) bases))
  else none

def calcSingleBitMap (bases : List Bytes) (data : List ReceiptData) : Option Bytes :=
  if bases.length ≤ data.length then some (bytes (setBits (fun i _ => succeeds data i) bases)) else none

def calcBitMapByBitMap (bases subs : List Bytes) (bitmap : Bytes) : Bytes :=
  let subMap := marked (setBytes bitmap).testBit subs
  bytes (setBits (fun _ base => base ∈ subMap) bases)

/-- The loop of `SetAddrsBitMap`. -/
def setAddrs (addrGroup : List Bytes) (addrsMap : Finset Bytes) : ℕ × Finset Bytes :=
  addrGroup.zipIdx.foldl (fun r a => if a.1 ∈ r.2 then (r.1 ||| 2^a.2,r.2.erase a.1) else r) (0,addrsMap)

def setAddrsBitMap (addrGroup addrs : List Bytes) : Bytes × Finset Bytes :=
  let r := setAddrs addrGroup addrs.toFinset
  (bytes r.1,r.2)

def getAddrsByBitMap (addrGroup : List Bytes) (bitmap : Bytes) : List Bytes :=
  marked (setBytes bitmap).testBit addrGroup

/-- An address of a group without repetitions is still in the map when its turn comes. -/
theorem setAddrs_eq {group : List Bytes} (hg : group.Nodup) (m : Finset Bytes) :
    setAddrs group m = (setBits (fun _ a => a ∈ m) group,m \ group.toFinset) := by
  induction group using reverseRecOn with
  | nil => simp [setAddrs,setBits]
  | append_singleton group a ih =>
    obtain ⟨hg,ha⟩ : group.Nodup ∧ a ∉ group := by simpa [nodup_append,imp_not_comm] using hg
    have hs : setAddrs (group ++ [a]) m = if a ∈ m \ group.toFinset then
        (setBits (fun _ a => a ∈ m) group ||| 2^group.length,(m \ group.toFinset).erase a)
        else (setBits (fun _ a => a ∈ m) group,m \ group.toFinset) := by
      rw [setAddrs,zipIdx_append,foldl_append,← setAddrs,ih hg]
      simp
    have hd : m \ (group ++ [a]).toFinset = (m \ group.toFinset).erase a := by
      ext b
      simp only [Finset.mem_sdiff,Finset.mem_erase,mem_toFinset,mem_append,mem_singleton]
      tauto
    rw [hs,setBits_concat,hd]
    by_cases hm : a ∈ m
    · simp [hm,ha]
    · simp [hm]

/-- **The bit maps** of two lists agree whether they are made from the receipts or from the bit map
of the receipts, and an address group comes back from its bit map. -/
theorem bitMaps_agree {subs : List Bytes} {d : List ReceiptData} (h : subs.length = d.length)
    {group : List Bytes} (hg : group.Nodup) (bs ads : List Bytes) :
    (∃ b, calcSingleBitMap subs d = some b ∧
      calcBitMap bs subs d = some (calcBitMapByBitMap bs subs b)) ∧
    getAddrsByBitMap group (setAddrsBitMap group ads).1 = group.filter (· ∈ ads) ∧
    ∀ a, a ∈ (setAddrsBitMap group ads).2 ↔ a ∈ ads ∧ a ∉ group := by
  have hm : marked (setBits (fun i _ => succeeds d i) subs).testBit subs = marked (succeeds d) subs := by
    unfold marked
    refine congrArg _ (filter_congr fun x hx => ?_)
    rw [testBit_setBits,mem_zipIdx_iff_getElem?.mp hx]
    rfl
  refine ⟨⟨_,if_pos h.le,?_⟩,?_,fun a => ?_⟩
  · rw [calcBitMap,if_pos h.le,calcBitMapByBitMap,setBytes_bytes,hm]
  · rw [getAddrsByBitMap,setAddrsBitMap,setBytes_bytes,setAddrs_eq hg]
    refine marked_eq_filter fun i a ha => ?_
    simp [testBit_setBits,ha]
  · simp [setAddrsBitMap,setAddrs_eq hg]

theorem bitMaps_agree_repeated : (∃ b, calcSingleBitMap [[1],[3],[3]] [⟨2,[]⟩,⟨0,[]⟩,⟨2,[]⟩] = some b ∧
      calcBitMap [[1],[2],[1],[3]] [[1],[3],[3]] [⟨2,[]⟩,⟨0,[]⟩,⟨2,[]⟩] =
        some (calcBitMapByBitMap [[1],[2],[1],[3]] [[1],[3],[3]] b)) ∧
    getAddrsByBitMap [[1],[2],[4]] (setAddrsBitMap [[1],[2],[4]] [[4],[5],[4],[1]]).1 = [[1],[4]] ∧
    ∀ a, a ∈ (setAddrsBitMap [[1],[2],[4]] [[4],[5],[4],[1]]).2 ↔ a = [5] := by
  obtain ⟨hb,hg,hn⟩ := @bitMaps_agree [[1],[3],[3]] [⟨2,[]⟩,⟨0,[]⟩,⟨2,[]⟩] rfl [[1],[2],[4]] (by decide) [[1],[2],[1],[3]]
    [[4],[5],[4],[1]]
  refine ⟨hb,hg,fun a => (hn a).trans ?_⟩
  simp only [mem_cons,not_mem_nil,or_false]
  grind

end Dpos.BitMap
