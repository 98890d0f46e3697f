import Dpos.TxPool

/-! What the consensus module makes of the transactions of the mempool, as in `consensus/base.go`. -/
namespace Dpos.Consensus
open List
open TxCache (narrow)
open TxGroup (call)

section
variable (isExpire : List Transaction → Bool)

/-- The loop of `CheckTxExpire`, with nil for what is expired; the next `skip` transactions belong to the group just
looked at. There is no result where the slice of a negative count panics. -/
def markExpired : ℕ → List Transaction → Option (List (Option Transaction))
  | _,[] => some []
  | skip+1,_ :: rest => markExpired skip rest
  | 0,tx :: rest =>
    if tx.groupCount = 0 then (markExpired 0 rest).map ((if isExpire [tx] then none else some tx) :: ·)
    else if rest.length+1 < tx.groupCount then (markExpired 0 rest).map (some tx :: ·)
    else if tx.groupCount < 0 then none
    else
      let group := tx :: rest.take (tx.groupCount.toNat-1)
      (markExpired (tx.groupCount.toNat-1) rest).map (group.map (if isExpire group then fun _ => none else some) ++ ·)

/-- A transaction on its own, or a complete group. -/
def IsUnit (unit : List Transaction) : Prop :=
  (∃ tx, unit = [tx] ∧ tx.groupCount = 0) ∨ unit ≠ [] ∧ ∀ tx ∈ unit, tx.groupCount = unit.length

variable {isExpire} {unit : List Transaction} {units : List (List Transaction)}

lemma markExpired_skip (ms rest : List Transaction) :
    markExpired isExpire ms.length (ms ++ rest) = markExpired isExpire 0 rest := by
  induction ms with
  | nil => rfl
  | cons tx ms ih => exact ih

lemma markExpired_unit (hu : IsUnit unit) (rest : List Transaction) : markExpired isExpire 0 (unit ++ rest) =
    (markExpired isExpire 0 rest).map (unit.map (if isExpire unit then fun _ => none else some) ++ ·) := by
  rcases hu with ⟨tx,rfl,h0⟩ | ⟨hne,hg⟩
  · rw [singleton_append,markExpired,if_pos h0]
    split_ifs <;> rfl
  · obtain ⟨tx,ms,rfl⟩ := exists_cons_of_ne_nil hne
    have hc : tx.groupCount = (ms.length+1 : ℕ) := hg tx mem_cons_self
    have hn : tx.groupCount.toNat-1 = ms.length := by omega
    rw [cons_append,markExpired,if_neg (by omega),if_neg (by rw [length_append]; omega),if_neg (by omega),hn,
      take_left,markExpired_skip]

lemma markExpired_units (hu : ∀ unit ∈ units, IsUnit unit) : markExpired isExpire 0 units.flatten =
    some (units.flatMap fun unit => unit.map (if isExpire unit then fun _ => none else some)) := by
  induction units with
  | nil => rfl
  | cons unit units ih =>
    obtain ⟨hh,ht⟩ := forall_mem_cons.mp hu
    rw [flatten_cons,markExpired_unit hh,ih ht]
    rfl

lemma filterMap_marks : (units.flatMap fun unit => unit.map (if isExpire unit then fun _ => none else some)).filterMap id =
    (units.filter fun unit => !isExpire unit).flatten := by
  induction units with
  | nil => rfl
  | cons unit units ih =>
    rw [flatMap_cons,filterMap_append,ih,filter_cons]
    cases isExpire unit <;> simp

end

section
variable (su : TxCache.Setup) (decode : Bytes → Option (List Transaction)) (height blocktime : ℤ)

def isExpire (txs : List Transaction) : Bool :=
  txs.any fun tx => 0 < height && 0 < blocktime && TxPool.isExpire su decode tx height blocktime

def checkTxExpire (txs : List Transaction) : Option (List Transaction) :=
  (markExpired (isExpire su decode height blocktime) 0 txs).map fun marks =>
    if marks.any (·.isNone) then marks.filterMap id else txs

/-- By the `Expire` fields of the members. -/
def Expired (unit : List Transaction) : Bool := unit.any fun tx => TxCache.isExpire su tx height blocktime

/-- The transactions that the header of a group member decodes to. -/
def packed (tx : Transaction) : Option (List Transaction) :=
  if 2 ≤ tx.groupCount ∧ tx.groupCount ≤ 20 then decode tx.header else none

/-- An expired unit comes at a positive height and block time, and with a member whose header is no packed group or with
a packed transaction that is expired itself. Packed transactions are then expired only with a member. -/
structure Seen (unit : List Transaction) : Prop where
  positive : Expired su height blocktime unit = true → 0 < height ∧ 0 < blocktime
  seen : Expired su height blocktime unit = true → ∃ tx ∈ unit, Expired su height blocktime ((packed decode tx).getD [tx]) = true
  only : 0 < height → 0 < blocktime → ∀ tx ∈ unit, ∀ txs, packed decode tx = some txs →
    Expired su height blocktime txs = true → Expired su height blocktime unit = true

variable {su decode height blocktime} {units : List (List Transaction)}

lemma checkTxExpire_units (hu : ∀ unit ∈ units, IsUnit unit) : checkTxExpire su decode height blocktime units.flatten =
    some (units.filter fun unit => !isExpire su decode height blocktime unit).flatten := by
  rw [checkTxExpire,markExpired_units hu,Option.map_some,filterMap_marks]
  split_ifs with h
  · rfl
  · -- nothing is marked, so no unit is expired
    rw [filter_eq_self.mpr fun unit hm => ?_]
    by_contra he
    have he : isExpire su decode height blocktime unit = true := by simpa using he
    obtain ⟨tx,ht,-⟩ := any_eq_true.mp he
    exact h (any_eq_true.mpr ⟨none,mem_flatMap.mpr ⟨unit,hm,mem_map.mpr ⟨tx,ht,by rw [he]; rfl⟩⟩,rfl⟩)

lemma isExpire_packed (tx : Transaction) : TxPool.isExpire su decode tx height blocktime =
    Expired su height blocktime ((packed decode tx).getD [tx]) := by
  unfold TxPool.isExpire TxGroup.getTxGroup packed Expired
  split_ifs <;> try omega
  · simp
  · cases decode tx.header <;> simp
  · simp
  · simp

lemma isExpire_eq_iff {unit : List Transaction} : isExpire su decode height blocktime unit = Expired su height blocktime unit ↔
    Seen su decode height blocktime unit := by
  have hi : isExpire su decode height blocktime unit = true ↔ (0 < height ∧ 0 < blocktime) ∧
      ∃ tx ∈ unit, Expired su height blocktime ((packed decode tx).getD [tx]) = true := by
    simp only [isExpire,isExpire_packed,any_eq_true,Bool.and_eq_true,decide_eq_true_eq]
    tauto
  rw [Bool.eq_iff_iff,hi]
  refine ⟨fun h => ⟨fun he => (h.mpr he).1,fun he => (h.mpr he).2,fun hh hb tx ht txs hp he => ?_⟩,fun h => ⟨?_,?_⟩⟩
  · exact h.mp ⟨⟨hh,hb⟩,tx,ht,by rwa [hp]⟩
  · rintro ⟨⟨hh,hb⟩,tx,ht,he⟩
    cases hp : packed decode tx with
    | none =>
      rw [hp] at he
      exact any_eq_true.mpr ⟨tx,ht,by simpa [Expired] using he⟩
    | some txs => exact h.only hh hb tx ht txs hp (by rwa [hp] at he)
  · exact fun he => ⟨h.positive he,h.seen he⟩

/-- The lists of some units lose exactly the units with an expired member if and only if the height and the block time
are positive where a unit is expired, and packed groups in the headers are expired with it. -/
theorem checkTxExpire_exact_iff (hu : ∀ unit ∈ units, IsUnit unit) :
    (∀ us ⊆ units, checkTxExpire su decode height blocktime us.flatten =
        some (us.filter fun unit => !Expired su height blocktime unit).flatten) ↔
      ∀ unit ∈ units, Seen su decode height blocktime unit := by
  simp only [← isExpire_eq_iff]
  constructor
  · intro h unit hm
    have hs : [unit] ⊆ units := by simpa using hm
    have he := h [unit] hs
    rw [checkTxExpire_units fun unit hm => hu unit (hs hm)] at he
    simp only [filter_cons,filter_nil] at he
    have hne : unit ≠ [] := by
      rcases hu unit hm with ⟨tx,rfl,-⟩ | ⟨hne,-⟩
      · simp
      · exact hne
    revert he
    cases isExpire su decode height blocktime unit <;> cases Expired su height blocktime unit <;> simp [hne,hne.symm]
  · intro h us hs
    rw [checkTxExpire_units fun unit hm => hu unit (hs hm),filter_congr fun unit hm => by rw [h unit (hs hm)]]

end

/-- A call that expires at a height, alone or in a group of two. -/
def expiring (groupCount : ℤ) : Transaction := { call [] [] with groupCount := groupCount, expire := 1 }

/-- A block time of 0, and members whose header reads as a packed group without members. -/
theorem checkTxExpire_keeps_expired : TxCache.isExpire narrow (expiring 0) 1 0 = true ∧
    checkTxExpire narrow (fun _ => none) 1 0 [expiring 0] = some [expiring 0] ∧
    TxCache.isExpire narrow (expiring 2) 1 1 = true ∧
    checkTxExpire narrow (fun _ => some []) 1 1 [expiring 2,expiring 2] = some [expiring 2,expiring 2] := by
  decide

/-- A group whose headers read as a packed group of an expired transaction, and a call. -/
theorem checkTxExpire_exact_group : checkTxExpire narrow (fun _ => some [expiring 0]) 1 1
    [expiring 2,expiring 2,call [] []] = some [call [] []] :=
  (checkTxExpire_exact_iff (by simp [IsUnit,expiring,call] :
    ∀ unit ∈ [[expiring 2,expiring 2],[call [] []]],IsUnit unit)).mpr (by
      simp only [forall_mem_cons,not_mem_nil,IsEmpty.forall_iff,implies_true,and_true]
      exact ⟨⟨by decide,by decide,by decide⟩,by decide,by decide,by decide⟩) _ (Subset.refl _)

end Dpos.Consensus
