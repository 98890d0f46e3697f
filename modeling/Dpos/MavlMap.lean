import Dpos.MavlRun

/-! A tree in memory is the finite map of the edits it has seen: lookups, ranks,
positions and the flags of the edits are those of the map. -/
namespace Dpos.Mavl

open LeafTree List

variable {D : Type}

/-- The view of a tree that was never saved: nothing is stored. -/
def memView [Inhabited D] (config : Option TreeConfig) : View D :=
  ⟨⟨fun _ => default,fun _ => [],fun _ => [],default⟩,config,fun _ _ => False⟩

lemma memView_serves [Inhabited D] (c : Option TreeConfig) (t : Tree D) :
    (memView c).Serves t := fun _ _ h => h.elim

lemma memView_exact [Inhabited D] (c : Option TreeConfig) : (memView (D:=D) c).Exact := fun _ _ _ h => h.elim

section
variable {w : View D} {t : Tree D} {m : Option Bindings} {f : Finmap fun _ : Bytes => Bytes}

section
variable (hw : w.Serves t) (h : Rep w t.root m) (hm : Fits m) (hf : Models m f) (k : Bytes)
include hw h hm hf k

lemma Tree.get_spec :
    ∃ v', t.get k = .ok (int32 ((f.keys.filter (· < k)).card : ℕ),v',(f.lookup k).isSome) ∧
      Reads w (f.lookup k) v' := by
  cases m with
  | none =>
    obtain h : t.root = .nil := h
    have hn := hf.lookup_eq_none k
    have hz : (f.keys.filter (· < k)).card = 0 := by
      rw [hf.card_lt hm.1]
      rfl
    refine ⟨[],?_,by rw [hn]; rfl⟩
    rw [hz,hn]
    simp only [Tree.get,h]
    rfl
  | some b =>
    obtain ⟨v',hv',hrd⟩ := Holds.get hw k h hm.height_lt_maxDepth
    rw [hf.lookup_eq (hm.1 b rfl).1,hf.rank_eq hm.1] at hv'
    rw [hf.lookup_eq (hm.1 b rfl).1] at hrd
    refine ⟨v',?_,hrd⟩
    have hne := Holds.ne_nil h
    cases hr : t.root with
    | nil => exact absurd hr hne
    | mk =>
      rw [hr] at hv'
      simp only [Tree.get,hr,hv']

lemma Tree.has_spec : t.has k = .ok (f.lookup k).isSome := by
  cases m with
  | none =>
    obtain h : t.root = .nil := h
    simp only [Tree.has,h,hf.lookup_eq_none k,Option.isSome_none]
  | some b =>
    have hh := Holds.has hw k (hm.1 b rfl).1 h hm.height_lt_maxDepth
    have hme : decide (k ∈ b.keys) = (f.lookup k).isSome := by
      rw [Bool.eq_iff_iff,decide_eq_true_iff,← hf.lookup_eq (hm.1 b rfl).1,lookup_isSome (hm.1 b rfl).1]
    rw [hme] at hh
    have hne := Holds.ne_nil h
    cases hr : t.root with
    | nil => exact absurd hr hne
    | mk =>
      rw [hr] at hh
      simp only [Tree.has,hr,hh]

end

lemma Tree.size_spec (h : Rep w t.root m) (hm : Fits m) (hf : Models m f) :
    t.size = int32 (f.keys.card : ℕ) := by
  rw [hf.card hm.1]
  cases m with
  | none =>
    obtain h : t.root = .nil := h
    simp only [Tree.size,h]
    rfl
  | some b =>
    have hs := Holds.size_eq h
    have hne := Holds.ne_nil h
    cases hr : t.root with
    | nil => exact absurd hr hne
    | mk k v height s hash lh ln rh rn p =>
      rw [hr] at hs
      simp only [Tree.size,hr,contents_some,length_toList]
      simpa [Node.size] using hs

lemma Tree.getByIndex_spec (hw : w.Serves t) (hx : w.Exact) (h : Rep w t.root m) (hm : Fits m)
    (hf : Models m f) (hs : f.keys.card < 2^31) {i : ℕ} (hi : i < f.keys.card) :
    ∃ k v, t.getByIndex i = .ok (k,v) ∧ f.lookup k = some v ∧ (f.keys.filter (· < k)).card = i := by
  rw [hf.card hm.1] at hs hi
  cases m with
  | none => simp at hi
  | some b =>
    rw [contents_some,length_toList] at hs hi
    obtain ⟨k,v,v',hg,hrun,hrd⟩ := Holds.getByIndex hw hs h hm.height_lt_maxDepth hi
    obtain rfl : v' = v := hrd.eq_getD hx
    refine ⟨k,v',?_,(hf k v').mp (mem_of_getElem? hg),?_⟩
    · have hne := Holds.ne_nil h
      cases hr : t.root with
      | nil => exact absurd hr hne
      | mk =>
        rw [hr] at hrun
        simp only [Tree.getByIndex,hr,hrun]
    · rw [hf.card_lt hm.1]
      exact countP_lt_getElem hm.1.sorted (by rw [getElem?_map,contents_some,hg]; rfl)

end

/-- The tree answers every operation as the finite map does. -/
structure Refines (t : Tree D) (f : Finmap fun _ : Bytes => Bytes) : Prop where
  get : ∀ k, t.get k = .ok ((f.keys.filter (· < k)).card,(f.lookup k).getD [],(f.lookup k).isSome)
  has : ∀ k, t.has k = .ok (f.lookup k).isSome
  size : t.size = f.keys.card
  getByIndex : ∀ i : ℕ, i < t.size → ∃ k v, t.getByIndex i = .ok (k,v) ∧ f.lookup k = some v ∧
    (f.keys.filter (· < k)).card = i
  set : ∀ k v, ∃ t', t.set k v = .ok (t',(f.lookup k).isSome)
  remove : ∀ k, ∃ t', t.remove k = .ok (t',(f.lookup k).getD [],(f.lookup k).isSome)

lemma refines_of_rep {w : View D} {t : Tree D} {m : Option Bindings}
    {f : Finmap fun _ : Bytes => Bytes} (hw : w.Serves t) (hx : w.Exact) (h : Rep w t.root m)
    (hm : Fits m) (hf : Models m f) (hs : f.keys.card < 2^31) : Refines t f := by
  have hint : ∀ n : ℕ, n < 2^31 → int32 n = n := fun n hn =>
    Word.wrap_eq_self (by constructor <;> push_cast <;> omega)
  have hsi : t.size = f.keys.card := by rw [t.size_spec h hm hf,hint _ hs]
  refine ⟨?_,fun k => t.has_spec hw h hm hf k,hsi,?_,?_,?_⟩
  · intro k
    obtain ⟨v',hg,hr⟩ := t.get_spec hw h hm hf k
    have hle : (f.keys.filter (· < k)).card < 2^31 := (Finset.card_filter_le _ _).trans_lt hs
    rw [hg,hr.eq_getD hx,hint _ hle]
  · intro i hi
    exact t.getByIndex_spec hw hx h hm hf hs (by rw [hsi] at hi; exact_mod_cast hi)
  · intro k v
    obtain ⟨n,hse,_⟩ := t.set_spec hw h hm k v
    have hfl : (LeafTree.insert k v m).2 = (f.lookup k).isSome := by
      rw [Bool.eq_iff_iff,insert_updated hm.1,hf.lookup_isSome_iff]
    exact ⟨_,hfl ▸ hse⟩
  · intro k
    obtain ⟨n,v',hrm,_,hr⟩ := t.remove_spec hw h hm k
    have hv : (LeafTree.delete k m).map Removed.value = f.lookup k := by
      cases hd : LeafTree.delete k m with
      | none =>
        have hno := (delete_eq_none hm.1 k).mp hd
        cases hl : f.lookup k with
        | none => rfl
        | some v => exact absurd ((hf k v).mpr hl) (hno v)
      | some d => exact ((hf k d.value).mp (delete_value hm.1 hd)).symm
    have hso : (LeafTree.delete k m).isSome = (f.lookup k).isSome := by rw [← hv,Option.isSome_map]
    refine ⟨{t with root := n},?_⟩
    rw [hrm,hr.eq_getD hx,hv,hso]

/-- After any edits of an empty tree that never leave `2^31` keys or more, the
tree is the finite map of the edits. -/
theorem edits_refine [Inhabited D] (ndb : Option (NodeDB D)) (blockHeight : ℤ)
    (config : Option TreeConfig) (es : List Edit) (hl : ∀ pre, pre <+: es → (liveKeys pre).card < 2^31) :
    ∃ t, (Tree.mk .nil ndb blockHeight config).edits es = .ok t ∧ Refines t (finalMap es) := by
  obtain ⟨n,m,hrun,hr,hf,hm⟩ := Tree.edits_spec (memView_serves config _)
    (t:=Tree.mk .nil ndb blockHeight config) rfl es
    fun pre hp => (hl pre hp).trans (two_pow_lt_capacity.trans' (by norm_num))
  exact ⟨_,hrun,refines_of_rep (memView_serves config _) (memView_exact config) hr hf hm
    (hl es (prefix_refl _))⟩

theorem edits_refine_two : ∃ t, (Tree.mk (D:=Bytes) .nil none 0 none).edits [.set [1] [2],.remove [3]] = .ok t ∧
      Refines t (finalMap [.set [1] [2],.remove [3]]) := by
  refine edits_refine none 0 none _ ?_
  intro pre hp
  have hl := hp.length_le
  have hle := card_liveKeys_le pre
  simp only [length_cons,length_nil] at hl
  omega

lemma replicate_lt {i n : ℕ} (h : i < n) : (replicate i 0 : Bytes) < replicate n 0 := by
  induction i generalizing n with
  | zero =>
    obtain ⟨n,rfl⟩ := Nat.exists_eq_succ_of_ne_zero (by omega : n ≠ 0)
    simp [replicate_succ]
  | succ i ih =>
    obtain ⟨n,rfl⟩ := Nat.exists_eq_succ_of_ne_zero (by omega : n ≠ 0)
    simpa [replicate_succ] using ih (by omega : i < n)

/-- With `2^31` keys the index of the next key has wrapped around. -/
theorem edits_distinctSets_index :
    ¬∃ t, (Tree.mk (D:=Bytes) .nil none 0 none).edits (distinctSets (2^31)) = .ok t ∧
      ∀ k, ∃ v e, t.get k =
        .ok ((((finalMap (distinctSets (2^31))).keys.filter (· < k)).card : ℕ),v,e) := by
  generalize hn : 2^31 = n
  rintro ⟨t,hrun,hge⟩
  have hc := two_pow_lt_capacity
  obtain ⟨r,m,hrun',hr,hf,hm⟩ := Tree.edits_spec (memView_serves none _)
    (t:=Tree.mk (D:=Bytes) .nil none 0 none) rfl (distinctSets n) (by
      intro pre hp
      have hl := hp.length_le
      have hle := card_liveKeys_le pre
      simp only [distinctSets,length_map,length_range] at hl
      omega)
  obtain rfl : t = _ := by simpa using hrun.symm.trans hrun'
  obtain ⟨v,e,hg⟩ := hge (replicate n 0)
  obtain ⟨v',hg',_⟩ := Tree.get_spec (memView_serves none _)
    (t:=Tree.mk r none 0 none) hr hf hm (replicate n 0)
  have ha : ((finalMap (distinctSets n)).keys.filter (· < replicate n 0)).card = n := by
    rw [Finset.filter_true_of_mem,← liveKeys,card_liveKeys_distinctSets]
    intro k hk
    rw [← liveKeys,liveKeys_distinctSets,Finset.mem_image] at hk
    obtain ⟨i,hi,rfl⟩ := hk
    exact replicate_lt (Finset.mem_range.mp hi)
  rw [hg,ha] at hg'
  have hint : (n : ℤ) = int32 n := (Prod.mk.inj (Except.ok.inj hg')).1
  rw [← hn] at hint
  revert hint
  decide +kernel

end Dpos.Mavl
