import Mathlib.Tactic
import Mathlib.Data.List.TakeWhile

/-! Parent pointers along which a height falls by one: the way up from a point, chains of
pointers, and the first point of a way that lies in a given set. -/
namespace Dpos

open List

section
variable {ι : Type} (up : ι → Option ι) (height : ι → ℤ)

/-- A point and those above it, as far as the fuel lasts. -/
def climb : ℕ → ι → List ι
  | 0, _ => []
  | fuel+1, i => i :: (up i).elim [] (climb fuel)

def lineage (i : ι) : List ι := climb up (height i+2).toNat i

structure Graded : Prop where
  low : ∀ i, -1 ≤ height i
  falls : ∀ i j, up i = some j → height i = height j+1

abbrev Chained (l : List ι) : Prop := l.IsChain fun i j => up i = some j

variable {up height}

variable {l : List ι}

namespace Graded
variable (g : Graded up height)
include g

lemma lineage_eq (i : ι) : lineage up height i = i :: (up i).elim [] (lineage up height) := by
  have hl := g.low i
  obtain ⟨fuel,hf⟩ : ∃ fuel, (height i+2).toNat = fuel+1 := ⟨(height i+1).toNat,by omega⟩
  rw [lineage,hf,climb]
  cases hu : up i with
  | none => rfl
  | some j =>
    have hj := g.falls i j hu
    have hf' : (height j+2).toNat = fuel := by omega
    simp only [Option.elim_some,lineage,hf']

lemma mem_lineage_self (i : ι) : i ∈ lineage up height i := by
  rw [g.lineage_eq]
  exact mem_cons_self

variable {i : ι} {j : ι}

lemma lineage_of_up (h : up i = some j) : lineage up height i = i :: lineage up height j := by
  rw [g.lineage_eq,h]
  rfl

/-- The way from a point, by the number of steps that are left below it. -/
theorem induction {motive : ι → Prop}
    (step : ∀ i, (∀ j, up i = some j → motive j) → motive i) (i : ι) : motive i := by
  obtain ⟨n,hn⟩ : ∃ n : ℕ, height i = n-1 := ⟨(height i+1).toNat,by have := g.low i; omega⟩
  induction n generalizing i with
  | zero =>
    refine step i fun j hj => ?_
    have := g.falls i j hj
    have := g.low j
    omega
  | succ n ih =>
    refine step i fun j hj => ih j ?_
    have := g.falls i j hj
    push_cast at hn
    omega

lemma chained_lineage (i : ι) : Chained up (lineage up height i) := by
  induction i using g.induction with
  | step i ih =>
    cases hu : up i with
    | none =>
      rw [g.lineage_eq,hu]
      exact isChain_singleton i
    | some j =>
      rw [g.lineage_of_up hu]
      have hj := ih j hu
      rw [g.lineage_eq] at hj ⊢
      exact isChain_cons_cons.mpr ⟨hu,hj⟩

lemma pairwise_of_chained (h : Chained up l) : l.Pairwise fun i j => height j < height i := by
  have hs : l.IsChain fun i j => height j < height i := h.imp fun i j hi => by have := g.falls i j hi; omega
  exact (isChain_iff_pairwise (R := fun i j => height j < height i)).mp hs

lemma prefix_of_chained (h : Chained up (i :: l)) : i :: l <+: lineage up height i := by
  induction l generalizing i with
  | nil =>
    rw [g.lineage_eq]
    exact prefix_cons_iff.mpr (.inr ⟨[],rfl,List.nil_prefix⟩)
  | cons j l ih =>
    obtain ⟨hu,hr⟩ := isChain_cons_cons.mp h
    rw [g.lineage_of_up hu]
    exact (prefix_cons_inj i).mpr (ih hr)

lemma suffix_of_mem (h : j ∈ lineage up height i) : lineage up height j <:+ lineage up height i := by
  induction i using g.induction with
  | step i ih =>
    rw [g.lineage_eq] at h
    rcases mem_cons.mp h with rfl | h
    · exact suffix_refl _
    · cases hu : up i with
      | none => rw [hu] at h; simp at h
      | some k =>
        rw [hu] at h
        rw [g.lineage_of_up hu]
        exact (ih k hu h).trans (suffix_cons i _)

lemma exists_at_height (h : j ∈ lineage up height i) {k : ℤ} (hj : height j ≤ k)
    (hi : k ≤ height i) : ∃ a ∈ lineage up height i, height a = k ∧ j ∈ lineage up height a := by
  induction i using g.induction with
  | step i ih =>
    by_cases hk : height i = k
    · exact ⟨i,g.mem_lineage_self i,hk,h⟩
    · rw [g.lineage_eq] at h
      rcases mem_cons.mp h with rfl | h
      · omega
      · cases hu : up i with
        | none => rw [hu] at h; simp at h
        | some l =>
          rw [hu] at h
          have hl := g.falls i l hu
          obtain ⟨a,ha,hak,haj⟩ := ih l hu h (by omega)
          rw [g.lineage_of_up hu]
          exact ⟨a,mem_cons_of_mem i ha,hak,haj⟩

lemma exists_root (i : ι) : ∃ j ∈ lineage up height i, up j = none := by
  induction i using g.induction with
  | step i ih =>
    cases hu : up i with
    | none => exact ⟨i,g.mem_lineage_self i,hu⟩
    | some j =>
      obtain ⟨k,hk,hn⟩ := ih j hu
      rw [g.lineage_of_up hu]
      exact ⟨k,mem_cons_of_mem i hk,hn⟩

lemma height_le_of_find (h : Chained up l) {p : ι → Bool} {f : ι} (hf : l.find? p = some f)
    (hi : i ∈ l) (hp : p i = true) : height i ≤ height f := by
  obtain ⟨-,fr,b,rfl,hfr⟩ := find?_eq_some_iff_append.mp hf
  have hpa := g.pairwise_of_chained h
  rcases mem_append.mp hi with hi | hi
  · have hn := hfr i hi
    rw [hp] at hn
    cases hn
  · rcases mem_cons.mp hi with rfl | hi
    · exact le_rfl
    · exact ((pairwise_cons.mp (pairwise_append.mp hpa).2.1).1 i hi).le

section
variable [DecidableEq ι] {f : ι}

lemma takeWhile_eq_filter (h : Chained up l) (hf : f ∈ l) :
    l.takeWhile (· ≠ f) = l.filter (height f < height ·) := by
  induction l with
  | nil => simp at hf
  | cons i l ih =>
    have hp := pairwise_cons.mp (g.pairwise_of_chained h)
    by_cases hi : i = f
    · subst hi
      rw [takeWhile_cons_of_neg (by simp),filter_cons_of_neg (by simp)]
      refine (filter_eq_nil_iff.mpr fun j hj => ?_).symm
      simpa using (hp.1 j hj).le
    · have hf' : f ∈ l := (mem_cons.mp hf).resolve_left (Ne.symm hi)
      rw [takeWhile_cons_of_pos (by simpa using hi),
        filter_cons_of_pos (by simpa using hp.1 f hf'),ih h.of_cons hf']

omit g in
lemma takeWhile_append_of_mem (hf : f ∈ l) : ∃ rest, l = l.takeWhile (· ≠ f) ++ f :: rest := by
  obtain ⟨as,rest,rfl,hn⟩ := eq_append_cons_of_mem hf
  refine ⟨rest,?_⟩
  rw [takeWhile_append_of_pos (by grind),takeWhile_cons_of_neg (by simp),append_nil]

/-- Where the chain starts the way, nothing after the chain is above one of its points. -/
theorem takeWhile_lineage (h : Chained up (i :: l)) (hf : f ∈ i :: l) :
    (lineage up height i).takeWhile (· ≠ f) = (i :: l).filter (height f < height ·) := by
  rw [← g.takeWhile_eq_filter h hf]
  obtain ⟨rest,hr⟩ := g.prefix_of_chained h
  rw [← hr,takeWhile_append,if_neg]
  intro hl
  have ha := (List.takeWhile_prefix (· ≠ f)).eq_of_length hl
  rw [← ha] at hf
  simpa using mem_takeWhile_imp hf

end
end Graded
end
end Dpos
