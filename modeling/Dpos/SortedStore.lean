import Mathlib.Data.List.Sort
import Mathlib.Data.List.Perm.Basic
import Mathlib.Tactic

/-! Finite tables that can be walked in the order of their keys. -/
namespace Dpos
open List

variable {K V : Type} {k : K} {v : V}

/-- The value that a list of entries has for a key. -/
def valueAt {K V : Type} [DecidableEq K] (es : List (K × V)) (k : K) : Option V :=
  (es.find? fun e => e.1 = k).map Prod.snd

section
variable [DecidableEq K] {es : List (K × V)}
@[simp] lemma valueAt_nil (k : K) : valueAt ([] : List (K × V)) k = none := rfl

lemma valueAt_cons (e : K × V) (es : List (K × V)) (k : K) :
    valueAt (e :: es) k = if e.1 = k then some e.2 else valueAt es k := by
  unfold valueAt
  rw [find?_cons]
  by_cases h : e.1 = k <;> simp [h]

lemma mem_of_valueAt (h : valueAt es k = some v) : (k,v) ∈ es := by
  obtain ⟨e,he,rfl⟩ := Option.map_eq_some_iff.mp h
  obtain rfl : e.1 = k := by simpa using find?_some he
  exact mem_of_find?_eq_some he

lemma valueAt_eq_none : valueAt es k = none ↔ ∀ e ∈ es, e.1 ≠ k := by simp [valueAt]

end

/-- The entries of a table, in strictly ascending order of the keys. -/
structure SortedStore (K V : Type) [LinearOrder K] where
  entries : List (K × V)
  sorted : entries.Pairwise fun a b => a.1 < b.1

namespace SortedStore
variable [LinearOrder K]

def empty : SortedStore K V := ⟨[],List.Pairwise.nil⟩

def get (s : SortedStore K V) (k : K) : Option V := valueAt s.entries k

def set (s : SortedStore K V) (k : K) (v : V) : SortedStore K V where
  entries := s.entries.filter (·.1 < k) ++ (k,v) :: s.entries.filter (k < ·.1)
  sorted := by
    have hbe : ∀ e ∈ s.entries.filter (·.1 < k), e.1 < k := fun e he => by simpa using of_mem_filter he
    have hao : ∀ e ∈ s.entries.filter (k < ·.1), k < e.1 := fun e he => by simpa using of_mem_filter he
    refine pairwise_append.mpr ⟨s.sorted.filter _,pairwise_cons.mpr ⟨hao,s.sorted.filter _⟩,?_⟩
    intro a ha b hb
    rcases mem_cons.mp hb with rfl | hb
    · exact hbe a ha
    · exact (hbe a ha).trans (hao b hb)

def erase (s : SortedStore K V) (k : K) : SortedStore K V := ⟨s.entries.filter (·.1 ≠ k),s.sorted.filter _⟩

def restrict (s : SortedStore K V) (p : K → Bool) : SortedStore K V :=
  ⟨s.entries.filter fun e => p e.1,s.sorted.filter _⟩

variable (s : SortedStore K V) {k' : K} {v' : V}

lemma nodup_keys : (s.entries.map Prod.fst).Nodup := pairwise_map.mpr (s.sorted.imp ne_of_lt)

lemma eq_of_mem (h : (k,v) ∈ s.entries) (h' : (k,v') ∈ s.entries) : v = v' :=
  congrArg Prod.snd (inj_on_of_nodup_map s.nodup_keys h h' rfl)

@[simp] lemma get_eq_some : s.get k = some v ↔ (k,v) ∈ s.entries := by
  refine ⟨mem_of_valueAt,fun h => ?_⟩
  cases hv : s.get k with
  | none => exact absurd rfl (valueAt_eq_none.mp hv _ h)
  | some v' => rw [s.eq_of_mem (mem_of_valueAt hv) h]

@[simp] lemma get_empty (k : K) : (empty : SortedStore K V).get k = none := rfl

@[simp] lemma mem_set {e : K × V} : e ∈ (s.set k v).entries ↔ e = (k,v) ∨ (e ∈ s.entries ∧ e.1 ≠ k) := by
  simp only [set,mem_append,mem_cons,mem_filter,decide_eq_true_eq,ne_iff_lt_or_gt]
  tauto

lemma get_set (k k' : K) (v : V) : (s.set k v).get k' = if k' = k then some v else s.get k' := by
  apply Option.ext
  intro w
  rw [get_eq_some,mem_set]
  by_cases h : k' = k
  · simp [h,eq_comm]
  · simp [h]

lemma get_erase (k k' : K) : (s.erase k).get k' = if k' = k then none else s.get k' := by
  apply Option.ext
  intro w
  by_cases h : k' = k <;> simp [erase,h]

lemma get_restrict (p : K → Bool) (k : K) : (s.restrict p).get k = if p k then s.get k else none := by
  apply Option.ext
  intro w
  by_cases h : p k <;> simp [restrict,h]

lemma ext_get {s t : SortedStore K V} (h : ∀ k, s.get k = t.get k) : s = t := by
  have hm : ∀ e, e ∈ s.entries ↔ e ∈ t.entries := fun e => by rw [← s.get_eq_some,← t.get_eq_some,h]
  have hp : s.entries.Perm t.entries :=
    (perm_ext_iff_of_nodup s.nodup_keys.of_map t.nodup_keys.of_map).mpr hm
  have he : s.entries = t.entries := hp.eq_of_pairwise
    (fun a b _ _ ha hb => absurd (ha.trans hb) (lt_irrefl _)) s.sorted t.sorted
  cases s
  cases t
  obtain rfl : _ = _ := he
  rfl

end SortedStore
end Dpos
