import Mathlib.Data.List.Dedup
import Mathlib.Data.List.Forall2
import Mathlib.Tactic

/-! Digests built by hashing pairs. When the pair hash is free, a digest
determines the sequence of leaves below it, however the pairs were formed. The
order of first occurrences forgets the repetitions that padding brings in. -/
namespace Dpos
open List

section
variable {α : Type} [DecidableEq α]

/-- The entries of a list in the order of their first occurrences. -/
def firsts (l : List α) : List α := l.reverse.dedup.reverse

lemma dedup_append_eq (s t : List α) : (s ++ t).dedup = s.dedup.filter (· ∉ t) ++ t.dedup := by
  induction s with
  | nil => simp
  | cons a s ih =>
    rw [cons_append]
    by_cases hst : a ∈ s ++ t
    · rw [dedup_cons_of_mem hst,ih]
      by_cases hs : a ∈ s
      · rw [dedup_cons_of_mem hs]
      · have ht : a ∈ t := (mem_append.mp hst).resolve_left hs
        simp [dedup_cons_of_notMem hs,ht]
    · rw [dedup_cons_of_notMem hst,ih]
      simp only [mem_append,not_or] at hst
      simp [dedup_cons_of_notMem hst.1,hst.2]

lemma firsts_append (s t : List α) : firsts (s ++ t) = firsts s ++ (firsts t).filter (· ∉ s) := by
  simp [firsts,dedup_append_eq,filter_reverse]

variable {l s t : List α}

@[simp] lemma mem_firsts {a : α} : a ∈ firsts l ↔ a ∈ l := by simp [firsts]
@[simp] theorem firsts_nil : firsts ([] : List α) = [] := rfl

lemma firsts_of_nodup (h : l.Nodup) : firsts l = l := by
  rw [firsts,(nodup_reverse.mpr h).dedup,reverse_reverse]

lemma firsts_append_of_subset (h : t ⊆ s) : firsts (s ++ t) = firsts s := by
  rw [firsts_append,filter_eq_nil_iff.mpr,append_nil]
  intro a ha
  simpa using h (mem_firsts.mp ha)

lemma firsts_append_congr {s' t' : List α} (hs : firsts s = firsts s')
    (ht : firsts t = firsts t') : firsts (s ++ t) = firsts (s' ++ t') := by
  rw [firsts_append,firsts_append,hs,ht]
  congr 1
  apply filter_congr
  intro a _
  have hm : a ∈ s ↔ a ∈ s' := by rw [← mem_firsts,hs,mem_firsts]
  simp [hm]

end

section
variable {D : Type}

/-- A digest over a sequence of leaves. -/
inductive Spans (pair : D → D → D) (IsLeaf : D → Prop) : D → List D → Prop
  | leaf {d : D} (hd : IsLeaf d) : Spans pair IsLeaf d [d]
  | node {a b : D} {s t : List D} (ha : Spans pair IsLeaf a s) (hb : Spans pair IsLeaf b t) :
      Spans pair IsLeaf (pair a b) (s ++ t)

/-- The pair hash has no collisions among digests, neither with itself nor with
leaves. -/
structure FreePair (pair : D → D → D) (IsLeaf IsDigest : D → Prop) : Prop where
  leaf_digest : ∀ d, IsLeaf d → IsDigest d
  pair_digest : ∀ a b, IsDigest (pair a b)
  injective : ∀ a b a' b', IsDigest a → IsDigest b → IsDigest a' → IsDigest b' →
    pair a b = pair a' b' → a = a' ∧ b = b'
  apart : ∀ a b, ¬IsLeaf (pair a b)

variable {p : D → D → D} {IsLeaf IsDigest : D → Prop} {s : List D} {d : D}

lemma Spans.isDigest (hf : FreePair p IsLeaf IsDigest)
    (h : Spans p IsLeaf d s) : IsDigest d := by
  cases h with
  | leaf hd => exact hf.leaf_digest d hd
  | node _ _ => exact hf.pair_digest _ _

lemma Spans.unique (hf : FreePair p IsLeaf IsDigest) {s' : List D}
    (h : Spans p IsLeaf d s) (h' : Spans p IsLeaf d s') : s = s' := by
  induction h generalizing s' with
  | leaf hd =>
    cases h' with
    | leaf _ => rfl
    | node _ _ => exact absurd hd (hf.apart _ _)
  | @node a b s t ha hb iha ihb =>
    generalize he : p a b = e at h'
    cases h' with
    | leaf hd => exact absurd (he ▸ hd) (hf.apart a b)
    | node ha' hb' =>
      obtain ⟨rfl,rfl⟩ := hf.injective _ _ _ _ (ha.isDigest hf) (hb.isDigest hf)
        (ha'.isDigest hf) (hb'.isDigest hf) he
      rw [iha ha',ihb hb']

lemma Spans.of_pair (hf : FreePair p IsLeaf IsDigest) {a b : D} (ha : IsDigest a) (hb : IsDigest b)
    (h : Spans p IsLeaf (p a b) s) : (∃ l ⊆ s, Spans p IsLeaf a l) ∧ ∃ r ⊆ s, Spans p IsLeaf b r := by
  generalize he : p a b = d at h
  cases h with
  | leaf hd => exact absurd (he ▸ hd) (hf.apart a b)
  | node hl hr =>
    obtain ⟨rfl,rfl⟩ := hf.injective _ _ _ _ ha hb (hl.isDigest hf) (hr.isDigest hf) he
    exact ⟨⟨_,subset_append_left ..,hl⟩,_,subset_append_right ..,hr⟩

end
end Dpos
