import Dpos.Word
import Mathlib.Algebra.BigOperators.Finprod

/-! Books of account: an integer for each slot, changed by lists of postings, in
exact arithmetic and in words of a fixed width; and the totals over sets of slots. -/
namespace Dpos.Postings

open Function

variable {S : Type} [DecidableEq S]

def post (b : S → ℤ) (ps : List (S × ℤ)) : S → ℤ := ps.foldl (fun b p => update b p.1 (b p.1+p.2)) b

/-- The same in two's-complement words of width `w`. -/
def postWord (w : ℕ) (b : S → ℤ) (ps : List (S × ℤ)) : S → ℤ :=
  ps.foldl (fun b p => update b p.1 (Word.wrap w (b p.1+p.2))) b

def net (T : Set S) [DecidablePred (· ∈ T)] (ps : List (S × ℤ)) : ℤ :=
  (ps.map fun p => if p.1 ∈ T then p.2 else 0).sum

omit [DecidableEq S] in
@[simp] lemma net_nil (T : Set S) [DecidablePred (· ∈ T)] : net T [] = 0 := rfl

omit [DecidableEq S] in
@[simp] lemma net_cons (T : Set S) [DecidablePred (· ∈ T)] (p : S × ℤ) (ps : List (S × ℤ)) :
    net T (p :: ps) = (if p.1 ∈ T then p.2 else 0)+net T ps := by simp [net]

lemma post_apply (b : S → ℤ) (ps : List (S × ℤ)) (s : S) : post b ps s = b s+net {s} ps := by
  induction ps generalizing b with
  | nil => simp [post]
  | cons p ps ih =>
    have hc : post b (p :: ps) = post (update b p.1 (b p.1+p.2)) ps := rfl
    rw [hc,ih,net_cons]
    by_cases hs : s = p.1
    · subst hs
      simp
      ring
    · simp [hs,Ne.symm hs]

variable {b : S → ℤ} {ps : List (S × ℤ)} {w : ℕ} {s : S} {T : Set S}

lemma postWord_apply (hw : 0 < w) (hb : Word.InRange w (b s)) (ps : List (S × ℤ)) :
    postWord w b ps s = Word.wrap w (post b ps s) := by
  rw [post_apply]
  induction ps generalizing b with
  | nil => simp [postWord,Word.wrap_eq_self hb]
  | cons p ps ih =>
    have hc : postWord w b (p :: ps) = postWord w (update b p.1 (Word.wrap w (b p.1+p.2))) ps := rfl
    by_cases hs : s = p.1
    · subst hs
      have hran : Word.InRange w
          (update b p.1 (Word.wrap w (b p.1+p.2)) p.1) := by
        simpa using Word.wrap_inRange hw _
      rw [hc,ih hran]
      simp [Word.wrap_wrap_add,add_assoc]
    · have hran : Word.InRange w (update b p.1 (Word.wrap w (b p.1+p.2)) s) := by simpa [hs] using hb
      rw [hc,ih hran]
      simp [hs,Ne.symm hs]

lemma postWord_eq_post (hw : 0 < w) (hb : Word.InRange w (b s))
    (hs : Word.InRange w (post b ps s)) : postWord w b ps s = post b ps s := by
  rw [postWord_apply hw hb,Word.wrap_eq_self hs]

lemma net_of_not_mem (h : s ∉ ps.map Prod.fst) : net {s} ps = 0 := by
  induction ps with
  | nil => rfl
  | cons p ps ih =>
    rw [List.map_cons,List.mem_cons,not_or] at h
    simp [Ne.symm h.1,ih h.2]

lemma post_of_mem (hn : (ps.map Prod.fst).Nodup) {p : S × ℤ} (hp : p ∈ ps) : post b ps p.1 = b p.1+p.2 := by
  have hnt : net {p.1} ps = p.2 := by
    induction ps with
    | nil => cases hp
    | cons q ps ih =>
      rw [List.map_cons,List.nodup_cons] at hn
      rcases List.mem_cons.mp hp with rfl | hp
      · simp [net_of_not_mem hn.1]
      · have hne : q.1 ≠ p.1 := fun h => hn.1 (h ▸ List.mem_map_of_mem hp)
        simp [hne,ih hn.2 hp]
  rw [post_apply,hnt]

/-- Postings to different slots do not overdraw a slot that covers its own. -/
theorem post_nonneg (hn : (ps.map Prod.fst).Nodup) (hs : 0 ≤ b s)
    (hc : ∀ p ∈ ps, p.1 = s → 0 ≤ b p.1+p.2) : 0 ≤ post b ps s := by
  by_cases hm : s ∈ ps.map Prod.fst
  · obtain ⟨p,hp,rfl⟩ := List.mem_map.mp hm
    rw [post_of_mem hn hp]
    exact hc p hp rfl
  · rw [post_apply,net_of_not_mem hm]
    omega

noncomputable def total (T : Set S) (b : S → ℤ) : ℤ := ∑ᶠ s ∈ T, b s

omit [DecidableEq S] in
lemma total_congr {b' : S → ℤ} (h : ∀ s ∈ T, b s = b' s) : total T b = total T b' := finsum_mem_congr rfl h

omit [DecidableEq S] in
lemma le_total (hf : b.support.Finite) (hp : ∀ s ∈ T, 0 ≤ b s) (hs : s ∈ T) : b s ≤ total T b := by
  have hsb : (T.indicator b).support.Finite := by
    rw [Set.support_indicator]
    exact hf.subset Set.inter_subset_right
  have hl : T.indicator b s ≤ ∑ᶠ t, T.indicator b t := single_le_finsum s hsb (Set.indicator_nonneg hp)
  rwa [Set.indicator_of_mem hs,← finsum_mem_def] at hl

section
variable (hf : b.support.Finite)
include hf

variable (s : S) (x : ℤ) (ps : List (S × ℤ))

lemma support_update_finite : (update b s x).support.Finite := by
  refine (hf.insert s).subset ?_
  intro t ht
  by_cases h : t = s
  · exact .inl h
  · exact .inr (by simpa [h] using ht)

lemma support_post_finite : (post b ps).support.Finite := by
  induction ps generalizing b with
  | nil => exact hf
  | cons p ps ih => exact ih (support_update_finite hf _ _)

lemma support_postWord_finite (w : ℕ) (ps : List (S × ℤ)) : (postWord w b ps).support.Finite := by
  induction ps generalizing b with
  | nil => exact hf
  | cons p ps ih => exact ih (support_update_finite hf _ _)

lemma total_update [DecidablePred (· ∈ T)] :
    total T (update b s (b s+x)) = total T b+if s ∈ T then x else 0 := by
  have hs : update b s (b s+x) = fun t => b t+update (0 : S → ℤ) s x t := by
    funext t
    by_cases h : t = s
    · subst h
      simp
    · simp [h]
  have hsi : (update (0 : S → ℤ) s x).support.Finite := support_update_finite (by simp) s x
  have ho : ∑ᶠ t ∈ T, update (0 : S → ℤ) s x t = if s ∈ T then x else 0 := by
    rw [finsum_mem_def,finsum_eq_single _ s]
    · simp [Set.indicator_apply]
    · intro t ht
      simp [Set.indicator_apply,ht]
  rw [total,hs,finsum_mem_add_distrib' (hf.subset Set.inter_subset_right)
    (hsi.subset Set.inter_subset_right),ho,total]

lemma total_post [DecidablePred (· ∈ T)] : total T (post b ps) = total T b+net T ps := by
  induction ps generalizing b with
  | nil => simp [post]
  | cons p ps ih =>
    have hc : post b (p :: ps) = post (update b p.1 (b p.1+p.2)) ps := rfl
    rw [hc,ih (support_update_finite hf _ _),total_update hf,net_cons,add_assoc]

end

end Dpos.Postings
