import Mathlib.Data.Int.Order.Basic
import Mathlib.Tactic

/-! Two's-complement machine integers of a fixed width, as integers that are
reduced after every operation. A value out of range wraps around, as it does in
the languages whose signed integers are of fixed size. -/
namespace Dpos.Word

/-- The signed value of width `w` that is congruent to `x`. -/
def wrap (w : ℕ) (x : ℤ) : ℤ := x.bmod (2^w)

/-- The integers a signed word of width `w` can hold. -/
def InRange (w : ℕ) (x : ℤ) : Prop := -(2^w : ℤ) ≤ 2*x ∧ 2*x < 2^w

instance inRangeDecidable (w : ℕ) (x : ℤ) : Decidable (InRange w x) := inferInstanceAs (Decidable (_ ∧ _))

lemma wrap_eq_self {w : ℕ} {x : ℤ} (h : InRange w x) : wrap w x = x := by
  apply Int.bmod_eq_of_le_mul_two
  · have hl := h.1
    push_cast
    omega
  · have hu := h.2
    push_cast
    omega

variable (w : ℕ)

@[simp] lemma wrap_zero : wrap w 0 = 0 := by simp [wrap]

lemma wrap_add_wrap (x y : ℤ) : wrap w (wrap w x + wrap w y) = wrap w (x+y) := by
  simp only [wrap,Int.bmod_add_bmod,Int.add_bmod_bmod]

lemma wrap_sub_wrap (x y : ℤ) : wrap w (wrap w x - wrap w y) = wrap w (x-y) := by
  simp only [wrap,Int.bmod_sub_bmod,Int.sub_bmod_bmod]

lemma wrap_wrap_add (x y : ℤ) : wrap w (wrap w x+y) = wrap w (x+y) := by simp only [wrap,Int.bmod_add_bmod]

lemma wrap_wrap_sub (x y : ℤ) : wrap w (wrap w x-y) = wrap w (x-y) := by
  rw [sub_eq_add_neg,wrap_wrap_add,sub_eq_add_neg]

lemma wrap_inRange {w : ℕ} (hw : 0 < w) (x : ℤ) : InRange w (wrap w x) := by
  have hp : 0 < 2^w := Nat.two_pow_pos w
  have he : (2^w : ℕ) % 2 = 0 := by
    obtain ⟨v,rfl⟩ : ∃ v, w = v+1 := ⟨w-1,by omega⟩
    omega
  have hl := Int.le_bmod (x:=x) hp
  have hu := Int.bmod_lt (x:=x) hp
  have hc : ((2^w : ℕ) : ℤ) = 2^w := by push_cast; rfl
  unfold InRange wrap
  omega

end Dpos.Word
