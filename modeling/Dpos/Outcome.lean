import Mathlib.Tactic

/-! Computations that end in a value or stop with an error. -/
namespace Dpos

section
variable {ε α β : Type} {x : Except ε α}

@[simp] lemma ok_bind (x : α) (f : α → Except ε β) : (Except.ok x >>= f) = f x := rfl
@[simp] theorem error_bind (e : ε) (f : α → Except ε β) :
    ((Except.error e : Except ε α) >>= f) = Except.error e := rfl
@[simp] lemma pure_eq_ok (x : α) : (pure x : Except ε α) = Except.ok x := rfl

lemma bind_eq_ok {f : α → Except ε β} {r : β} :
    (x >>= f) = .ok r ↔ ∃ a, x = .ok a ∧ f a = .ok r := by
  cases x with
  | error e => simp
  | ok a => simp

lemma ite_error_eq_ok {p : Prop} [Decidable p] {e : ε} {r : α} :
    (if p then Except.error e else x) = .ok r ↔ ¬p ∧ x = .ok r := by
  split_ifs with h <;> simp [h]

end
end Dpos
