import Mathlib.Tactic

/-! Logs of pushes and pops that name what they put on a stack and take off it. The
top of a stack is its last element. -/
namespace Dpos.StackLog

variable {α : Type} [DecidableEq α]

inductive Entry (α : Type)
  | push (a : α)
  | pop (a : α)
  deriving DecidableEq, Repr

/-- A pop is refused unless it names the top. -/
def act (stack : List α) : Entry α → Option (List α)
  | .push a => some (stack ++ [a])
  | .pop a => if stack.getLast? = some a then some stack.dropLast else none

def replay (stack : List α) (log : List (Entry α)) : Option (List α) := log.foldlM act stack

variable (stack : List α) (a : α) (i : ℤ)

lemma act_pop : act (stack ++ [a]) (.pop a) = some stack := by simp [act]

variable {stack top : List α} {log : List (Entry α)} {e : Entry α}

lemma replay_snoc (h : replay stack log = some top) : replay stack (log ++ [e]) = act top e := by
  unfold replay at h ⊢
  rw [List.foldlM_append,h]
  simp

lemma replay_push (its : List α) : replay stack (its.map Entry.push) = some (stack ++ its) := by
  induction its generalizing stack with
  | nil => simp [replay]
  | cons a its ih =>
    have hs : replay stack ((a :: its).map Entry.push) = replay (stack ++ [a]) (its.map Entry.push) := rfl
    rw [hs,ih]
    simp

lemma length_act (h : act stack e = some top) : top.length ≤ stack.length+1 := by
  cases e with
  | push a =>
    cases h
    simp
  | pop a =>
    simp only [act] at h
    split_ifs at h with ht
    cases h
    simp only [List.length_dropLast]
    omega

lemma length_replay (h : replay stack log = some top) : top.length ≤ stack.length+log.length := by
  induction log generalizing stack with
  | nil =>
    cases h
    simp
  | cons e log ih =>
    have hs : (act stack e).bind (fun next => replay next log) = some top := h
    obtain ⟨next,ha,hr⟩ := Option.bind_eq_some_iff.mp hs
    have hnext := length_act ha
    have ht := ih hr
    simp only [List.length_cons]
    omega

/-- What a table that holds the stack has at the position `i`. -/
def cell (stack : List α) (i : ℤ) : Option α := if 0 ≤ i then stack[i.toNat]? else none

omit [DecidableEq α] in
lemma cell_nil : cell ([] : List α) i = none := by simp [cell]

omit [DecidableEq α] in
lemma cell_length : cell stack stack.length = none := by simp [cell]

omit [DecidableEq α] in
lemma cell_snoc : cell (stack ++ [a]) i = if i = stack.length then some a else cell stack i := by
  unfold cell
  by_cases hi : 0 ≤ i
  · obtain ⟨n,rfl⟩ := Int.eq_ofNat_of_zero_le hi
    simp only [hi,if_true,Int.toNat_natCast,Nat.cast_inj]
    split_ifs with hn
    · simp [hn]
    · rcases lt_or_gt_of_ne hn with hlt | hg
      · rw [List.getElem?_append_left hlt]
      · rw [List.getElem?_eq_none (by simp; omega),List.getElem?_eq_none hg.le]
  · have hne : i ≠ stack.length := by omega
    simp [hi,hne]

end Dpos.StackLog
