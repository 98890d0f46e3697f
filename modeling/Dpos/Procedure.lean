import Mathlib.Order.Basic
import Mathlib.Tactic

/-! Procedures that change a state and may stop with an error, the changes made so
far staying in place; and a logic for showing that a procedure cannot tell two
related states apart. The relation is indexed by worlds that only grow. -/
namespace Dpos

abbrev Proc (σ ε α : Type) := ExceptT ε (StateM σ) α

section
variable {σ ε α β : Type}

def Proc.exec (m : Proc σ ε α) (s : σ) : Except ε α × σ := m.run.run s

def Proc.reads (g : σ → α) : Proc σ ε α := do return g (← get)

def Proc.failIf (c : Prop) [Decidable c] (e : ε) : Proc σ ε Unit := if c then throw e else pure ()

def Proc.demand (e : ε) : Option α → Proc σ ε α
  | none => throw e
  | some a => pure a

@[simp] lemma Proc.exec_pure (a : α) (s : σ) : Proc.exec (pure a : Proc σ ε α) s = (.ok a,s) := rfl
@[simp] theorem Proc.exec_throw (e : ε) (s : σ) : Proc.exec (throw e : Proc σ ε α) s = (.error e,s) := rfl
@[simp] theorem Proc.exec_reads (g : σ → α) (s : σ) :
    Proc.exec (Proc.reads g : Proc σ ε α) s = (.ok (g s),s) := rfl
@[simp] lemma Proc.exec_modify (g : σ → σ) (s : σ) :
    Proc.exec (modify g : Proc σ ε PUnit) s = (.ok ⟨⟩,g s) := rfl

variable {s' : σ} {m : Proc σ ε α} {f : α → Proc σ ε β} {s : σ} {a : α} {e : ε} {o : Option α} {c : Prop}

lemma Proc.exec_bind_ok (h : m.exec s = (.ok a,s')) : (m >>= f).exec s = (f a).exec s' := by
  change StateT.bind m.run (ExceptT.bindCont f) s = _
  have hm : m.run s = (.ok a,s') := h
  simp only [StateT.bind,hm]
  rfl

lemma Proc.exec_bind_error (h : m.exec s = (.error e,s')) : (m >>= f).exec s = (.error e,s') := by
  change StateT.bind m.run (ExceptT.bindCont f) s = _
  have hm : m.run s = (.error e,s') := h
  simp only [StateT.bind,hm]
  rfl

lemma Proc.exec_bind (m : Proc σ ε α) (f : α → Proc σ ε β) (s : σ) : (m >>= f).exec s = match m.exec s with
      | (.ok a,s') => (f a).exec s'
      | (.error e,s') => (.error e,s') := by
  rcases h : m.exec s with ⟨_ | a,s'⟩
  · exact Proc.exec_bind_error h
  · exact Proc.exec_bind_ok h

lemma Proc.exec_bind_eq_ok {s'' : σ} {b : β} : (m >>= f).exec s = (.ok b,s'') ↔
      ∃ a s', m.exec s = (.ok a,s') ∧ (f a).exec s' = (.ok b,s'') := by
  rw [Proc.exec_bind]
  rcases m.exec s with ⟨_ | a,s'⟩ <;> simp

/-- A value given back at the end does not matter to the state. -/
theorem Proc.exec_bind_pure (m : Proc σ ε α) (b : β) (s : σ) :
    ((m >>= fun _ => pure b : Proc σ ε β).exec s).2 = (m.exec s).2 := by
  rw [Proc.exec_bind]
  rcases m.exec s with ⟨_ | a,s'⟩ <;> rfl

@[simp] lemma Proc.exec_failIf (c : Prop) [Decidable c] (e : ε) (s : σ) :
    Proc.exec (Proc.failIf c e : Proc σ ε Unit) s = (if c then .error e else .ok (),s) := by
  unfold Proc.failIf
  split_ifs <;> rfl

@[simp] lemma Proc.exec_demand_some (e : ε) (a : α) (s : σ) :
    Proc.exec (Proc.demand e (some a) : Proc σ ε α) s = (.ok a,s) := rfl
@[simp] lemma Proc.exec_demand_none (e : ε) (s : σ) :
    Proc.exec (Proc.demand e none : Proc σ ε α) s = (.error e,s) := rfl

lemma Proc.exec_adapt (f : ε → ε) (m : Proc σ ε α) (s : σ) :
    Proc.exec (ExceptT.adapt f m : Proc σ ε α) s = ((m.exec s).1.mapError f,(m.exec s).2) := rfl

/-- Whatever the outcome, this part of the state is left as it was. -/
def Preserves {γ : Type} (g : σ → γ) (m : Proc σ ε α) : Prop := ∀ s, g (m.exec s).2 = g s

variable {γ : Type} {g : σ → γ}

lemma Preserves.pure (a : α) : Preserves g (pure a : Proc σ ε α) := fun _ => rfl
lemma Preserves.throw (e : ε) : Preserves g (throw e : Proc σ ε α) := fun _ => rfl
lemma Preserves.reads (f : σ → α) : Preserves g (Proc.reads f : Proc σ ε α) := fun _ => rfl

lemma Preserves.modify {f : σ → σ} (h : ∀ s, g (f s) = g s) : Preserves g (modify f : Proc σ ε PUnit) := h

lemma Preserves.demand (e : ε) (o : Option α) : Preserves g (Proc.demand e o : Proc σ ε α) := by
  cases o with
  | none => exact .throw e
  | some a => exact .pure a

lemma Preserves.failIf (c : Prop) [Decidable c] (e : ε) : Preserves g (Proc.failIf c e : Proc σ ε Unit) := by
  intro s
  rw [Proc.exec_failIf]

lemma Preserves.bind (hm : Preserves g m) (hf : ∀ a, Preserves g (f a)) : Preserves g (m >>= f) := by
  intro s
  rcases h : m.exec s with ⟨_ | a,s'⟩
  · rw [Proc.exec_bind_error h,← hm s,h]
  · rw [Proc.exec_bind_ok h,hf a s',← hm s,h]

lemma Preserves.eq (hm : Preserves g m) {r : Except ε α} (h : m.exec s = (r,s')) : g s' = g s := by
  rw [← hm s,h]

/-- Started where `P` holds, a procedure that comes to a value leaves `Q` behind. -/
def Leads (P : σ → Prop) (m : Proc σ ε α) (Q : α → σ → Prop) : Prop :=
  ∀ s a s', P s → m.exec s = (.ok a,s') → Q a s'

variable {P I : σ → Prop} {Q : α → σ → Prop} {R : β → σ → Prop} {f : α → Proc σ ε β} {g : σ → α}

lemma Leads.pure (h : ∀ s, P s → Q a s) : Leads P (pure a : Proc σ ε α) Q := by
  intro s b s' hP he
  rw [Proc.exec_pure,Prod.mk.injEq,Except.ok.injEq] at he
  obtain ⟨rfl,rfl⟩ := he
  exact h _ hP

lemma Leads.throw (e : ε) : Leads P (throw e : Proc σ ε α) Q := by
  intro s b s' _ he
  rw [Proc.exec_throw] at he
  cases he

lemma Leads.modify {f : σ → σ} {Q : PUnit → σ → Prop} (h : ∀ s, P s → Q ⟨⟩ (f s)) :
    Leads P (modify f : Proc σ ε PUnit) Q := by
  intro s b s' hP he
  rw [Proc.exec_modify,Prod.mk.injEq] at he
  obtain ⟨-,rfl⟩ := he
  exact h s hP

lemma Leads.bind (hm : Leads P m Q) (hf : ∀ a, Leads (Q a) (f a) R) : Leads P (m >>= f) R := by
  intro s b s'' hP he
  obtain ⟨a,s',ha,hb⟩ := Proc.exec_bind_eq_ok.mp he
  exact hf a s' b s'' (hm s a s' hP ha) hb

lemma Leads.reads (h : ∀ s, P s → Leads (· = s) (f (g s)) R) :
    Leads P (Proc.reads g >>= f) R := by
  intro s b s' hP he
  rw [Proc.exec_bind_ok (Proc.exec_reads g s)] at he
  exact h s hP s b s' rfl he

lemma Leads.demand (h : ∀ a s, o = some a → P s → Q a s) : Leads P (Proc.demand e o : Proc σ ε α) Q := by
  cases o with
  | none => exact .throw e
  | some a => exact .pure fun s hP => h a s rfl hP

lemma Leads.failIf [Decidable c] {Q : Unit → σ → Prop}
    (h : ¬c → ∀ s, P s → Q () s) : Leads P (Proc.failIf c e : Proc σ ε Unit) Q := by
  unfold Proc.failIf
  split_ifs with hc
  · exact .throw e
  · exact .pure (h hc)

lemma Leads.failIf_then [Decidable c] {m : Proc σ ε β}
    (h : ¬c → Leads P m R) : Leads P (Proc.failIf c e >>= fun _ => m) R := by
  unfold Proc.failIf
  split_ifs with hc
  · exact .bind (.throw e) fun _ => (fun _ _ _ hf _ => hf.elim : Leads (fun _ => False) m R)
  · exact .bind (.pure fun _ hP => hP) fun _ => h hc

lemma Leads.guard [Decidable c] {m : Proc σ ε β} (h : Leads P m R) : Leads P (Proc.failIf c e >>= fun _ => m) R :=
  .failIf_then fun _ => h

lemma Leads.demand_then (h : ∀ a, o = some a → Leads P (f a) R) : Leads P (Proc.demand e o >>= f) R := by
  cases o with
  | none => exact .bind (.throw e) fun a => (fun _ _ _ hf _ => hf.elim : Leads (fun _ => False) (f a) R)
  | some a => exact .bind (Q:=fun b s => b = a ∧ P s) (.pure fun _ hP => ⟨rfl,hP⟩) fun b =>
      (fun s r s' hb he => h a rfl s r s' hb.2 (hb.1 ▸ he))

lemma Leads.reads_at {s : σ} (h : Leads (· = s) (f (g s)) R) :
    Leads (· = s) (Proc.reads g >>= f) R := .reads fun _ hs => hs ▸ h

lemma Leads.adapt (f : ε → ε) (h : Leads P m Q) : Leads P (ExceptT.adapt f m) Q := by
  intro s a s' hP he
  rw [Proc.exec_adapt] at he
  refine h s a s' hP ?_
  rcases hm : m.exec s with ⟨_ | b,s1⟩ <;> rw [hm] at he
  · cases (Prod.ext_iff.mp he).1
  · simpa [Prod.ext_iff,Except.mapError] using he

lemma Leads.before (hm : Leads I m Q) (h : ∀ s, P s → I s) : Leads P m Q :=
  fun s a s' hP he => hm s a s' (h s hP) he

lemma Leads.started (hm : Leads I m Q) (h : I s) : Leads (· = s) m Q := hm.before fun _ hs => hs ▸ h

lemma Leads.after {Q' : α → σ → Prop} (hm : Leads P m Q') (h : ∀ a s, Q' a s → Q a s) : Leads P m Q :=
  fun s a s' hP he => h a s' (hm s a s' hP he)

lemma Leads.of_start (h : ∀ s, P s → Leads (· = s) m Q) : Leads P m Q :=
  fun s a s' hP he => h s hP s a s' rfl he

lemma Leads.fact {p : Prop} (h : p → Leads (fun _ => True) m Q) :
    Leads (fun _ => p) m Q := fun s a s' hp he => h hp s a s' trivial he

lemma Leads.trivially (m : Proc σ ε α) : Leads P m fun _ _ => True := fun _ _ _ _ _ => trivial

/-- A procedure started in `s` leaves `Q` behind with a value, and `E` with an error. -/
def Ends (m : Proc σ ε α) (s : σ) (Q : α → σ → Prop) (E : ε → σ → Prop) : Prop :=
  match m.exec s with
  | (.ok a,s') => Q a s'
  | (.error e,s') => E e s'

section
variable {m : Proc σ ε α} {f : α → Proc σ ε β} {s : σ} {E : ε → σ → Prop}

variable {a : α} {Q' : α → σ → Prop} {E' : ε → σ → Prop}

lemma Ends.of_ok (h : m.exec s = (.ok a,s')) (hQ : Q a s') : Ends m s Q E := by
  rw [Ends,h]
  exact hQ

lemma Ends.of_error {e : ε} (h : m.exec s = (.error e,s')) (hE : E e s') : Ends m s Q E := by
  rw [Ends,h]
  exact hE

lemma Ends.of_exec {m' : Proc σ ε α} (h : m.exec s = m'.exec s') (hm : Ends m' s' Q E) : Ends m s Q E := by
  rw [Ends,h]
  exact hm

lemma Ends.bind (hm : Ends m s Q E) (hf : ∀ a s', Q a s' → Ends (f a) s' R E) : Ends (m >>= f) s R E := by
  rw [Ends] at hm
  rcases h : m.exec s with ⟨e | a,s'⟩
  · rw [h] at hm
    exact .of_error (Proc.exec_bind_error h) hm
  · rw [h] at hm
    rw [Ends,Proc.exec_bind_ok h]
    exact hf a s' hm

lemma Ends.mono (hm : Ends m s Q E)
    (hQ : ∀ a s', Q a s' → Q' a s') (hE : ∀ e s', E e s' → E' e s') : Ends m s Q' E' := by
  rw [Ends] at hm ⊢
  rcases h : m.exec s with ⟨e | a,s'⟩
  · rw [h] at hm
    exact hE e s' hm
  · rw [h] at hm
    exact hQ a s' hm

lemma Ends.and (hm : Ends m s Q E) (hm' : Ends m s Q' E') :
    Ends m s (fun a s' => Q a s' ∧ Q' a s') (fun e s' => E e s' ∧ E' e s') := by
  rw [Ends] at hm hm' ⊢
  rcases h : m.exec s with ⟨e | a,s'⟩ <;> rw [h] at hm hm' <;> exact ⟨hm,hm'⟩

lemma Ends.elim {J : σ → Prop} (hm : Ends m s Q E) (hQ : ∀ a s', Q a s' → J s')
    (hE : ∀ e s', E e s' → J s') : J (m.exec s).2 := by
  rw [Ends] at hm
  rcases h : m.exec s with ⟨e | a,s'⟩
  · rw [h] at hm
    exact hE e s' hm
  · rw [h] at hm
    exact hQ a s' hm

lemma Ends.exec_bind_ok (h : m.exec s = (.ok a,s')) (hf : Ends (f a) s' R E) : Ends (m >>= f) s R E := by
  rw [Ends,Proc.exec_bind_ok h]
  exact hf

end
end

section
variable {σ ε α β W : Type} [Preorder W] {R : W → σ → σ → Prop} {w : W}

/-- From related states a procedure comes to one outcome and to related states, in a later world
where a successful outcome satisfies `Q`. -/
def Keeps (R : W → σ → σ → Prop) (w : W) (m : Proc σ ε α) (Q : W → α → Prop) : Prop :=
  ∀ s s', R w s s' → ∃ w', w ≤ w' ∧ R w' (m.exec s).2 (m.exec s').2 ∧
    (m.exec s).1 = (m.exec s').1 ∧ ∀ a, (m.exec s).1 = .ok a → Q w' a

variable {m : Proc σ ε α} {f : α → Proc σ ε β} {P Q : W → α → Prop} {Q' : W → β → Prop} {e : ε}

lemma Keeps.pure {a : α} (h : Q w a) : Keeps R w (pure a : Proc σ ε α) Q := by
  intro s s' hR
  refine ⟨w,le_rfl,hR,rfl,?_⟩
  rintro b hb
  cases hb
  exact h

lemma Keeps.throw (e : ε) : Keeps R w (throw e : Proc σ ε α) Q := by
  intro s s' hR
  refine ⟨w,le_rfl,hR,rfl,?_⟩
  rintro b hb
  cases hb

lemma Keeps.reads {g : σ → α} (h : ∀ s s', R w s s' → g s = g s' ∧ Q w (g s)) :
    Keeps R w (Proc.reads g : Proc σ ε α) Q := by
  intro s s' hR
  refine ⟨w,le_rfl,hR,congrArg Except.ok (h s s' hR).1,?_⟩
  rintro b hb
  cases hb
  exact (h s s' hR).2

lemma Keeps.modify {g : σ → σ} {Q : W → PUnit → Prop}
    (h : ∀ s s', R w s s' → ∃ w', w ≤ w' ∧ R w' (g s) (g s') ∧ Q w' ⟨⟩) :
    Keeps R w (modify g : Proc σ ε PUnit) Q := by
  intro s s' hR
  obtain ⟨w',hw,hR',hQ⟩ := h s s' hR
  exact ⟨w',hw,hR',rfl,fun _ _ => hQ⟩

lemma Keeps.bind (hm : Keeps R w m P)
    (hf : ∀ w' a, w ≤ w' → P w' a → Keeps R w' (f a) Q') : Keeps R w (m >>= f) Q' := by
  intro s s' hR
  obtain ⟨w1,hw1,hR1,he,hP⟩ := hm s s' hR
  rcases hs : m.exec s with ⟨_ | a,s1⟩ <;> rcases hs' : m.exec s' with ⟨_ | a',s1'⟩ <;>
    rw [hs,hs'] at he hR1 <;> simp only [reduceCtorEq,Except.error.injEq,Except.ok.injEq] at he <;>
    subst he
  · rw [Proc.exec_bind_error hs,Proc.exec_bind_error hs']
    exact ⟨w1,hw1,hR1,rfl,by simp⟩
  · rw [Proc.exec_bind_ok hs,Proc.exec_bind_ok hs']
    obtain ⟨w2,hw2,hfa⟩ := hf w1 a hw1 (hP a (by rw [hs])) s1 s1' hR1
    exact ⟨w2,hw1.trans hw2,hfa⟩

lemma Keeps.next (hm : Keeps R w m fun _ _ => True) (hf : ∀ w' a, w ≤ w' → Keeps R w' (f a) Q') :
    Keeps R w (m >>= f) Q' := hm.bind fun w' a hw _ => hf w' a hw

lemma Keeps.failIf {c : Prop} [Decidable c] {Q : W → Unit → Prop} (h : ¬c → Q w ()) :
    Keeps R w (Proc.failIf c e : Proc σ ε Unit) Q := by
  unfold Proc.failIf
  split_ifs with hc
  · exact .throw e
  · exact .pure (h hc)

lemma Keeps.demand {o : Option α} (h : ∀ a, o = some a → Q w a) :
    Keeps R w (Proc.demand e o : Proc σ ε α) Q := by
  cases o with
  | none => exact .throw e
  | some a => exact .pure (h a rfl)

end
end Dpos
