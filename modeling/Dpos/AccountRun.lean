import Dpos.AccountBook

/-! Runs of the account operations: conservation of what was issued, solvency of the
contracts, and the absence of overflow. An operation that fails changes nothing; one
that panics ends the run. -/
namespace Dpos.AccountDB
open Postings List Function Word

variable {su : Setup} {op : Op}

inductive Op
  | transfer (fromAddr toAddr : Address) (amount : ℤ)
  | mint (addr : Address) (amount : ℤ)
  | burn (addr : Address) (amount : ℤ)
  | genesisInit (addr : Address) (amount : ℤ)
  | genesisInitExec (addr : Address) (amount : ℤ) (execaddr : Address)
  | execIssueCoins (execaddr : Address) (amount : ℤ)
  | transferToExec (fromAddr toAddr : Address) (amount : ℤ)
  | transferWithdraw (fromAddr toAddr : Address) (amount : ℤ)
  | execFrozen (addr execaddr : Address) (amount : ℤ)
  | execActive (addr execaddr : Address) (amount : ℤ)
  | execTransfer (fromAddr toAddr execaddr : Address) (amount : ℤ)
  | execTransferFrozen (fromAddr toAddr execaddr : Address) (amount : ℤ)
  | execDepositFrozen (addr execaddr : Address) (amount : ℤ)

namespace Op

def call (su : Setup) : Op → M Receipt
  | .transfer a b x => AccountDB.transfer su a.text b.text x
  | .mint a x => AccountDB.mint su a.text x
  | .burn a x => AccountDB.burn su a.text x
  | .genesisInit a x => AccountDB.genesisInit su a.text x
  | .genesisInitExec a x e => AccountDB.genesisInitExec su a.text x e.text
  | .execIssueCoins e x => AccountDB.execIssueCoins su e.text x
  | .transferToExec a e x => AccountDB.transferToExec su a.text e.text x
  | .transferWithdraw a e x => AccountDB.transferWithdraw su a.text e.text x
  | .execFrozen a e x => AccountDB.execFrozen su a.text e.text x
  | .execActive a e x => AccountDB.execActive su a.text e.text x
  | .execTransfer a b e x => AccountDB.execTransfer su a.text b.text e.text x
  | .execTransferFrozen a b e x => AccountDB.execTransferFrozen su a.text b.text e.text x
  | .execDepositFrozen a e x => AccountDB.execDepositFrozen su a.text e.text x

def postings : Op → List (Slot × ℤ)
  | .transfer a b x => [(.balance (.main a),-x),(.balance (.main b),x)]
  | .mint a x => [(.balance (.main a),x)]
  | .burn a x => [(.balance (.main a),-x)]
  | .genesisInit a x => [(.balance (.main a),x)]
  | .genesisInitExec a x e => [(.balance (.main e),x),(.balance (.exec e a),x)]
  | .execIssueCoins e x => [(.balance (.main e),x)]
  | .transferToExec a e x => [(.balance (.main a),-x),(.balance (.main e),x),(.balance (.exec e a),x)]
  | .transferWithdraw a e x => [(.balance (.exec e a),-x),(.balance (.main e),-x),(.balance (.main a),x)]
  | .execFrozen a e x => [(.balance (.exec e a),-x),(.frozen (.exec e a),x)]
  | .execActive a e x => [(.balance (.exec e a),x),(.frozen (.exec e a),-x)]
  | .execTransfer a b e x => [(.balance (.exec e a),-x),(.balance (.exec e b),x)]
  | .execTransferFrozen a b e x => [(.frozen (.exec e a),-x),(.balance (.exec e b),x)]
  | .execDepositFrozen a e x => [(.balance (.main e),x),(.frozen (.exec e a),x)]

/-- The checks an operation makes, on the book it meets. -/
def Passes (su : Setup) (b : Slot → ℤ) : Op → Prop
  | .transfer a c x => checkAmount x = true ∧ a ≠ c ∧ Covered b (.balance (.main a)) x
  | .mint a x => checkAmount x = true ∧ (safeAdd (b (.balance (.main a))) x).isSome = true
  | .burn a x => checkAmount x = true ∧ x ≤ b (.balance (.main a))
  | .genesisInit a x => (safeAdd (b (.balance (.main a))) x).isSome = true
  | .genesisInitExec a x e => (safeAdd (b (.balance (.main e))) x).isSome = true ∧ a ≠ e ∧ checkAmount x = true
  | .execIssueCoins e x => allowDeposit su e.text = true ∧ checkAmount x = true
  | .transferToExec a e x => checkAmount x = true ∧ a ≠ e ∧ Covered b (.balance (.main a)) x
  | .transferWithdraw a e x => checkAmount x = true ∧ Covered b (.balance (.main e)) x ∧ a ≠ e ∧
      Covered b (.balance (.exec e a)) x
  | .execFrozen a e x => a ≠ e ∧ checkAmount x = true ∧ Covered b (.balance (.exec e a)) x
  | .execActive a e x => a ≠ e ∧ checkAmount x = true ∧ Covered b (.frozen (.exec e a)) x
  | .execTransfer a c e x => a ≠ c ∧ checkAmount x = true ∧ Covered b (.balance (.exec e a)) x
  | .execTransferFrozen a c e x => a ≠ c ∧ checkAmount x = true ∧ Covered b (.frozen (.exec e a)) x
  | .execDepositFrozen a e x => a ≠ e ∧ allowDeposit su e.text = true ∧ checkAmount x = true

instance coveredDecidable (b : Slot → ℤ) (s : Slot) (x : ℤ) : Decidable (Covered b s x) :=
  inferInstanceAs (Decidable (0 ≤ _))

instance passesDecidable (su : Setup) (b : Slot → ℤ) : (op : Op) → Decidable (op.Passes su b)
  | .transfer _ _ _ => inferInstanceAs (Decidable (_ ∧ _))
  | .mint _ _ => inferInstanceAs (Decidable (_ ∧ _))
  | .burn _ _ => inferInstanceAs (Decidable (_ ∧ _))
  | .genesisInit _ _ => inferInstanceAs (Decidable (_ = true))
  | .genesisInitExec _ _ _ => inferInstanceAs (Decidable (_ ∧ _))
  | .execIssueCoins _ _ => inferInstanceAs (Decidable (_ ∧ _))
  | .transferToExec _ _ _ => inferInstanceAs (Decidable (_ ∧ _))
  | .transferWithdraw _ _ _ => inferInstanceAs (Decidable (_ ∧ _))
  | .execFrozen _ _ _ => inferInstanceAs (Decidable (_ ∧ _))
  | .execActive _ _ _ => inferInstanceAs (Decidable (_ ∧ _))
  | .execTransfer _ _ _ _ => inferInstanceAs (Decidable (_ ∧ _))
  | .execTransferFrozen _ _ _ _ => inferInstanceAs (Decidable (_ ∧ _))
  | .execDepositFrozen _ _ _ => inferInstanceAs (Decidable (_ ∧ _))

/-- Every operation posts its list if its checks pass, and fails otherwise. -/
theorem posts {su : Setup} {db : KVDB} (hdb : Labelled su db) (op : Op) :
    Posts su db (op.call su) (op.Passes su (book su db)) op.postings := by
  cases op with
  | transfer a b x => exact transfer_posts hdb a b x
  | mint a x => exact mint_posts hdb a x
  | burn a x => exact burn_posts hdb a x
  | genesisInit a x => exact genesisInit_posts hdb a x
  | genesisInitExec a x e => exact genesisInitExec_posts hdb a x e
  | execIssueCoins e x => exact execIssueCoins_posts hdb e x
  | transferToExec a e x => exact transferToExec_posts hdb a e x
  | transferWithdraw a e x => exact transferWithdraw_posts hdb a e x
  | execFrozen a e x => exact execFrozen_posts hdb a e x
  | execActive a e x => exact execActive_posts hdb a e x
  | execTransfer a b e x => exact execTransfer_posts hdb a b e x
  | execTransferFrozen a b e x => exact execTransferFrozen_posts hdb a b e x
  | execDepositFrozen a e x => exact execDepositFrozen_posts hdb a e x

def issued : Op → ℤ
  | .mint _ x => x
  | .genesisInit _ x => x
  | .genesisInitExec _ x _ => x
  | .execIssueCoins _ x => x
  | .execDepositFrozen _ _ x => x
  | _ => 0

def burned : Op → ℤ
  | .burn _ x => x
  | _ => 0

def paidIn (e : Address) : Op → ℤ
  | .genesisInitExec _ x e' => if e' = e then x else 0
  | .transferToExec _ e' x => if e' = e then x else 0
  | .transferWithdraw _ e' x => if e' = e then -x else 0
  | .execDepositFrozen _ e' x => if e' = e then x else 0
  | _ => 0

/-- `GenesisInit` checks the sum but not the sign of the amount. -/
def GenesisNonneg : Op → Prop
  | .genesisInit _ x => 0 ≤ x
  | _ => True

end Op

/-- The database, with what was issued, burned and paid into each contract so far. -/
structure Ledger where
  db : KVDB
  issued : ℤ
  burned : ℤ
  held : Address → ℤ

def Ledger.start : Ledger := ⟨fun _ => none,0,0,fun _ => 0⟩

def step (su : Setup) (s : Ledger) (op : Op) : Option Ledger :=
  match (op.call su).exec s.db with
  | (.ok _,db) => some ⟨db,s.issued+op.issued,s.burned+op.burned,fun e => s.held e+op.paidIn e⟩
  | (.error err,db) => if err.isPanic then none else some {s with db := db}

def run (su : Setup) (s : Ledger) (ops : List Op) : Option Ledger := ops.foldlM (step su) s

/-- What the operations are about: the slots, and the same three sums. -/
structure Books where
  slots : Slot → ℤ
  issued : ℤ
  burned : ℤ
  held : Address → ℤ

def Ledger.books (su : Setup) (s : Ledger) : Books := ⟨book su s.db,s.issued,s.burned,s.held⟩

def Books.start : Books := ⟨fun _ => 0,0,0,fun _ => 0⟩

def Books.step (su : Setup) (b : Books) (op : Op) : Books :=
  if op.Passes su b.slots then
    ⟨postWord 64 b.slots op.postings,b.issued+op.issued,b.burned+op.burned,fun e => b.held e+op.paidIn e⟩
  else b

variable {b : Books} {s : Ledger} {amount : ℤ}

lemma Books.step_of_passes (h : op.Passes su b.slots) :
    b.step su op = ⟨postWord 64 b.slots op.postings,b.issued+op.issued,b.burned+op.burned,
      fun e => b.held e+op.paidIn e⟩ := if_pos h

lemma Books.step_of_not_passes (h : ¬op.Passes su b.slots) : b.step su op = b := if_neg h

lemma labelled_start (su : Setup) : Labelled su Ledger.start.db := fun _ => rfl

lemma books_start (su : Setup) : Ledger.start.books su = .start := by
  simp only [Ledger.books,Ledger.start,Books.start,Books.mk.injEq,and_true]
  funext s
  cases s <;> rfl

lemma step_of_passes (hl : Labelled su s.db) (hp : op.Passes su (s.books su).slots) :
    ∃ s', step su s op = some s' ∧ Labelled su s'.db ∧ s'.books su = (s.books su).step su op := by
  obtain ⟨r,db',he,hl',hb⟩ := (op.posts hl).ok hp
  refine ⟨_,by rw [step,he],hl',?_⟩
  rw [Books.step_of_passes hp,Ledger.books,hb]
  rfl

lemma step_books {s' : Ledger} (hl : Labelled su s.db)
    (h : step su s op = some s') : Labelled su s'.db ∧ s'.books su = (s.books su).step su op := by
  by_cases hp : op.Passes su (s.books su).slots
  · obtain ⟨s1,hs,hr⟩ := step_of_passes hl hp
    obtain rfl : s1 = s' := Option.some.inj (hs.symm.trans h)
    exact hr
  · rw [Books.step_of_not_passes hp]
    obtain ⟨e,db',he,hr⟩ := (op.posts hl).fails hp
    simp only [step,he] at h
    rcases hr with hpn | rfl
    · simp [hpn] at h
    · split_ifs at h
      cases h
      exact ⟨hl,rfl⟩

lemma run_append (su : Setup) (s : Ledger) (ops ops' : List Op) :
    run su s (ops ++ ops') = run su s ops >>= fun s' => run su s' ops' :=
  foldlM_append

variable {ops : List Op} {s : Slot}

lemma run_books {su : Setup} {s s' : Ledger} (hl : Labelled su s.db) (h : run su s ops = some s') :
    Labelled su s'.db ∧ s'.books su = ops.foldl (Books.step su) (s.books su) := by
  induction ops generalizing s with
  | nil =>
    cases h
    exact ⟨hl,rfl⟩
  | cons op ops ih =>
    obtain ⟨s1,hs,hrun⟩ := Option.bind_eq_some_iff.mp h
    obtain ⟨hl1,hb⟩ := step_books hl hs
    rw [foldl_cons,← hb]
    exact ih hl1 hrun

def Books.PassAll (su : Setup) : Books → List Op → Prop
  | _,[] => True
  | b,op :: ops => op.Passes su b.slots ∧ (b.step su op).PassAll su ops

instance passAllDecidable (su : Setup) : (b : Books) → (ops : List Op) → Decidable (b.PassAll su ops)
  | _,[] => .isTrue trivial
  | b,_ :: ops => @instDecidableAnd _ _ _ (passAllDecidable su (b.step su _) ops)

lemma run_of_passAll {su : Setup} {s : Ledger} (hl : Labelled su s.db) (h : (s.books su).PassAll su ops) :
    ∃ s', run su s ops = some s' ∧ s'.books su = ops.foldl (Books.step su) (s.books su) := by
  induction ops generalizing s with
  | nil => exact ⟨s,rfl,rfl⟩
  | cons op ops ih =>
    obtain ⟨s1,hse,hl1,hb⟩ := step_of_passes hl h.1
    obtain ⟨s',hrun,hs'⟩ := ih hl1 (hb ▸ h.2)
    refine ⟨s',?_,by rw [hs',hb,foldl_cons]⟩
    rw [run,foldlM_cons,hse]
    exact hrun

def Slot.isMain : Slot → Bool
  | .balance (.main _) => true
  | _ => false

def Slot.isExec (e : Address) : Slot → Bool
  | .balance (.exec e' _) => e' = e
  | .frozen (.exec e' _) => e' = e
  | _ => false

def mainSlots : Set Slot := {s | s.isMain = true}

def execSlots (e : Address) : Set Slot := {s | s.isExec e = true}

instance mainSlotsDecidable : DecidablePred (· ∈ mainSlots) :=
  fun s => inferInstanceAs (Decidable (s.isMain = true))

instance execSlotsDecidable (e : Address) : DecidablePred (· ∈ execSlots e) :=
  fun s => inferInstanceAs (Decidable (s.isExec e = true))

@[simp] lemma mem_mainSlots : s ∈ mainSlots ↔ s.isMain = true := Iff.rfl

@[simp] lemma mem_execSlots {e : Address} : s ∈ execSlots e ↔ s.isExec e = true := Iff.rfl

/-- The main accounts and those inside the contracts of a set. -/
def tracked (K : Set Address) : Set Slot :=
  {s | s ∈ mainSlots ∨ (∃ a, s = .frozen (.main a)) ∨ ∃ e ∈ K, s ∈ execSlots e}

lemma Op.net_main (op : Op) : net mainSlots op.postings = op.issued-op.burned := by
  cases op <;> simp [Op.postings,Op.issued,Op.burned,Slot.isMain]

lemma Op.net_exec (op : Op) (e : Address) : net (execSlots e) op.postings = op.paidIn e := by
  cases op <;> simp [Op.postings,Op.paidIn,Slot.isExec]
  -- what moves within a contract cancels
  all_goals split_ifs <;> simp

def maxInt64 : ℤ := 2^63-1

lemma inRange_of_nonneg {v : ℤ} (h : 0 ≤ v) (hm : v ≤ maxInt64) : Word.InRange 64 v := by
  unfold maxInt64 at hm
  exact ⟨by omega,by omega⟩

lemma checkAmount_iff : checkAmount amount = true ↔ 0 < amount ∧ amount < maxCoin := by simp [checkAmount]

lemma Covered.le {b : Slot → ℤ} (h : Covered b s amount)
    (ha : checkAmount amount = true) (hb : 0 ≤ b s) (hm : b s ≤ maxInt64) : amount ≤ b s := by
  obtain ⟨hp,hlt⟩ := checkAmount_iff.mp ha
  have hran : Word.InRange 64 (b s-amount) := by
    unfold maxInt64 at hm
    unfold maxCoin at hlt
    exact ⟨by omega,by omega⟩
  have hs : 0 ≤ wrap 64 (b s-amount) := h
  rw [wrap_eq_self hran] at hs
  omega

/-- On the tracked slots nothing is negative, and the totals fit. -/
structure Sound (K : Set Address) (b : Slot → ℤ) : Prop where
  finite : b.support.Finite
  nonneg : ∀ s ∈ tracked K, 0 ≤ b s
  frozenMain : ∀ a, b (.frozen (.main a)) = 0
  mainFits : total mainSlots b ≤ maxInt64
  execFits : ∀ e ∈ K, total (execSlots e) b ≤ maxInt64

section
variable {K : Set Address} {b : Slot → ℤ}

lemma main_mem_tracked (h : s ∈ mainSlots) : s ∈ tracked K := .inl h

lemma exec_mem_tracked {e : Address} (he : e ∈ K) (h : s ∈ execSlots e) : s ∈ tracked K := .inr (.inr ⟨e,he,h⟩)

lemma le_maxInt64 (hf : b.support.Finite) (hp : ∀ s ∈ tracked K, 0 ≤ b s)
    (hfr : ∀ a, b (.frozen (.main a)) = 0) (hm : total mainSlots b ≤ maxInt64)
    (hex : ∀ e ∈ K, total (execSlots e) b ≤ maxInt64) (hs : s ∈ tracked K) : b s ≤ maxInt64 := by
  rcases hs with hs | ⟨a,rfl⟩ | ⟨e,he,hs⟩
  · exact (le_total hf (fun t ht => hp t (main_mem_tracked ht)) hs).trans hm
  · rw [hfr a]
    decide
  · exact (le_total hf (fun t ht => hp t (exec_mem_tracked he ht)) hs).trans (hex e he)

lemma Sound.le_max (hb : Sound K b) (hs : s ∈ tracked K) : b s ≤ maxInt64 :=
  le_maxInt64 hb.finite hb.nonneg hb.frozenMain hb.mainFits hb.execFits hs

lemma Sound.inRange (hb : Sound K b) (hs : s ∈ tracked K) : Word.InRange 64 (b s) :=
  inRange_of_nonneg (hb.nonneg s hs) (hb.le_max hs)

lemma Op.Passes.nodup (h : op.Passes su b) : (op.postings.map Prod.fst).Nodup := by
  cases op <;> simp_all [Op.Passes,Op.postings]
  exact fun he => h.2.2.1 he.symm

lemma Op.Passes.issued_nonneg (h : op.Passes su b) (hg : op.GenesisNonneg) : 0 ≤ op.issued := by
  cases op <;> simp_all [Op.Passes,Op.issued,Op.GenesisNonneg,checkAmount_iff] <;> omega

lemma Op.Passes.burned_nonneg (h : op.Passes su b) : 0 ≤ op.burned := by
  cases op <;> simp_all [Op.Passes,Op.burned,checkAmount_iff]
  omega

lemma Op.Passes.posting_cases (h : op.Passes su b) (hg : op.GenesisNonneg) {p : Slot × ℤ}
    (hp : p ∈ op.postings) :
    0 ≤ p.2 ∨ ∃ x, p.2 = -x ∧ checkAmount x = true ∧ (Covered b p.1 x ∨ x ≤ b p.1) := by
  have hpo : ∀ x, checkAmount x = true → 0 ≤ x := fun x hx => (checkAmount_iff.mp hx).1.le
  cases op <;> simp only [Op.postings,mem_cons,not_mem_nil,or_false] at hp <;>
    simp only [Op.Passes,Op.GenesisNonneg] at h hg <;> grind

lemma Sound.post_nonneg (hb : Sound K b) (h : op.Passes su b) (hg : op.GenesisNonneg)
    (hs : s ∈ tracked K) : 0 ≤ post b op.postings s := by
  refine Postings.post_nonneg h.nodup (hb.nonneg s hs) ?_
  rintro p hp rfl
  have hpo := hb.nonneg p.1 hs
  rcases h.posting_cases hg hp with hcr | ⟨x,hx,ha,hco⟩
  · omega
  · have hl : x ≤ b p.1 := hco.elim (fun hc => hc.le ha hpo (hb.le_max hs)) id
    omega

/-- An operation whose totals fit makes its postings without overflow, and the book
stays sound. -/
theorem Sound.step (hb : Sound K b) (h : op.Passes su b) (hg : op.GenesisNonneg)
    (hm : total mainSlots b+net mainSlots op.postings ≤ maxInt64)
    (hex : ∀ e ∈ K, total (execSlots e) b+net (execSlots e) op.postings ≤ maxInt64) :
    Sound K (postWord 64 b op.postings) ∧
      ∀ s ∈ tracked K, postWord 64 b op.postings s = post b op.postings s := by
  have hf : (post b op.postings).support.Finite := support_post_finite hb.finite op.postings
  have hp : ∀ s ∈ tracked K, 0 ≤ post b op.postings s := fun s hs => hb.post_nonneg h hg hs
  have hfr : ∀ a, post b op.postings (.frozen (.main a)) = 0 := by
    intro a
    rw [post_apply,hb.frozenMain a]
    cases op <;> simp [Op.postings]
  have hm' : total mainSlots (post b op.postings) ≤ maxInt64 := by rwa [total_post hb.finite]
  have hex' : ∀ e ∈ K, total (execSlots e) (post b op.postings) ≤ maxInt64 := by
    intro e he
    rw [total_post hb.finite]
    exact hex e he
  have heq : ∀ s ∈ tracked K, postWord 64 b op.postings s = post b op.postings s := by
    intro s hs
    refine postWord_eq_post (by decide) (hb.inRange hs) (inRange_of_nonneg (hp s hs) ?_)
    exact le_maxInt64 hf hp hfr hm' hex' hs
  refine ⟨⟨support_postWord_finite hb.finite 64 _,fun s hs => ?_,fun a => ?_,?_,fun e he => ?_⟩,heq⟩
  · rw [heq s hs]
    exact hp s hs
  · rw [heq _ (.inr (.inl ⟨a,rfl⟩)),hfr a]
  · rwa [total_congr fun s hs => heq s (main_mem_tracked hs)]
  · rw [total_congr fun s hs => heq s (exec_mem_tracked he hs)]
    exact hex' e he

end

lemma total_start (T : Set Slot) : total T Books.start.slots = 0 := finsum_mem_zero T

lemma sound_start (K : Set Address) : Sound K Books.start.slots := by
  refine ⟨by simp [Books.start],fun _ _ => le_rfl,fun _ => rfl,?_,fun e _ => ?_⟩
  · rw [total_start]
    decide
  · rw [total_start]
    decide

/-! ### Conservation -/

/-- The main accounts hold what was issued and not burned, the accounts inside a
contract what was paid in and not withdrawn. -/
structure Conserved (b : Books) : Prop where
  sound : Sound Set.univ b.slots
  main : total mainSlots b.slots = b.issued-b.burned
  exec : ∀ e, total (execSlots e) b.slots = b.held e
  burned : 0 ≤ b.burned

lemma conserved_start : Conserved .start :=
  ⟨sound_start _,total_start _,fun _ => total_start _,le_rfl⟩

variable {b : Books} {s : Ledger} {C : Set Address}

lemma Conserved.step (hb : Conserved b) (hg : op.GenesisNonneg)
    (hi : (b.step su op).issued ≤ maxInt64) (hh : ∀ e, (b.step su op).held e ≤ maxInt64) :
    Conserved (b.step su op) := by
  by_cases hp : op.Passes su b.slots
  · rw [Books.step_of_passes hp] at hi hh ⊢
    dsimp only at hi hh
    have hbu := hb.burned
    have ho := hp.burned_nonneg
    obtain ⟨hso,he⟩ := hb.sound.step hp hg (by rw [hb.main,op.net_main]; omega)
      (fun e _ => by rw [hb.exec e,op.net_exec]; exact hh e)
    refine ⟨hso,?_,fun e => ?_,by dsimp only; omega⟩
    · rw [total_congr fun s hs => he s (main_mem_tracked hs),total_post hb.sound.finite,hb.main,op.net_main]
      ring
    · rw [total_congr fun s hs => he s (exec_mem_tracked (Set.mem_univ e) hs),
        total_post hb.sound.finite,hb.exec e,op.net_exec]
  · rwa [Books.step_of_not_passes hp]

lemma Books.issued_le_step (b : Books) (hg : op.GenesisNonneg) : b.issued ≤ (b.step su op).issued := by
  by_cases hp : op.Passes su b.slots
  · rw [Books.step_of_passes hp]
    have := hp.issued_nonneg hg
    dsimp only
    omega
  · rw [Books.step_of_not_passes hp]

lemma run_snoc {s' : Ledger} (h : run su s (ops ++ [op]) = some s') :
    ∃ s1, run su s ops = some s1 ∧ step su s1 op = some s' := by
  rw [run_append] at h
  obtain ⟨s1,hs1,ho⟩ := Option.bind_eq_some_iff.mp h
  exact ⟨s1,hs1,by simpa [run] using ho⟩

lemma run_conserved (hg : ∀ op ∈ ops, op.GenesisNonneg)
    (hh : ∀ pre s, pre <+: ops → run su .start pre = some s → ∀ e, s.held e ≤ maxInt64)
    (hrun : run su .start ops = some s) (hi : s.issued ≤ maxInt64) : Conserved (s.books su) := by
  induction ops using reverseRecOn generalizing s with
  | nil =>
    cases hrun
    rw [books_start]
    exact conserved_start
  | append_singleton ops op ih =>
    obtain ⟨s1,hrun1,hs⟩ := run_snoc hrun
    obtain ⟨-,hb⟩ := step_books (run_books (labelled_start su) hrun1).1 hs
    have hop : op.GenesisNonneg := hg op (by simp)
    have hi' : ((s1.books su).step su op).issued ≤ maxInt64 := by rwa [← hb]
    have hp : Conserved (s1.books su) := by
      refine ih (fun o ho => hg o (by simp [ho])) ?_ hrun1
        (((s1.books su).issued_le_step hop).trans hi')
      exact fun pre s' hpr => hh pre s' (hpr.trans (prefix_append _ _))
    rw [hb]
    refine hp.step hop hi' fun e => ?_
    rw [← hb]
    exact hh _ s (prefix_refl _) hrun e

lemma mem_tracked_univ (s : Slot) : s ∈ tracked Set.univ := by
  rcases s with (a | ⟨e,a⟩) | (a | ⟨e,a⟩)
  · exact .inl rfl
  · exact .inr (.inr ⟨e,Set.mem_univ e,by simp [Slot.isExec]⟩)
  · exact .inr (.inl ⟨a,rfl⟩)
  · exact .inr (.inr ⟨e,Set.mem_univ e,by simp [Slot.isExec]⟩)

/-- If no genesis amount is negative, and neither what is issued nor what is paid into
a contract exceeds an int64, the main accounts hold exactly what was issued and not
burned, and no balance and no frozen amount is negative. -/
theorem run_conserves {su : Setup} {ops : List Op} (hg : ∀ op ∈ ops, op.GenesisNonneg)
    (hh : ∀ pre s, pre <+: ops → run su .start pre = some s → ∀ e, s.held e ≤ maxInt64)
    {s : Ledger} (hrun : run su .start ops = some s) (hi : s.issued ≤ maxInt64) :
    (book su s.db).support.Finite ∧ total mainSlots (book su s.db) = s.issued-s.burned ∧
      ∀ slot, 0 ≤ book su s.db slot := by
  have hs := run_conserved hg hh hrun hi
  exact ⟨hs.sound.finite,hs.main,fun slot => hs.sound.nonneg slot (mem_tracked_univ slot)⟩

/-! Two addresses, a contract that may issue coins, and the largest amount the checks
let through. -/

def user : Address := ⟨Bytes.ofString "U",by decide,by decide⟩

def contract : Address := ⟨Bytes.ofString "M",by decide,by decide⟩

def sampleSetup : Setup := ⟨Bytes.ofString "mavl-coins-dpos-",[contract.text],id,id,[]⟩

lemma Books.step_other {sl : Slot} (h : ∀ p ∈ op.postings, p.1 ≠ sl) : (b.step su op).slots sl = b.slots sl := by
  unfold step
  split_ifs
  · exact foldlRecOn op.postings _ (motive := fun b' : Slot → ℤ => b' sl = b.slots sl) rfl
      fun _ hb p hm => (update_of_ne (h p hm).symm ..).trans hb
  · rfl

/-- A run leaves every amount that none of its operations posts to. -/
theorem run_isolated {s' : Ledger} {sl : Slot} (hl : Labelled su s.db) (h : run su s ops = some s')
    (hs : ∀ op ∈ ops, ∀ p ∈ op.postings, p.1 ≠ sl) : book su s'.db sl = book su s.db sl := by
  rw [show book su s'.db = _ from congrArg Books.slots (run_books hl h).2]
  exact foldlRecOn ops _ (motive := fun b : Books => b.slots sl = book su s.db sl) rfl fun _ hb op ho =>
    (Books.step_other (hs op ho)).trans hb

def minted : Ledger := (run sampleSetup .start [.mint user 10]).getD .start

def spends : List Op := [.mint contract 5,.transferToExec contract contract 3,.burn contract 2]

/-- The balance of the user stays while the contract is given coins and spends them. -/
theorem run_isolated_spends : ∃ s, run sampleSetup .start [.mint user 10] = some minted ∧
    run sampleSetup minted spends = some s ∧
    book sampleSetup minted.db (.balance (.main user)) = 10 ∧ book sampleSetup s.db (.balance (.main user)) = 10 := by
  have hm : run sampleSetup .start [.mint user 10] = some minted := rfl
  obtain ⟨s,hs⟩ : ∃ s, run sampleSetup minted spends = some s := ⟨_,rfl⟩
  have hb : book sampleSetup minted.db (.balance (.main user)) = 10 := by decide +kernel
  exact ⟨s,hm,hs,hb,(run_isolated (run_books (labelled_start _) hm).1 hs (by decide)).trans hb⟩

def most : ℤ := maxCoin-1

/-- The user pays into the contract and gets the coins back from its main account,
but keeps the balance inside. -/
def cycle : List Op := [.transferToExec user contract most,.transfer contract user most]

lemma passAll_append {ops' : List Op} : b.PassAll su (ops ++ ops') ↔
      b.PassAll su ops ∧ (ops.foldl (Books.step su) b).PassAll su ops' := by
  induction ops generalizing b with
  | nil => simp [Books.PassAll]
  | cons op ops ih => simp [Books.PassAll,ih,and_assoc]

structure CycleAt (k : ℤ) (b : Books) : Prop where
  outside : b.slots (.balance (.main user)) = most
  reserve : b.slots (.balance (.main contract)) = 0
  inside : b.slots (.balance (.exec contract user)) = wrap 64 k
  issued : b.issued = most

lemma CycleAt.next {k : ℤ} (h : CycleAt k b) :
    b.PassAll sampleSetup cycle ∧ CycleAt (k+most) (cycle.foldl (Books.step sampleSetup) b) := by
  obtain ⟨ho,hr,hin,hi⟩ := h
  have hne : user ≠ contract := by decide
  have hm : wrap 64 most = most := by decide
  have hp1 : (Op.transferToExec user contract most).Passes sampleSetup b.slots := by
    refine ⟨by decide,hne,?_⟩
    rw [Covered,ho]
    decide
  have hs : (b.step sampleSetup (.transferToExec user contract most)).slots =
      postWord 64 b.slots (Op.postings (.transferToExec user contract most)) := by
    rw [Books.step_of_passes hp1]
  have hp2 : (Op.transfer contract user most).Passes sampleSetup
      (b.step sampleSetup (.transferToExec user contract most)).slots := by
    refine ⟨by decide,hne.symm,?_⟩
    rw [Covered,hs]
    simp only [postWord,Op.postings,foldl_cons,foldl_nil]
    simp [hne.symm,hr]
    decide
  refine ⟨⟨hp1,hp2,trivial⟩,?_⟩
  simp only [cycle,foldl_cons,foldl_nil]
  rw [Books.step_of_passes hp2,hs]
  refine ⟨?_,?_,?_,?_⟩
  · simp [postWord,Op.postings,hne,ho,hm]
  · simp [postWord,Op.postings,hne.symm,hr,hm]
  · simp [postWord,Op.postings,hin,wrap_wrap_add]
  · rw [Books.step_of_passes hp1]
    simpa [Op.issued] using hi

def cycles (n : ℕ) : List Op := .mint user most :: (replicate n cycle).flatten

lemma cycles_books (n : ℕ) : Books.PassAll sampleSetup .start (cycles n) ∧
    CycleAt (n*most) ((cycles n).foldl (Books.step sampleSetup) .start) := by
  induction n with
  | zero =>
    have hp : (Op.mint user most).Passes sampleSetup Books.start.slots := by decide
    refine ⟨⟨hp,trivial⟩,?_⟩
    simp only [cycles,replicate_zero,flatten_nil,foldl_cons,foldl_nil]
    rw [Books.step_of_passes hp]
    refine ⟨?_,?_,?_,?_⟩ <;> decide
  | succ n ih =>
    have hs : cycles (n+1) = cycles n ++ cycle := by simp [cycles,replicate_succ',flatten_append]
    obtain ⟨hc,hnext⟩ := ih.2.next
    rw [hs,passAll_append,foldl_append]
    refine ⟨⟨ih.1,hc⟩,?_⟩
    have hk : ((n+1 : ℕ) : ℤ)*most = n*most+most := by push_cast; ring
    rwa [hk]

lemma run_start_of_passAll (h : Books.PassAll su .start ops) :
    ∃ s, run su .start ops = some s ∧ s.books su = ops.foldl (Books.step su) .start := by
  have hs := books_start su
  rw [← hs] at h ⊢
  exact run_of_passAll (labelled_start su) h

lemma held_foldl (h : b.PassAll su ops) (e : Address) :
    (ops.foldl (Books.step su) b).held e = b.held e+(ops.map (Op.paidIn e)).sum := by
  induction ops generalizing b with
  | nil => simp
  | cons op ops ih =>
    rw [foldl_cons,ih h.2,Books.step_of_passes h.1]
    simp [add_assoc]

theorem run_conserves_deposit :
    ∃ s, run sampleSetup .start [.mint user 10,.transferToExec user contract 4] = some s ∧
      total mainSlots (book sampleSetup s.db) = 10 ∧ ∀ slot, 0 ≤ book sampleSetup s.db slot := by
  have hp : Books.PassAll sampleSetup .start [.mint user 10,.transferToExec user contract 4] := by decide
  obtain ⟨s,hrun,hs⟩ := run_start_of_passAll hp
  have hi : s.issued = 10 := (congrArg Books.issued hs).trans (by decide)
  have hbu : s.burned = 0 := (congrArg Books.burned hs).trans (by decide)
  have hh : ∀ pre t, pre <+: [.mint user 10,.transferToExec user contract 4] →
      run sampleSetup .start pre = some t → ∀ e, t.held e ≤ maxInt64 := by
    rintro pre t ⟨rest,hr⟩ ht e
    have hpr : Books.PassAll sampleSetup .start pre := (passAll_append.mp (hr ▸ hp)).1
    have hb := (run_books (labelled_start _) ht).2
    rw [books_start] at hb
    have hh : t.held e = _ := congrArg (fun b => b.held e) hb
    rw [hh,held_foldl hpr]
    rcases pre with _ | ⟨a,_ | ⟨b,_ | ⟨c,pre⟩⟩⟩ <;> simp at hr
    · simp [Books.start,maxInt64]
    · obtain ⟨rfl,-⟩ := hr
      simp [Books.start,Op.paidIn,maxInt64]
    · obtain ⟨rfl,rfl,-⟩ := hr
      simp only [map_cons,map_nil,sum_cons,sum_nil,Op.paidIn,Books.start]
      split_ifs <;> decide
  obtain ⟨-,hm,hn⟩ := run_conserves (by simp [Op.GenesisNonneg]) hh hrun
    (by rw [hi]; decide)
  exact ⟨s,hrun,by rw [hm,hi,hbu]; rfl,hn⟩

/-- A negative genesis amount makes a balance negative; and coins that circle through
the main account of a contract make the balance inside overflow. -/
theorem run_reaches_negative :
    (∃ s, run sampleSetup .start [.genesisInit user (-5)] = some s ∧ s.issued ≤ maxInt64 ∧
      book sampleSetup s.db (.balance (.main user)) = -5) ∧
    ∃ s, run sampleSetup .start (cycles 93) = some s ∧ s.issued ≤ maxInt64 ∧
      book sampleSetup s.db (.balance (.exec contract user)) < 0 := by
  constructor
  · have hp : Books.PassAll sampleSetup .start [.genesisInit user (-5)] := by decide
    obtain ⟨s,hrun,hs⟩ := run_start_of_passAll hp
    have hi : s.issued = _ := congrArg Books.issued hs
    have hsl : book sampleSetup s.db (.balance (.main user)) = _ :=
      congrArg (fun b => b.slots (.balance (.main user))) hs
    refine ⟨s,hrun,?_,?_⟩
    · rw [hi]
      decide
    · rw [hsl]
      decide
  · obtain ⟨s,hrun,hs⟩ := run_start_of_passAll (cycles_books 93).1
    have hc := (cycles_books 93).2
    rw [← hs] at hc
    have hi : s.issued = most := hc.issued
    have hsl : book sampleSetup s.db (.balance (.exec contract user)) = _ := hc.inside
    refine ⟨s,hrun,?_,?_⟩
    · rw [hi]
      decide
    · rw [hsl]
      decide

/-- Nothing but a withdrawal takes from the main account of a contract. -/
def Op.Guarded (C : Set Address) : Op → Prop
  | .transfer a _ _ => a ∉ C
  | .transferToExec a _ _ => a ∉ C
  | .burn a _ => a ∉ C
  | .genesisInit _ x => 0 ≤ x
  | _ => True

lemma Op.Guarded.genesisNonneg (h : op.Guarded C) : op.GenesisNonneg := by
  cases op <;> trivial

/-- What is paid into a contract also comes to its main account. -/
theorem Op.Guarded.paidIn_le {b : Slot → ℤ}
    (h : op.Guarded C) (hp : op.Passes su b) {e : Address} (he : e ∈ C) :
    op.paidIn e ≤ net {Slot.balance (.main e)} op.postings := by
  cases op <;> simp only [Op.Guarded,Op.Passes,checkAmount_iff] at h hp <;>
    simp [Op.paidIn,Op.postings] <;> grind

structure Solvent (C : Set Address) (b : Books) : Prop where
  sound : Sound C b.slots
  main : total mainSlots b.slots = b.issued-b.burned
  burned : 0 ≤ b.burned
  covers : ∀ e ∈ C, total (execSlots e) b.slots ≤ b.slots (.balance (.main e))

lemma solvent_start (C : Set Address) : Solvent C .start := by
  refine ⟨sound_start C,conserved_start.main,le_rfl,fun e _ => ?_⟩
  rw [conserved_start.exec e]
  rfl

lemma Solvent.step (hb : Solvent C b) (ho : op.Guarded C) (hi : (b.step su op).issued ≤ maxInt64) :
    Solvent C (b.step su op) := by
  by_cases hp : op.Passes su b.slots
  · rw [Books.step_of_passes hp] at hi ⊢
    dsimp only at hi
    have hbu := hb.burned
    have hbn := hp.burned_nonneg
    have hg := ho.genesisNonneg
    have hm : total mainSlots b.slots+net mainSlots op.postings ≤ maxInt64 := by
      rw [hb.main,op.net_main]
      omega
    -- the users' total grows no faster than the balance of the contract
    have hc : ∀ e ∈ C, total (execSlots e) b.slots+net (execSlots e) op.postings ≤
        post b.slots op.postings (.balance (.main e)) := by
      intro e he
      rw [post_apply,op.net_exec]
      exact add_le_add (hb.covers e he) (ho.paidIn_le hp he)
    have hba : ∀ e, post b.slots op.postings (.balance (.main e)) ≤ maxInt64 := by
      intro e
      refine le_trans (le_total (support_post_finite hb.sound.finite _) ?_ ?_)
        ((total_post hb.sound.finite _).trans_le hm)
      · exact fun s hs => hb.sound.post_nonneg hp hg (main_mem_tracked hs)
      · rfl
    obtain ⟨hso,heq⟩ := hb.sound.step hp hg hm
      (fun e he => (hc e he).trans (hba e))
    refine ⟨hso,?_,by dsimp only; omega,fun e he => ?_⟩
    · rw [total_congr fun s hs => heq s (main_mem_tracked hs),total_post hb.sound.finite,hb.main,op.net_main]
      ring
    · have hsf : Slot.balance (.main e) ∈ mainSlots := rfl
      rw [total_congr fun s hs => heq s (exec_mem_tracked he hs),total_post hb.sound.finite]
      exact (hc e he).trans_eq (heq _ (main_mem_tracked hsf)).symm
  · rwa [Books.step_of_not_passes hp]

/-- As long as transfers, deposits and burns take from no contract address and what is
issued fits an int64, every contract holds at least what it owes its users. -/
theorem run_solvent {su : Setup} {C : Set Address} {ops : List Op} (hos : ∀ op ∈ ops, op.Guarded C)
    {s : Ledger} (hrun : run su .start ops = some s) (hi : s.issued ≤ maxInt64) {e : Address} (he : e ∈ C) :
    (book su s.db).support.Finite ∧ total (execSlots e) (book su s.db) ≤ book su s.db (.balance (.main e)) := by
  have hs : Solvent C (s.books su) := by
    induction ops using reverseRecOn generalizing s with
    | nil =>
      cases hrun
      rw [books_start]
      exact solvent_start C
    | append_singleton ops op ih =>
      obtain ⟨s1,hrun1,hse⟩ := run_snoc hrun
      obtain ⟨-,hb⟩ := step_books (run_books (labelled_start su) hrun1).1 hse
      have hop : op.Guarded C := hos op (by simp)
      have hi' : ((s1.books su).step su op).issued ≤ maxInt64 := by rwa [← hb]
      rw [hb]
      refine Solvent.step (ih (fun o ho => hos o (by simp [ho])) hrun1 ?_) hop hi'
      exact ((s1.books su).issued_le_step hop.genesisNonneg).trans hi'
  exact ⟨hs.sound.finite,hs.covers e he⟩

theorem run_solvent_genesis : ∃ s, run sampleSetup .start [.genesisInitExec user 10 contract] = some s ∧
      total (execSlots contract) (book sampleSetup s.db) ≤
        book sampleSetup s.db (.balance (.main contract)) := by
  have hp : Books.PassAll sampleSetup .start [.genesisInitExec user 10 contract] := by decide
  obtain ⟨s,hrun,hs⟩ := run_start_of_passAll hp
  have hi : s.issued = 10 := (congrArg Books.issued hs).trans (by decide)
  have hg : ∀ op ∈ [Op.genesisInitExec user 10 contract], op.Guarded {contract} := by simp [Op.Guarded]
  exact ⟨s,hrun,(run_solvent hg hrun (by rw [hi]; decide) (Set.mem_singleton _)).2⟩

/-- The book after the same single posting was made again and again. -/
theorem books_replicate {sl : Slot} {x : ℤ} (hps : op.postings = [(sl,x)])
    {n : ℕ} (hp : ∀ k < n, op.Passes su (update 0 sl (wrap 64 (k*x)))) :
    Books.PassAll su .start (replicate n op) ∧ (replicate n op).foldl (Books.step su) .start =
        ⟨update 0 sl (wrap 64 (n*x)),n*op.issued,n*op.burned, fun e => n*op.paidIn e⟩ := by
  induction n with
  | zero =>
    refine ⟨trivial,?_⟩
    simp [Books.start]
    rfl
  | succ n ih =>
    obtain ⟨ha,hb⟩ := ih fun k hk => hp k (by omega)
    have hl : op.Passes su ((replicate n op).foldl (Books.step su) .start).slots := by
      rw [hb]
      exact hp n (by omega)
    rw [replicate_succ',passAll_append,foldl_append]
    refine ⟨⟨ha,hl,trivial⟩,?_⟩
    rw [foldl_cons,foldl_nil,Books.step_of_passes hl,hb,hps]
    have hs : wrap 64 (wrap 64 (n*x)+x) = wrap 64 ((n+1 : ℕ)*x) := by
      rw [wrap_wrap_add]
      push_cast
      ring_nf
    simp only [postWord,foldl_cons,foldl_nil,update_self,update_idem,hs,Books.mk.injEq,true_and]
    push_cast
    refine ⟨by ring,by ring,?_⟩
    funext e
    ring

def second : Address := ⟨Bytes.ofString "S",by decide,by decide⟩

/-- A contract that pays its main account into another contract still owes its users;
and issuing without end overflows the main account of a contract. -/
theorem run_insolvent : (∃ s, run sampleSetup .start [.genesisInitExec user 10 contract,
        .transferToExec contract second 10] = some s ∧ s.issued ≤ maxInt64 ∧
      book sampleSetup s.db (.balance (.main contract)) < total (execSlots contract) (book sampleSetup s.db)) ∧
    ∃ s, run sampleSetup .start (replicate 93 (.execIssueCoins contract most)) = some s ∧
      book sampleSetup s.db (.balance (.main contract)) <
        total (execSlots contract) (book sampleSetup s.db) := by
  constructor
  · have hp : Books.PassAll sampleSetup .start [.genesisInitExec user 10 contract,
        .transferToExec contract second 10] := by decide
    obtain ⟨s,hrun,hs⟩ := run_start_of_passAll hp
    have hi : s.issued = 10 := (congrArg Books.issued hs).trans (by decide)
    have hsl : book sampleSetup s.db (.balance (.main contract)) = 0 :=
      (congrArg (fun b => b.slots (.balance (.main contract))) hs).trans (by decide)
    have hf1 : Conserved (Books.start.step sampleSetup (.genesisInitExec user 10 contract)) := by
      refine conserved_start.step trivial (by decide) fun e => ?_
      rw [Books.step_of_passes hp.1]
      simp only [Books.start,Op.paidIn]
      split_ifs <;> decide
    have hbt : Conserved ((Books.start.step sampleSetup (.genesisInitExec user 10 contract)).step
        sampleSetup (.transferToExec contract second 10)) := by
      refine hf1.step trivial (by decide) fun e => ?_
      rw [Books.step_of_passes hp.2.1,Books.step_of_passes hp.1]
      simp only [Books.start,Op.paidIn]
      split_ifs <;> decide
    have hh : s.held contract = 10 := (congrArg (fun b => b.held contract) hs).trans (by decide)
    have hb : Conserved (s.books sampleSetup) := by
      rw [hs]
      exact hbt
    have ht : total (execSlots contract) (book sampleSetup s.db) = s.held contract := hb.exec contract
    exact ⟨s,hrun,by rw [hi]; decide,by rw [hsl,ht,hh]; decide⟩
  · have ho : (Op.execIssueCoins contract most).postings = [(.balance (.main contract),most)] := rfl
    have his : ∀ b, (Op.execIssueCoins contract most).Passes sampleSetup b := fun _ => ⟨by decide,by decide⟩
    obtain ⟨hp,hb⟩ := books_replicate (n := 93) ho fun _ _ => his _
    obtain ⟨s,hrun,hs⟩ := run_start_of_passAll hp
    have hbo : book sampleSetup s.db =
        update (0 : Slot → ℤ) (.balance (.main contract)) (wrap 64 ((93 : ℕ)*most)) :=
      congrArg Books.slots (hs.trans hb)
    refine ⟨s,hrun,?_⟩
    have hz : total (execSlots contract) (book sampleSetup s.db) = 0 := by
      have hc : ∀ slot ∈ execSlots contract, book sampleSetup s.db slot = 0 := by
        intro slot hsl
        rw [hbo,update_of_ne]
        · rfl
        · rintro rfl
          cases hsl
      rw [total_congr hc]
      exact finsum_mem_zero _
    rw [hz,hbo,update_self]
    decide

/-- The operations on the accounts of a token. -/
def Op.isToken : Op → Bool
  | .mint _ _ => true
  | .transfer _ _ _ => true
  | .transferToExec _ _ _ => true
  | .execTransfer _ _ _ _ => true
  | _ => false

/-- The two ways in are capped by the total they add to. -/
def Op.Capped (b : Slot → ℤ) : Op → Prop
  | .mint _ x => total mainSlots b+x ≤ maxInt64
  | .transferToExec _ e x => total (execSlots e) b+x ≤ maxInt64
  | _ => True

/-- Each credited slot holds the sum of what it held and the amount. -/
def ExactCredits (op : Op) (b b' : Slot → ℤ) : Prop := ∀ p ∈ op.postings, 0 < p.2 → b' p.1 = b p.1+p.2

lemma Op.isToken.genesisNonneg (h : op.isToken = true) : op.GenesisNonneg := by
  cases op <;> trivial

lemma Sound.token_step {b : Slot → ℤ} (hb : Sound Set.univ b)
    (ht : op.isToken = true) (hc : op.Capped b) (hp : op.Passes su b) :
    Sound Set.univ (postWord 64 b op.postings) ∧ ∀ s, postWord 64 b op.postings s = post b op.postings s := by
  have hm := hb.mainFits
  have he : ∀ e, total (execSlots e) b ≤ maxInt64 := fun e => hb.execFits e (Set.mem_univ e)
  have hm' : total mainSlots b+net mainSlots op.postings ≤ maxInt64 := by
    rw [op.net_main]
    cases op <;> simp_all [Op.isToken,Op.Capped,Op.issued,Op.burned]
  have he' : ∀ e ∈ Set.univ, total (execSlots e) b+net (execSlots e) op.postings ≤ maxInt64 := by
    intro e _
    rw [op.net_exec]
    cases op <;> simp_all [Op.isToken,Op.Capped,Op.paidIn]
    split_ifs with hee
    · exact hee ▸ hc
    · exact (add_zero _).trans_le (he e)
  obtain ⟨hs,heq⟩ := hb.step hp (Op.isToken.genesisNonneg ht) hm' he'
  exact ⟨hs,fun s => heq s (mem_tracked_univ s)⟩

lemma Sound.token_run (ht : ∀ op ∈ ops, op.isToken = true)
    (hc : ∀ pre op s, pre ++ [op] <+: ops → run su .start pre = some s → op.Capped (book su s.db))
    {pre : List Op} (hp : pre <+: ops) (hrun : run su .start pre = some s) : Sound Set.univ (book su s.db) := by
  induction pre using reverseRecOn generalizing s with
  | nil =>
    cases hrun
    have hst : book su Ledger.start.db = Books.start.slots := congrArg Books.slots (books_start su)
    rw [hst]
    exact sound_start _
  | append_singleton pre op ih =>
    obtain ⟨s1,hrun1,hse⟩ := run_snoc hrun
    have hs1 := ih ((prefix_append pre [op]).trans hp) hrun1
    obtain ⟨-,hb⟩ := step_books (run_books (labelled_start su) hrun1).1 hse
    have hbo : book su s.db = ((s1.books su).step su op).slots := congrArg Books.slots hb
    rw [hbo]
    by_cases hpa : op.Passes su (s1.books su).slots
    · rw [Books.step_of_passes hpa]
      exact (hs1.token_step (ht op (hp.subset (by simp))) (hc pre op s1 hp hrun1) hpa).1
    · rwa [Books.step_of_not_passes hpa]

/-- If every `Mint` and every `TransferToExec` keeps the total it adds to within an
int64, no credit of any operation overflows. -/
theorem run_exact {su : Setup} {ops : List Op} (ht : ∀ op ∈ ops, op.isToken = true)
    (hc : ∀ pre op s, pre ++ [op] <+: ops → run su .start pre = some s → op.Capped (book su s.db))
    {pre : List Op} {op : Op} (hpr : pre ++ [op] <+: ops) {s : Ledger}
    (hrun : run su .start pre = some s) {r : Receipt} {db : KVDB}
    (hca : (op.call su).exec s.db = (.ok r,db)) : ExactCredits op (book su s.db) (book su db) := by
  have hl := (run_books (labelled_start su) hrun).1
  have hs := Sound.token_run ht hc ((prefix_append pre [op]).trans hpr) hrun
  have hpa : op.Passes su (book su s.db) := by
    by_contra hn
    obtain ⟨e,db',hf,-⟩ := (op.posts hl).fails hn
    cases (Prod.ext_iff.mp (hca.symm.trans hf)).1
  obtain ⟨r',db',ho,-,hb⟩ := (op.posts hl).ok hpa
  obtain rfl : db = db' := (Prod.ext_iff.mp (hca.symm.trans ho)).2
  have he := (hs.token_step (ht op (hpr.subset (by simp)))
    (hc pre op s hpr hrun) hpa).2
  intro p hp _
  rw [hb,he,post_of_mem hpa.nodup hp]

theorem run_exact_mint : ∃ s r db, run sampleSetup .start [.mint user 10] = some s ∧
      ((Op.transfer user second 4).call sampleSetup).exec s.db = (.ok r,db) ∧
      book sampleSetup db (.balance (.main second)) = book sampleSetup s.db (.balance (.main second))+4 := by
  have hp : Books.PassAll sampleSetup .start [.mint user 10] := by decide
  obtain ⟨s,hrun,hs⟩ := run_start_of_passAll hp
  have hb : book sampleSetup s.db = _ := congrArg Books.slots hs
  have htr : (Op.transfer user second 4).Passes sampleSetup (book sampleSetup s.db) := by
    rw [hb]
    decide
  obtain ⟨r,db,hc,-⟩ := ((Op.transfer user second 4).posts
    (run_books (labelled_start _) hrun).1).ok htr
  have hcp : ∀ pre op t, pre ++ [op] <+: [Op.mint user 10,.transfer user second 4] →
      run sampleSetup .start pre = some t → op.Capped (book sampleSetup t.db) := by
    rintro pre op t ⟨rest,hr⟩ ht
    rcases pre with _ | ⟨a,_ | ⟨b,pre⟩⟩ <;> simp at hr
    · obtain ⟨rfl,-⟩ := hr
      cases ht
      have hst : book sampleSetup Ledger.start.db = Books.start.slots :=
        congrArg Books.slots (books_start sampleSetup)
      rw [Op.Capped,hst,total_start]
      decide
    · obtain ⟨rfl,rfl,-⟩ := hr
      trivial
  refine ⟨s,r,db,hrun,hc,?_⟩
  exact run_exact (by simp [Op.isToken]) hcp (prefix_refl _) hrun hc
    (.balance (.main second),4) (by simp [Op.postings]) (by decide)

/-- Each `Mint` stays below its cap and each amount passes the checks, but the third
transfer carries the receiver over the end of an int64. -/
theorem run_overflows : ∃ s r db, run sampleSetup .start (replicate 90 (.mint user most) ++
        [.mint second most,.mint second most,.mint second most,.transfer second user most,
          .transfer second user most]) = some s ∧
      ((Op.transfer second user most).call sampleSetup).exec s.db = (.ok r,db) ∧
      book sampleSetup s.db (.balance (.main user)) = 92*most ∧
      book sampleSetup db (.balance (.main user)) < 0 := by
  have ho : (Op.mint user most).postings = [(.balance (.main user),most)] := rfl
  have hm : ∀ k < 90, (Op.mint user most).Passes sampleSetup
      (update 0 (.balance (.main user)) (wrap 64 ((k : ℕ)*most))) := by decide +kernel
  obtain ⟨hf1,hb⟩ := books_replicate ho hm
  have hr : Books.PassAll sampleSetup
      ((replicate 90 (Op.mint user most)).foldl (Books.step sampleSetup) .start)
      [.mint second most,.mint second most,.mint second most,.transfer second user most,
        .transfer second user most] := by
    rw [hb]
    decide +kernel
  obtain ⟨s,hrun,hs⟩ := run_start_of_passAll (passAll_append.mpr ⟨hf1,hr⟩)
  rw [foldl_append,hb] at hs
  have hbo : book sampleSetup s.db = _ := congrArg Books.slots hs
  have hl : (Op.transfer second user most).Passes sampleSetup (book sampleSetup s.db) := by
    rw [hbo]
    decide +kernel
  obtain ⟨r,db,hc,-,hdb⟩ := ((Op.transfer second user most).posts
    (run_books (labelled_start _) hrun).1).ok hl
  refine ⟨s,r,db,hrun,hc,?_,?_⟩
  · rw [hbo]
    decide +kernel
  · rw [hdb,hbo]
    decide +kernel

end Dpos.AccountDB
