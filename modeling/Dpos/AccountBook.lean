import Dpos.AccountDB
import Dpos.Postings

/-! The book behind the account database: one slot for each balance and each frozen
amount. Every operation of the package either leaves the database as it was or makes
a fixed list of postings, in int64 arithmetic. -/
namespace Dpos.AccountDB
open Postings List Proc Function

/-- An address: neither of the two characters that separate the parts of a key
occurs in a base58 text. -/
structure Address where
  text : Bytes
  no_dash : 45 ∉ text
  no_colon : 58 ∉ text
  deriving DecidableEq

lemma Address.text_injective : Function.Injective Address.text := by
  rintro ⟨a,_,_⟩ ⟨b,_,_⟩ h
  obtain rfl : a = b := h
  rfl

@[simp] lemma Address.text_inj {a b : Address} : a.text = b.text ↔ a = b := Address.text_injective.eq_iff

/-- An account of the database: of an address, or of a user inside a contract. -/
inductive Holder
  | main (addr : Address)
  | exec (execaddr addr : Address)
  deriving DecidableEq

inductive Slot
  | balance (h : Holder)
  | frozen (h : Holder)
  deriving DecidableEq

namespace Holder

def addr : Holder → Address
  | main a => a
  | exec _ a => a

def key (su : Setup) : Holder → Bytes
  | main a => accountKey su a.text
  | exec e a => execAccountKey su a.text e.text

lemma key_injective (su : Setup) : Function.Injective (key su) := by
  have hma : ∀ a e u : Address, accountKey su a.text ≠ execAccountKey su u.text e.text := by
    intro a e u h
    simp only [accountKey,execAccountKey,execAccountKeyPerfix,append_assoc,append_cancel_left_eq] at h
    refine a.no_dash ?_
    rw [h]
    simp [Bytes.ofString,Bytes.ofChars]
  rintro (a | ⟨e,a⟩) (b | ⟨f,b⟩) h
  · simpa [key,accountKey] using h
  · exact absurd h (hma a f b)
  · exact absurd h.symm (hma b e a)
  · have hc : Bytes.ofString ":" = [58] := rfl
    simp only [key,execAccountKey,append_assoc,append_cancel_left_eq,hc,singleton_append] at h
    obtain ⟨he,-,ha⟩ := (append_cons_inj_of_notMem e.no_colon a.no_colon).mp h
    rw [Address.text_inj] at he ha
    rw [he,ha]

end Holder

section
variable (su : Setup)

def load (db : KVDB) (h : Holder) : Account := (db (h.key su)).getD ⟨0,0,0,h.addr.text⟩

def book (db : KVDB) : Slot → ℤ
  | .balance h => (load su db h).balance
  | .frozen h => (load su db h).frozen

/-- Each record carries the address it is stored under. -/
def Labelled (db : KVDB) : Prop := ∀ h, (load su db h).addr = h.addr.text

variable {su} {db : KVDB}

lemma load_update (h : Holder) (acc : Account) (h' : Holder) :
    load su (update db (h.key su) (some acc)) h' = if h' = h then acc else load su db h' := by
  by_cases hh : h' = h
  · subst hh
    simp [load]
  · have hne : h'.key su ≠ h.key su := (Holder.key_injective su).ne hh
    simp [load,hh,hne]

variable {acc : Account} {m : M Receipt} {g : Prop} {ps : List (Slot × ℤ)} {amount : ℤ} {h : Holder}

lemma Labelled.update (hdb : Labelled su db) (ha : acc.addr = h.addr.text) :
    Labelled su (update db (h.key su) (some acc)) := by
  intro h'
  rw [load_update]
  split_ifs with hh
  · rw [hh,ha]
  · exact hdb h'

lemma book_update (h : Holder) (acc : Account) : book su (update db (h.key su) (some acc)) =
      update (update (book su db) (.balance h) acc.balance) (.frozen h) acc.frozen := by
  funext s
  cases s with
  | balance h'
  | frozen h' =>
    by_cases hh : h' = h
    · subst hh
      simp [book,load_update]
    · simp [book,load_update,hh]

lemma book_setBalance (h : Holder) (v : ℤ) :
    book su (update db (h.key su) (some {load su db h with balance := v})) =
      update (book su db) (.balance h) v := by
  rw [book_update]
  funext s
  by_cases hs : s = .frozen h
  · subst hs
    simp [book]
  · simp [hs]

lemma book_setFrozen (h : Holder) (v : ℤ) :
    book su (update db (h.key su) (some {load su db h with frozen := v})) =
      update (book su db) (.frozen h) v := by
  rw [book_update]
  funext s
  by_cases hs : s = .balance h
  · subst hs
    simp [book]
  · by_cases hs' : s = .frozen h
    · subst hs'
      simp
    · simp [hs,hs']

/-! ### The operations as postings -/

variable (e a : Address) {f : Account → M Receipt} {ps2 : List (Slot × ℤ)} {r : Receipt} {g2 : Prop} {ba : ℤ}

@[simp] lemma exec_loadAccount : (loadAccount su a.text).exec db = (.ok (load su db (.main a)),db) := rfl

@[simp] lemma exec_loadExecAccount :
    (loadExecAccount su a.text e.text).exec db = (.ok (load su db (.exec e a)),db) := rfl

variable (su db) in
/-- If `g` holds the operation makes the postings; otherwise it fails, and unless it panics nothing
has changed. -/
structure Posts (m : M Receipt) (g : Prop) (ps : List (Slot × ℤ)) : Prop where
  ok : g → ∃ r db', m.exec db = (.ok r,db') ∧ Labelled su db' ∧ book su db' = postWord 64 (book su db) ps
  fails : ¬g → ∃ e db', m.exec db = (.error e,db') ∧ (e.isPanic = true ∨ db' = db)

lemma Posts.failIf {c : Prop} [Decidable c] {e : Err} (h : ¬c → Posts su db m g ps) :
    Posts su db (Proc.failIf c e >>= fun _ => m) (¬c ∧ g) ps := by
  by_cases hc : c
  · refine ⟨fun hg => absurd hc hg.1,fun _ => ⟨e,db,?_,.inr rfl⟩⟩
    simp [exec_bind,exec_failIf,hc]
  · have he : (Proc.failIf c e >>= fun _ => m).exec db = m.exec db := by simp [exec_bind,exec_failIf,hc]
    refine ⟨fun hg => ?_,fun hg => ?_⟩
    · rw [he]
      exact (h hc).ok hg.2
    · rw [he]
      exact (h hc).fails fun hg' => hg ⟨hc,hg'⟩

lemma Posts.congr {g' : Prop} (h : Posts su db m g ps) (hg : g ↔ g') : Posts su db m g' ps :=
  ⟨fun hg' => h.ok (hg.mpr hg'),fun hg' => h.fails fun hgg => hg' (hg.mp hgg)⟩

variable (su) in
def Saves (m : M Unit) (h : Holder) (acc : Account) : Prop :=
  acc.addr = h.addr.text ∧ ∀ db, m.exec db = (.ok (),update db (h.key su) (some acc))

lemma saves_main (ha : acc.addr = a.text) : Saves su (saveKVSet (getKVSet su acc)) (.main a) acc := by
  refine ⟨ha,fun db => ?_⟩
  simp [saveKVSet,getKVSet,setAll,ha,Holder.key]

lemma saves_exec (ha : acc.addr = a.text) : Saves su (saveExecAccount su e.text acc) (.exec e a) acc := by
  refine ⟨ha,fun db => ?_⟩
  simp [saveExecAccount,saveKVSet,getExecKVSet,setAll,ha,Holder.key]

lemma Posts.save (hdb : Labelled su db) {m : M Unit} (hm : Saves su m h acc)
    (hb : book su (update db (h.key su) (some acc)) = postWord 64 (book su db) ps) :
    Posts su db (m >>= fun _ => pure r) True ps := by
  refine ⟨fun _ => ⟨r,_,?_,hdb.update hm.1,hb⟩,fun h => absurd trivial h⟩
  rw [exec_bind_ok (hm.2 db),exec_pure]

lemma Posts.saveTwo (hdb : Labelled su db) {m m' : M Unit} {h' : Holder}
    {s : Slot} (hne : h' ≠ h) (hs : s ≠ .balance h') (hm : Saves su m h acc)
    (hm' : Saves su m' h' {load su db h' with balance := int64 ((load su db h').balance+amount)})
    (hb : book su (update db (h.key su) (some acc)) = update (book su db) s (int64 (book su db s-amount))) :
    Posts su db (m >>= fun _ => m' >>= fun _ => pure r) True [(s,-amount),(.balance h',amount)] := by
  have hl : load su (update db (h.key su) (some acc)) h' = load su db h' := by rw [load_update,if_neg hne]
  refine ⟨fun _ => ⟨r,_,?_,(hdb.update hm.1).update hm'.1,?_⟩,fun h => absurd trivial h⟩
  · rw [exec_bind_ok (hm.2 db),exec_bind_ok (hm'.2 _),exec_pure]
  · rw [← hl,book_setBalance,hb]
    simp only [postWord,foldl_cons,foldl_nil,hl]
    rw [update_of_ne (Ne.symm hs)]
    rfl

lemma Posts.orPanic (h : Posts su db m g ps) : Posts su db (orPanic m) g ps := by
  refine ⟨fun hg => ?_,fun hg => ?_⟩
  · obtain ⟨r,db',hm,hr⟩ := h.ok hg
    exact ⟨r,db',by rw [AccountDB.orPanic,exec_adapt,hm]; rfl,hr⟩
  · obtain ⟨e,db',hm,-⟩ := h.fails hg
    exact ⟨.panic e,db',by rw [AccountDB.orPanic,exec_adapt,hm]; rfl,.inl rfl⟩

lemma Posts.loadAccount {a : Address}
    (h : Posts su db (f (load su db (.main a))) g ps) : Posts su db (loadAccount su a.text >>= f) g ps := by
  have he : (AccountDB.loadAccount su a.text >>= f).exec db = (f (load su db (.main a))).exec db :=
    exec_bind_ok (exec_loadAccount a)
  exact ⟨by rw [he]; exact h.ok,by rw [he]; exact h.fails⟩

lemma Posts.loadExecAccount {e a : Address}
    (h : Posts su db (f (load su db (.exec e a))) g ps) :
    Posts su db (loadExecAccount su a.text e.text >>= f) g ps := by
  have he : (AccountDB.loadExecAccount su a.text e.text >>= f).exec db =
      (f (load su db (.exec e a))).exec db :=
    exec_bind_ok (exec_loadExecAccount e a)
  exact ⟨by rw [he]; exact h.ok,by rw [he]; exact h.fails⟩

lemma safeAdd_eq_some {v : ℤ} (h : safeAdd ba amount = some v) : v = int64 (ba+amount) := by
  unfold safeAdd at h
  split_ifs at h
  exact (Option.some.inj h).symm

lemma Posts.addChecked {f : ℤ → M Receipt} (h : Posts su db (f (int64 (ba+amount))) g ps) :
    Posts su db (addChecked ba amount >>= f) ((safeAdd ba amount).isSome = true ∧ g) ps := by
  unfold AccountDB.addChecked
  cases ha : safeAdd ba amount with
  | none =>
    refine ⟨fun hg => absurd hg.1 (by simp),fun _ => ⟨.errAmount,db,?_,.inr rfl⟩⟩
    exact exec_bind_error (exec_demand_none _ _)
  | some v =>
    have he : (Proc.demand Err.errAmount (some v) >>= f).exec db =
        (f (int64 (ba+amount))).exec db := by
      rw [exec_bind_ok (exec_demand_some _ _ _),safeAdd_eq_some ha]
    refine ⟨fun hg => ?_,fun hg => ?_⟩
    · rw [he]
      exact h.ok hg.2
    · rw [he]
      exact h.fails fun hg' => hg ⟨rfl,hg'⟩

lemma orPanic_isPanic {e : Err} {db' : KVDB} (h : (orPanic m).exec db = (.error e,db')) : e.isPanic = true := by
  rw [orPanic,exec_adapt] at h
  rcases hm : (m.exec db).1 with err | r <;> rw [hm] at h
  · obtain rfl := Except.error.inj (Prod.ext_iff.mp h).1
    rfl
  · cases (Prod.ext_iff.mp h).1

/-- The second of two operations runs on what the first has posted. If it fails it
panics. -/
theorem Posts.seq {m1 m2 : M Receipt} {g1 : Prop} {ps1 : List (Slot × ℤ)} (h1 : Posts su db m1 g1 ps1)
    (h2 : g1 → ∀ db', Labelled su db' → book su db' = postWord 64 (book su db) ps1 → Posts su db' m2 g2 ps2)
    (hf : g1 → ¬g2 → ∀ db1 e db2, m2.exec db1 = (.error e,db2) → e.isPanic = true) :
    Posts su db (m1 >>= fun r1 => m2 >>= fun r2 => pure (mergeReceipt r1 r2)) (g1 ∧ g2) (ps1 ++ ps2) := by
  refine ⟨fun hg => ?_,fun hg => ?_⟩
  · obtain ⟨r1,db1,hm1,hdb1,hb1⟩ := h1.ok hg.1
    obtain ⟨r2,db2,hm2,hdb2,hb2⟩ := (h2 hg.1 db1 hdb1 hb1).ok hg.2
    refine ⟨mergeReceipt r1 r2,db2,?_,hdb2,?_⟩
    · rw [exec_bind_ok hm1,exec_bind_ok hm2,exec_pure]
    · rw [hb2,hb1]
      simp [postWord,foldl_append]
  · by_cases hg1 : g1
    · have hg2 : ¬g2 := fun hg2 => hg ⟨hg1,hg2⟩
      obtain ⟨r1,db1,hm1,hdb1,hb1⟩ := h1.ok hg1
      obtain ⟨e,db2,hm2,-⟩ := (h2 hg1 db1 hdb1 hb1).fails hg2
      refine ⟨e,db2,?_,.inl (hf hg1 hg2 db1 e db2 hm2)⟩
      rw [exec_bind_ok hm1,exec_bind_error hm2]
    · obtain ⟨e,db',hm,hr⟩ := h1.fails hg1
      exact ⟨e,db',exec_bind_error hm,hr⟩

/-- The amount is there, in int64 arithmetic. -/
def Covered (b : Slot → ℤ) (s : Slot) (amount : ℤ) : Prop := 0 ≤ int64 (b s-amount)

lemma Posts.checkTransfer {e : Address} (h : Posts su db m g ps) :
    Posts su db (checkTransfer su e.text amount >>= fun _ => m)
      (checkAmount amount = true ∧ Covered (book su db) (.balance (.main e)) amount ∧ g) ps := by
  have ha : (AccountDB.checkTransfer su e.text amount >>= fun _ => m) =
      Proc.failIf (checkAmount amount = false) .errAmount >>= fun _ =>
        AccountDB.loadAccount su e.text >>= fun acc =>
          Proc.failIf (int64 (acc.balance-amount) < 0) .errNoBalance >>= fun _ => m := by
    simp only [AccountDB.checkTransfer,bind_assoc]
  rw [ha]
  refine Posts.congr (.failIf fun _ => .loadAccount (.failIf fun _ => h)) ?_
  simp [Covered,book]

section
variable (hdb : Labelled su db)
include hdb

variable (u a b e : Address) (am : ℤ)

lemma transfer_posts : Posts su db (transfer su a.text b.text am)
      (checkAmount am = true ∧ a ≠ b ∧ Covered (book su db) (.balance (.main a)) am)
      [(.balance (.main a),-am),(.balance (.main b),am)] := by
  have ha : ∀ c : Address, (load su db (.main c)).addr = c.text := fun c => hdb (.main c)
  refine Posts.congr (.failIf fun _ => .loadAccount (.loadAccount (.failIf fun hab => .failIf fun _ =>
    .saveTwo hdb ?_ ?_ (saves_main a (ha a)) (saves_main b (ha b)) (book_setBalance _ _)))) ?_
  · rintro h
    simp_all
  · rintro h
    simp_all
  · simp [ha,Covered,book]

lemma depositBalance_posts : Posts su db (depositBalance su e.text am) (checkAmount am = true)
      [(.balance (.main e),am)] := by
  refine Posts.congr (.failIf fun _ => .loadAccount (.save hdb (saves_main e (hdb (.main e)))
    (book_setBalance _ _))) ?_
  simp

lemma mint_posts : Posts su db (mint su a.text am) (checkAmount am = true ∧
        (safeAdd (book su db (.balance (.main a))) am).isSome = true) [(.balance (.main a),am)] := by
  refine Posts.congr (.failIf fun _ => .loadAccount (.addChecked (.save hdb
    (saves_main a (hdb (.main a))) (book_setBalance _ _)))) ?_
  simp [book]

lemma burn_posts : Posts su db (burn su a.text am)
      (checkAmount am = true ∧ am ≤ book su db (.balance (.main a))) [(.balance (.main a),-am)] := by
  refine Posts.congr (.failIf fun _ => .loadAccount (.failIf fun _ => .save hdb
    (saves_main a (hdb (.main a))) (book_setBalance _ _))) ?_
  simp [book]

lemma genesisInit_posts : Posts su db (genesisInit su a.text am)
      ((safeAdd (book su db (.balance (.main a))) am).isSome = true) [(.balance (.main a),am)] := by
  refine Posts.congr (.loadAccount (.addChecked (.save hdb
    (saves_main a (hdb (.main a))) (book_setBalance _ _)))) ?_
  simp [book]

lemma execIssueCoins_posts : Posts su db (execIssueCoins su e.text am)
      (allowDeposit su e.text = true ∧ checkAmount am = true) [(.balance (.main e),am)] := by
  refine Posts.congr (.failIf fun _ => depositBalance_posts hdb e am) ?_
  simp

lemma execFrozen_posts : Posts su db (execFrozen su u.text e.text am)
      (u ≠ e ∧ checkAmount am = true ∧ Covered (book su db) (.balance (.exec e u)) am)
      [(.balance (.exec e u),-am),(.frozen (.exec e u),am)] := by
  refine Posts.congr (.failIf fun _ => .failIf fun _ => .loadExecAccount (.failIf fun _ =>
    .save hdb (saves_exec e u (hdb (.exec e u))) ?_)) ?_
  · rw [book_update]
    rfl
  · simp [Covered,book]

lemma execActive_posts : Posts su db (execActive su u.text e.text am)
      (u ≠ e ∧ checkAmount am = true ∧ Covered (book su db) (.frozen (.exec e u)) am)
      [(.balance (.exec e u),am),(.frozen (.exec e u),-am)] := by
  refine Posts.congr (.failIf fun _ => .failIf fun _ => .loadExecAccount (.failIf fun _ =>
    .save hdb (saves_exec e u (hdb (.exec e u))) ?_)) ?_
  · rw [book_update]
    rfl
  · simp [Covered,book]

lemma execTransfer_posts : Posts su db (execTransfer su a.text b.text e.text am)
      (a ≠ b ∧ checkAmount am = true ∧ Covered (book su db) (.balance (.exec e a)) am)
      [(.balance (.exec e a),-am),(.balance (.exec e b),am)] := by
  refine Posts.congr (.failIf fun ha => .failIf fun _ => .loadExecAccount (.loadExecAccount (.failIf
    fun _ => .saveTwo hdb ?_ ?_ (saves_exec e a (hdb (.exec e a))) (saves_exec e b (hdb (.exec e b)))
      (book_setBalance _ _)))) ?_
  · rintro h
    simp_all
  · rintro h
    simp_all
  · simp [Covered,book]

lemma execTransferFrozen_posts : Posts su db (execTransferFrozen su a.text b.text e.text am)
      (a ≠ b ∧ checkAmount am = true ∧ Covered (book su db) (.frozen (.exec e a)) am)
      [(.frozen (.exec e a),-am),(.balance (.exec e b),am)] := by
  refine Posts.congr (.failIf fun ha => .failIf fun _ => .loadExecAccount (.loadExecAccount (.failIf
    fun _ => .saveTwo hdb ?_ ?_ (saves_exec e a (hdb (.exec e a))) (saves_exec e b (hdb (.exec e b)))
      (book_setFrozen _ _)))) ?_
  · rintro h
    simp_all
  · rintro h
    simp_all
  · simp [Covered,book]

lemma depositFrozen_posts : Posts su db (depositFrozen su u.text e.text am) (u ≠ e ∧ checkAmount am = true)
      [(.frozen (.exec e u),am)] := by
  refine Posts.congr (.failIf fun _ => .failIf fun _ => .loadExecAccount (.save hdb
    (saves_exec e u (hdb (.exec e u))) (book_setFrozen _ _))) ?_
  simp

lemma execDeposit_posts : Posts su db (execDeposit su u.text e.text am) (u ≠ e ∧ checkAmount am = true)
      [(.balance (.exec e u),am)] := by
  refine Posts.congr (.failIf fun _ => .failIf fun _ => .loadExecAccount (.save hdb
    (saves_exec e u (hdb (.exec e u))) (book_setBalance _ _))) ?_
  simp

lemma execWithdraw_posts (u : Address) (am : ℤ) : Posts su db (execWithdraw su e.text u.text am)
      (u ≠ e ∧ checkAmount am = true ∧ Covered (book su db) (.balance (.exec e u)) am)
      [(.balance (.exec e u),-am)] := by
  refine Posts.congr (.failIf fun _ => .failIf fun _ => .loadExecAccount (.failIf fun _ => .save hdb
    (saves_exec e u (hdb (.exec e u))) (book_setBalance _ _))) ?_
  simp [Covered,book]

lemma execDepositFrozen_posts : Posts su db (execDepositFrozen su u.text e.text am)
      (u ≠ e ∧ allowDeposit su e.text = true ∧ checkAmount am = true)
      [(.balance (.main e),am),(.frozen (.exec e u),am)] := by
  refine Posts.congr (.failIf fun hu => .seq (execIssueCoins_posts hdb e am)
    (fun _ db' hdb' _ => depositFrozen_posts hdb' u e am) fun hg hn => ?_) ?_
  · exact absurd ⟨fun h => hu (by rw [h]),hg.2⟩ hn
  · rw [Address.text_inj]
    tauto

lemma transferToExec_posts : Posts su db (transferToExec su a.text e.text am)
      (checkAmount am = true ∧ a ≠ e ∧ Covered (book su db) (.balance (.main a)) am)
      [(.balance (.main a),-am),(.balance (.main e),am),(.balance (.exec e a),am)] := by
  refine Posts.congr (.seq (transfer_posts hdb a e am)
    (fun _ db' hdb' _ => (execDeposit_posts hdb' a e am).orPanic)
    fun _ _ _ _ _ => orPanic_isPanic) ?_
  tauto

omit hdb in
/-- The withdrawal does not touch the balance of the contract, so the transfer after it finds what
`CheckTransfer` has seen. -/
theorem transfer_after_withdraw {db' : KVDB} (hdb' : Labelled su db')
    (hb : book su db' = postWord 64 (book su db) [(.balance (.exec e a),-am)]) :
    Posts su db' (orPanic (transfer su e.text a.text am))
      (checkAmount am = true ∧ e ≠ a ∧ Covered (book su db) (.balance (.main e)) am)
      [(.balance (.main e),-am),(.balance (.main a),am)] := by
  refine (transfer_posts hdb' e a am).orPanic.congr ?_
  rw [hb]
  simp [Covered,postWord]

lemma transferWithdraw_posts : Posts su db (transferWithdraw su a.text e.text am)
      (checkAmount am = true ∧ Covered (book su db) (.balance (.main e)) am ∧ a ≠ e ∧
        Covered (book su db) (.balance (.exec e a)) am)
      [(.balance (.exec e a),-am),(.balance (.main e),-am),(.balance (.main a),am)] := by
  refine Posts.congr (.checkTransfer (.seq (execWithdraw_posts hdb e a am)
    (fun _ _ => transfer_after_withdraw a e am) fun _ _ _ _ _ => orPanic_isPanic)) ?_
  rw [ne_comm (a := e)]
  tauto

/-- The deposit inside the contract may panic, after the contract was credited. -/
theorem genesisInitExec_posts (e : Address) : Posts su db (genesisInitExec su u.text am e.text)
      ((safeAdd (book su db (.balance (.main e))) am).isSome = true ∧ u ≠ e ∧ checkAmount am = true)
      [(.balance (.main e),am),(.balance (.exec e u),am)] :=
  .seq (genesisInit_posts hdb e am)
    (fun _ _ hdb' _ => (execDeposit_posts hdb' u e am).orPanic)
    fun _ _ _ _ _ => orPanic_isPanic

end

/-- No error of the procedure is a panic. -/
def Calm {α : Type} (m : M α) : Prop := ∀ db e db', m.exec db = (.error e,db') → e.isPanic = false

variable {α : Type} {c : Prop} {e : Err}

lemma Calm.pure (a : α) : Calm (pure a : M α) := fun _ _ _ h => by cases h

lemma Calm.reads (f : KVDB → α) : Calm (Proc.reads f) := fun _ _ _ h => by cases h

lemma Calm.modify (f : KVDB → KVDB) : Calm (modify f) := fun _ _ _ h => by cases h

lemma Calm.failIf [Decidable c] (he : e.isPanic = false) : Calm (Proc.failIf c e) := by
  intro db e' db' h
  rw [exec_failIf] at h
  split_ifs at h
  · obtain rfl := Except.error.inj (Prod.mk.inj h).1
    exact he
  · cases h

lemma Calm.bind {β : Type} {m : M α} {f : α → M β} (hm : Calm m) (hf : ∀ a, Calm (f a)) : Calm (m >>= f) := by
  intro db e db' h
  rcases hex : m.exec db with ⟨e' | a,db1⟩
  · rw [exec_bind_error hex] at h
    obtain ⟨he,rfl⟩ := Prod.mk.inj h
    cases he
    exact hm _ _ _ hex
  · rw [exec_bind_ok hex] at h
    exact hf a _ _ _ h

lemma calm_transfer (fa ta : Bytes) (amount : ℤ) : Calm (transfer su fa ta amount) :=
  .bind (.failIf rfl) fun _ => .bind (.reads _) fun _ => .bind (.reads _) fun _ => .bind (.failIf rfl) fun _ =>
    .bind (.failIf rfl) fun _ => .bind (.modify _) fun _ => .bind (.modify _) fun _ => .pure _

lemma calm_execWithdraw (ex ad : Bytes) (amount : ℤ) : Calm (execWithdraw su ex ad amount) :=
  .bind (.failIf rfl) fun _ => .bind (.failIf rfl) fun _ => .bind (.reads _) fun _ =>
    .bind (.failIf rfl) fun _ => .bind (.modify _) fun _ => .pure _

lemma calm_execIssueCoins (ex : Bytes) (amount : ℤ) : Calm (execIssueCoins su ex amount) :=
  .bind (.failIf rfl) fun _ => .bind (.failIf rfl) fun _ => .bind (.reads _) fun _ => .bind (.modify _) fun _ => .pure _

/-- An error is not a panic and leaves the database as it was. -/
def Undone (db : KVDB) (m : M Receipt) : Prop :=
  ∀ e db', m.exec db = (.error e,db') → e.isPanic = false ∧ db' = db

lemma Undone.failIf [Decidable c] (he : e.isPanic = false) (h : ¬c → Undone db m) :
    Undone db (Proc.failIf c e >>= fun _ => m) := by
  intro e' db' hm
  by_cases hc : c
  · rw [exec_bind_error (by rw [exec_failIf,if_pos hc])] at hm
    obtain ⟨her,rfl⟩ := Prod.mk.inj hm
    cases her
    exact ⟨he,rfl⟩
  · rw [exec_bind_ok (by rw [exec_failIf,if_neg hc])] at hm
    exact h hc e' db' hm

lemma Undone.seq {m1 m2 : M Receipt} (h1 : Posts su db m1 g ps)
    (hc : Calm m1) (h2 : ∀ db', Labelled su db' → book su db' = postWord 64 (book su db) ps → Posts su db' m2 g2 ps2)
    (hg : g → g2) : Undone db (m1 >>= fun r1 => m2 >>= fun r2 => pure (mergeReceipt r1 r2)) := by
  intro e db' hm
  by_cases hg1 : g
  · obtain ⟨r1,db1,hm1,hdb1,hb⟩ := h1.ok hg1
    obtain ⟨r2,db2,hm2,-⟩ := (h2 db1 hdb1 hb).ok (hg hg1)
    rw [exec_bind_ok hm1,exec_bind_ok hm2] at hm
    cases hm
  · obtain ⟨e1,db1,hm1,hs⟩ := h1.fails hg1
    rw [exec_bind_error hm1] at hm
    obtain ⟨he,rfl⟩ := Prod.mk.inj hm
    cases he
    have hn := hc _ _ _ hm1
    exact ⟨hn,hs.resolve_left (by simp [hn])⟩

section
variable (hdb : Labelled su db) (a e : Address) (am : ℤ)
include hdb

lemma transferToExec_undone : Undone db (transferToExec su a.text e.text am) :=
  .seq (transfer_posts hdb a e am) (calm_transfer _ _ _)
    (fun _ hdb' _ => (execDeposit_posts hdb' a e am).orPanic) fun hg => ⟨hg.2.1,hg.1⟩

lemma execDepositFrozen_undone : Undone db (execDepositFrozen su a.text e.text am) :=
  .failIf rfl fun hne => .seq (execIssueCoins_posts hdb e am) (calm_execIssueCoins _ _)
    (fun _ hdb' _ => depositFrozen_posts hdb' a e am) fun hg => ⟨fun h => hne (by rw [h]),hg.2⟩

lemma transferWithdraw_undone : Undone db (transferWithdraw su a.text e.text am) := by
  have ha : transferWithdraw su a.text e.text am =
      Proc.failIf (checkAmount am = false) .errAmount >>= fun _ => loadAccount su e.text >>= fun acc =>
        Proc.failIf (int64 (acc.balance-am) < 0) .errNoBalance >>= fun _ =>
          execWithdraw su e.text a.text am >>= fun r1 =>
            orPanic (transfer su e.text a.text am) >>= fun r2 => pure (mergeReceipt r1 r2) := by
    simp only [transferWithdraw,checkTransfer,bind_assoc]
  rw [ha]
  refine .failIf rfl fun _ e' db' hm => ?_
  rw [exec_bind_ok (exec_loadAccount e)] at hm
  revert e' db' hm
  exact Undone.failIf rfl fun hc => .seq (execWithdraw_posts hdb e a am) (calm_execWithdraw _ _ _)
    (fun _ => transfer_after_withdraw a e am) fun hg => ⟨hg.2.1,hg.1.symm,not_lt.mp hc⟩

end

/-- **Operations of two steps.** None of them comes to the panic behind its first step, and
where one returns an error the database is as before. -/
theorem two_steps_undone (hdb : Labelled su db) (a e : Address) (amount : ℤ) :
    ∀ m ∈ [transferToExec su a.text e.text amount,transferWithdraw su a.text e.text amount,
      execDepositFrozen su a.text e.text amount], ∀ err db', m.exec db = (.error err,db') →
        err.isPanic = false ∧ db' = db := by
  intro m hm
  simp only [mem_cons,not_mem_nil,or_false] at hm
  rcases hm with rfl | rfl | rfl
  · exact transferToExec_undone hdb a e amount
  · exact transferWithdraw_undone hdb a e amount
  · exact execDepositFrozen_undone hdb a e amount

def alice : Address := ⟨[1],by decide,by decide⟩

def shop : Address := ⟨[2],by decide,by decide⟩

def bare : Setup := ⟨[],[[2]],id,id,[]⟩

/-- Both have a balance of 9, and 4 of it is what the one has inside the contract of the other. -/
def filled : KVDB := update (update (update (fun _ => none) ((Holder.main alice).key bare) (some ⟨0,9,0,[1]⟩))
  ((Holder.main shop).key bare) (some ⟨0,9,0,[2]⟩)) ((Holder.exec shop alice).key bare) (some ⟨0,4,0,[1]⟩)

/-- Each operation goes through with both steps, and a withdrawal of more than there is inside the contract fails. -/
theorem two_steps_undone_filled : Labelled bare filled ∧
    (∀ m ∈ [transferToExec bare [1] [2] 5,transferWithdraw bare [1] [2] 4,execDepositFrozen bare [1] [2] 3],
      (m.exec filled).1.isOk = true) ∧
    ∃ err, (transferWithdraw bare [1] [2] 5).exec filled = (.error err,filled) ∧ err.isPanic = false := by
  have hdb : Labelled bare filled := .update (.update (.update (fun _ => rfl) rfl) rfl) rfl
  refine ⟨hdb,by decide +kernel,?_⟩
  rcases hex : (transferWithdraw bare [1] [2] 5).exec filled with ⟨err | r,db'⟩
  · obtain ⟨hp,rfl⟩ := two_steps_undone hdb alice shop 5 _ (mem_cons_of_mem _ mem_cons_self) err db' hex
    exact ⟨err,rfl,hp⟩
  · have hf : ((transferWithdraw bare [1] [2] 5).exec filled).1.isOk = false := by decide +kernel
    rw [hex] at hf
    cases hf

end
end Dpos.AccountDB
