import Dpos.ExecList
import Dpos.StateRun

/-! The transactions and groups that `procExecTxList` comes to, one after the other, and
what each leaves in the state database. Later transactions read the state database, while
the state of the block is built from the receipts alone. -/
namespace Dpos.Executor

open KeyIndex StateDB List

section
variable {Loc : Type} {env : Env Loc}

/-- A transaction or a group in the loop: its transactions, the index, the state before, the outcome
and the state after. -/
structure Visit (Loc : Type) where
  txs : List Transaction
  index : ℕ
  before : State Loc
  result : Except Panic (Except Err (List Receipt))
  after : State Loc

def Visit.receipts (visit : Visit Loc) : List Receipt :=
  match visit.result with
  | .ok (.ok receipts) => receipts
  | .ok (.error err) => replicate visit.txs.length (newErrReceipt err)
  | .error _ => []

/-- Neither a panic nor an API error ends the list here. -/
def Visit.Processed (visit : Visit Loc) : Prop :=
  match visit.result with
  | .ok (.ok _) => True
  | .ok (.error err) => err.isAPIEnvError = false
  | .error _ => False

/-- What `execTxs` comes to, in its order. -/
def visits (env : Env Loc) : List Transaction → ℕ → ℕ → State Loc → List (Visit Loc)
  | [], _, _, _ => []
  | _ :: rest, skip+1, index, s => visits env rest skip index s
  | tx :: rest, 0, index, s =>
    match unitSize env tx rest with
    | .error err => ⟨[tx],index,s,.ok (.error err),s⟩ :: visits env rest 0 index s
    | .ok n =>
      let r := (execUnit env tx (rest.take (n-1)) index).exec s
      ⟨tx :: rest.take (n-1),index,s,r.1,r.2⟩ :: match r.1 with
        | .ok (.ok _) => visits env rest (n-1) (index+n) r.2
        | .ok (.error err) => if err.isAPIEnvError then [] else visits env rest (n-1) index r.2
        | .error _ => []

def listVisits (env : Env Loc) (txs : List Transaction) (stateDB : StateDB) (localDB : Loc) :
    List (Visit Loc) := visits {env with txs := txs} txs 0 0 ⟨stateDB,localDB,[]⟩

variable {tx : Transaction} {rest : List Transaction} {n : ℕ}

lemma unitSize_error {err : Err} (h : unitSize env tx rest = .error err) : err.isAPIEnvError = false := by
  unfold unitSize at h
  split_ifs at h <;> obtain rfl := Except.error.inj h <;> rfl

lemma single_of_unitSize (h : unitSize env tx rest = .ok n) (hc : tx.groupCount = 0) :
    rest.take (n-1) = [] := by
  rw [(unitSize_bounds h).2.2 hc]
  rfl

/-- What holds of every visit holds of the first, and of the others from where it leaves off. -/
theorem visits_induction {P : List Transaction → ℕ → ℕ → State Loc → List (Visit Loc) → Prop}
    (nil : ∀ skip index s, P [] skip index s [])
    (skip : ∀ tx rest skip index s, P rest skip index s (visits env rest skip index s) →
      P (tx :: rest) (skip+1) index s (visits env rest skip index s))
    (re : ∀ tx rest index s err, unitSize env tx rest = .error err →
      P rest 0 index s (visits env rest 0 index s) →
      P (tx :: rest) 0 index s (⟨[tx],index,s,.ok (.error err),s⟩ :: visits env rest 0 index s))
    (st : ∀ tx rest index s n r s', unitSize env tx rest = .ok n →
      (execUnit env tx (rest.take (n-1)) index).exec s = (r,s') →
      ¬(⟨tx :: rest.take (n-1),index,s,r,s'⟩ : Visit Loc).Processed →
      P (tx :: rest) 0 index s [⟨tx :: rest.take (n-1),index,s,r,s'⟩])
    (f : ∀ tx rest index s n err s', unitSize env tx rest = .ok n →
      (execUnit env tx (rest.take (n-1)) index).exec s = (.ok (.error err),s') →
      err.isAPIEnvError = false → P rest (n-1) index s' (visits env rest (n-1) index s') →
      P (tx :: rest) 0 index s (⟨tx :: rest.take (n-1),index,s,.ok (.error err),s'⟩ ::
        visits env rest (n-1) index s')) (done : ∀ tx rest index s n receipts s', unitSize env tx rest = .ok n →
      (execUnit env tx (rest.take (n-1)) index).exec s = (.ok (.ok receipts),s') →
      P rest (n-1) (index+n) s' (visits env rest (n-1) (index+n) s') →
      P (tx :: rest) 0 index s (⟨tx :: rest.take (n-1),index,s,.ok (.ok receipts),s'⟩ ::
        visits env rest (n-1) (index+n) s')) (txs : List Transaction) (n index : ℕ) (s : State Loc) :
    P txs n index s (visits env txs n index s) := by
  induction txs generalizing n index s with
  | nil => exact nil n index s
  | cons tx rest ih =>
    cases n with
    | succ n => exact skip tx rest n index s (ih n index s)
    | zero =>
      unfold visits
      split
      · rename_i err he
        exact re tx rest index s err he (ih 0 index s)
      · rename_i n hn
        rcases hrun : (execUnit env tx (rest.take (n-1)) index).exec s with ⟨sp | ⟨err | receipts⟩,s'⟩
        · exact st tx rest index s n _ s' hn hrun id
        · dsimp only
          split_ifs with happi
          · exact st tx rest index s n _ s' hn hrun (by simp [Visit.Processed,happi])
          · exact f tx rest index s n err s' hn hrun (by simpa using happi) (ih _ _ _)
        · exact done tx rest index s n receipts s' hn hrun (ih _ _ _)

lemma visits_single (txs : List Transaction) (skip index : ℕ) (s : State Loc) :
    ∀ visit ∈ visits env txs skip index s, ∀ tx ms, visit.txs = tx :: ms → tx.groupCount = 0 → ms = [] := by
  have hu : ∀ (tx : Transaction) (rest : List Transaction) n, unitSize env tx rest = .ok n →
      ∀ tx' ms, tx :: rest.take (n-1) = tx' :: ms → tx'.groupCount = 0 → ms = [] := by
    rintro tx rest n hn tx' ms ht
    obtain ⟨rfl,rfl⟩ := cons.inj ht
    exact single_of_unitSize hn
  refine visits_induction (P := fun _ _ _ _ vs => ∀ visit ∈ vs, ∀ tx ms,
    visit.txs = tx :: ms → tx.groupCount = 0 → ms = []) ?_ ?_ ?_ ?_ ?_ ?_ txs skip index s
  · simp
  · exact fun tx rest skip index s ih => ih
  · intro tx rest index s err he ih
    refine forall_mem_cons.mpr ⟨fun tx' ms ht _ => ?_,ih⟩
    exact (cons.inj ht).2.symm
  · exact fun tx rest index s n r s' hn _ _ => forall_mem_singleton.mpr (hu tx rest n hn)
  · exact fun tx rest index s n err s' hn _ _ ih => forall_mem_cons.mpr ⟨hu tx rest n hn,ih⟩
  · exact fun tx rest index s n rs s' hn _ ih => forall_mem_cons.mpr ⟨hu tx rest n hn,ih⟩

lemma getLastD_after (s : State Loc) (visit : Visit Loc) (rest : List (Visit Loc)) :
    ((visit :: rest).map Visit.after).getLastD s = (rest.map Visit.after).getLastD visit.after := by
  cases rest <;> rfl

/-- The visits account for the whole of a list that is answered with receipts. -/
theorem execTxs_visits (txs : List Transaction) (skip index : ℕ) (s s' : State Loc)
    (res : List Receipt) (h : (execTxs env txs skip index).exec s = (.ok (.ok res),s')) :
    res = (visits env txs skip index s).flatMap Visit.receipts ∧
      s' = ((visits env txs skip index s).map Visit.after).getLastD s ∧
        ∀ visit ∈ visits env txs skip index s, visit.Processed := by
  revert res h
  refine visits_induction (P := fun txs skip index s vs => ∀ res,
    (execTxs env txs skip index).exec s = (.ok (.ok res),s') →
      res = vs.flatMap Visit.receipts ∧ s' = (vs.map Visit.after).getLastD s ∧
        ∀ visit ∈ vs, visit.Processed) ?_ ?_ ?_ ?_ ?_ ?_ txs skip index s
  · intro skip index s res h
    obtain ⟨hr,rfl⟩ := Prod.mk.inj h
    cases Except.ok.inj hr
    exact ⟨rfl,rfl,by simp⟩
  · intro tx rest skip index s ih res h
    exact ih res h
  · intro tx rest index s err he ih res h
    simp only [execTxs,he] at h
    obtain ⟨rs,hre,rfl⟩ := exec_map_ok h
    obtain ⟨rfl,rfl,hp⟩ := ih rs hre
    refine ⟨rfl,by rw [getLastD_after],?_⟩
    exact forall_mem_cons.mpr ⟨unitSize_error he,hp⟩
  · intro tx rest index s n r s1 hn hrun hs res h
    simp only [execTxs,hn,Proc.exec_bind,hrun] at h
    rcases r with st | ⟨err | rs⟩
    · cases h
    · have happi : err.isAPIEnvError = true := by simpa [Visit.Processed] using hs
      simp [happi] at h
    · exact absurd trivial hs
  · intro tx rest index s n err s1 hn hrun happi ih res h
    simp only [execTxs,hn,Proc.exec_bind_ok hrun,happi,Bool.false_eq_true,if_false] at h
    obtain ⟨rs,hre,rfl⟩ := exec_map_ok h
    obtain ⟨rfl,rfl,hp⟩ := ih rs hre
    have hlength : (tx :: rest.take (n-1)).length = n := by
      obtain ⟨h1,h2,-⟩ := unitSize_bounds hn
      rw [length_cons,length_take]
      omega
    refine ⟨?_,by rw [getLastD_after],?_⟩
    · simp only [flatMap_cons,Visit.receipts,hlength]
    · exact forall_mem_cons.mpr ⟨happi,hp⟩
  · intro tx rest index s n rs0 s1 hn hrun ih res h
    simp only [execTxs,hn,Proc.exec_bind_ok hrun] at h
    obtain ⟨rs,hre,rfl⟩ := exec_map_ok h
    obtain ⟨rfl,rfl,hp⟩ := ih rs hre
    refine ⟨rfl,by rw [getLastD_after],?_⟩
    exact forall_mem_cons.mpr ⟨trivial,hp⟩

/-- Each visit has a receipt for each of its transactions, and together they are the list. -/
theorem visits_account (txs : List Transaction) (skip index : ℕ) (s : State Loc)
    (h : ∀ visit ∈ visits env txs skip index s, visit.Processed) :
    (visits env txs skip index s).flatMap Visit.txs = txs.drop skip ∧
      ∀ visit ∈ visits env txs skip index s, visit.receipts.length = visit.txs.length := by
  have hu : ∀ (tx : Transaction) (rest : List Transaction) n, unitSize env tx rest = .ok n →
      tx :: rest.take (n-1) ++ rest.drop (n-1) = tx :: rest := by simp
  revert h
  refine visits_induction (P := fun txs skip _ _ vs => (∀ visit ∈ vs, visit.Processed) →
    vs.flatMap Visit.txs = txs.drop skip ∧ ∀ visit ∈ vs, visit.receipts.length = visit.txs.length)
    ?_ ?_ ?_ ?_ ?_ ?_ txs skip index s
  · simp
  · exact fun tx rest skip index s ih h => ih h
  · intro tx rest index s err he ih h
    obtain ⟨ht,hlength⟩ := ih (forall_mem_cons.mp h).2
    exact ⟨by rw [flatMap_cons,ht]; rfl,forall_mem_cons.mpr ⟨rfl,hlength⟩⟩
  · intro tx rest index s n r s' hn hrun hs h
    exact absurd (h _ mem_cons_self) hs
  · intro tx rest index s n err s' hn hrun happi ih h
    obtain ⟨ht,hlength⟩ := ih (forall_mem_cons.mp h).2
    exact ⟨by rw [flatMap_cons,ht]; exact hu tx rest n hn,forall_mem_cons.mpr ⟨length_replicate,hlength⟩⟩
  · intro tx rest index s n rs s' hn hrun ih h
    obtain ⟨ht,hlength⟩ := ih (forall_mem_cons.mp h).2
    exact ⟨by rw [flatMap_cons,ht]; exact hu tx rest n hn,
      forall_mem_cons.mpr ⟨execUnit_length (single_of_unitSize hn) hrun,hlength⟩⟩

/-- The transactions that the loop takes at a place are inside the list, and a list that is answered
with receipts has one for each transaction, in their order. -/
theorem procExecTxList_accounts (env : Env Loc) (txs : List Transaction) (stateDB : StateDB) (localDB : Loc) :
    (∀ i tx rest n, txs.drop i = tx :: rest → unitSize {env with txs := txs} tx rest = .ok n →
      0 < n ∧ i+n ≤ txs.length) ∧
    ∀ receipts, procExecTxList env txs stateDB localDB = .ok (.ok receipts) →
      receipts.length = txs.length ∧ (listVisits env txs stateDB localDB).flatMap Visit.txs = txs ∧
        (listVisits env txs stateDB localDB).flatMap Visit.receipts = receipts ∧
        ∀ visit ∈ listVisits env txs stateDB localDB, visit.receipts.length = visit.txs.length := by
  constructor
  · intro i tx rest n hd hn
    obtain ⟨hp,hl,-⟩ := unitSize_bounds hn
    have hlength := congrArg length hd
    rw [length_drop,length_cons] at hlength
    exact ⟨hp,by omega⟩
  · intro receipts hrun
    unfold procExecTxList at hrun
    rcases he : (execTxs {env with txs := txs} txs 0 0).exec ⟨stateDB,localDB,[]⟩ with ⟨r,s'⟩
    rw [he] at hrun
    cases hrun
    obtain ⟨rfl,-,hpr⟩ := execTxs_visits txs 0 0 _ s' receipts he
    obtain ⟨ht,hlength⟩ := visits_account txs 0 0 _ hpr
    refine ⟨?_,ht,rfl,hlength⟩
    have hto := congrArg length ht
    rw [length_flatMap,drop_zero] at hto
    rw [← hto,length_flatMap]
    exact congrArg sum (map_congr_left hlength)

variable (hheight : env.height ≠ 0) (hro : env.isFork .execRollback = true)
  (hse : env.isFork .stateDBSet = true)

include hheight hro hse in
lemma execTx_unitEnds (tx : Transaction) (index : ℕ) (v : View) :
    Leads (Idle v) (execTx env tx index) fun r s => UnitEnds env v [tx] index s (r.map fun re => [re]) := by
  unfold execTx
  rw [if_neg hheight]
  split
  · split
    · exact .throw _
    · exact .pure fun s hs => .refused hs
  · refine .bind (execFee_charged tx index v) fun r => ?_
    cases r with
    | error err => exact .pure fun s hs => .refused hs
    | ok f =>
      refine .of_start fun s0 hs0 => ?_
      obtain ⟨hidle,hf⟩ := hs0
      have hc : ∃ head ∈ [tx].head?, feeKVs env v head index = some f.kv := ⟨tx,rfl,hf⟩
      refine .bind ((begin_inTx hro).started hidle) fun _ => ?_
      refine .bind (execTxOne_member hse f tx index []) fun r => ?_
      obtain ⟨re,err⟩ := r
      cases err with
      | some err =>
        refine .of_start ?_
        rintro s1 ⟨-,⟨hk,kvs,ks,hs1⟩,-⟩
        refine .bind ((rollback_idle hro ks).started hs1) fun _ => ?_
        split
        · rename_i happi
          exact .pure fun s _ => .api happi
        · refine .pure fun s hs => .undone ⟨hc,.nil ..⟩ hs ?_
          have hk : re.kv = f.kv := hk
          simp [hk]
      | none =>
        refine .of_start ?_
        rintro s1 ⟨entries,⟨hk,ks,hs1⟩,hr⟩
        have hk : re.kv = f.kv ++ getKV entries := hk
        rw [nil_append,hk] at hs1
        have hv : applied (writeAll v f.kv) (f.kv ++ getKV entries) =
            applied (writeAll v f.kv) [getKV entries].flatten := by
          rw [applied,overlay_writeAll_of_held (held_writeAll hf)]
          simp [applied]
        have hran : Ran env v [tx] index f.kv [getKV entries] := ⟨hc,.cons (hr rfl) (.nil ..)⟩
        refine .bind ((commit_idle hro ks).started hs1) fun err => ?_
        rw [hv]
        cases err with
        | some err => exact .pure fun s hs => .unlocal hran hs.1 hs.2
        | none => exact .pure fun s hs => .whole hran rfl hs.1 (by simp [hk,joined])

include hheight hro hse in
lemma execUnit_unitEnds (tx : Transaction) (ms : List Transaction) (index : ℕ)
    (hsi : tx.groupCount = 0 → ms = []) (v : View) :
    Leads (Idle v) (execUnit env tx ms index) fun r s => UnitEnds env v (tx :: ms) index s r := by
  unfold execUnit
  split
  · rename_i hc
    rw [hsi hc]
    refine .bind (execTx_unitEnds hheight hro hse tx index v) fun r => ?_
    cases r with
    | error err => exact .pure fun s hs => hs
    | ok re => exact .pure fun s hs => hs
  · refine .bind (execTxGroup_unitEnds hro hse (tx :: ms) index v) fun r => ?_
    cases r with
    | error err => exact .pure fun s hs => hs
    | ok rs =>
      refine .bind (Q := fun _ s => UnitEnds env v (tx :: ms) index s (.ok rs)) ?_ fun _ => ?_
      · exact .failIf fun _ s hs => hs
      · exact .pure fun s hs => hs

structure Visit.Sound (env : Env Loc) (visit : Visit Loc) : Prop where
  idle : visit.before.stateDB.intx = false
  ends : ∀ r, visit.result = .ok r → UnitEnds env visit.before.stateDB.view visit.txs visit.index visit.after r

variable {v : View} {txs : List Transaction} {index : ℕ} {s : State Loc} {kvss : List (List KV)} {visit : Visit Loc}

lemma UnitEnds.intx {r : Except Err (List Receipt)} (h : UnitEnds env v txs index s r)
    (happi : ∀ err, r = .error err → err.isAPIEnvError = false) : s.stateDB.intx = false := by
  cases h with
  | api h => simp [happi _ rfl] at h
  | refused hidle => exact hidle.1
  | unlocal _ hidle _ => exact hidle.1
  | whole _ _ hidle _ => exact hidle.1
  | undone _ hidle _ => exact hidle.1

include hheight hro hse in
lemma sound_unit {index : ℕ} {s s' : State Loc} {r : Except Panic (Except Err (List Receipt))}
    (hidle : s.stateDB.intx = false) (hn : unitSize env tx rest = .ok n)
    (hrun : (execUnit env tx (rest.take (n-1)) index).exec s = (r,s')) :
    (⟨tx :: rest.take (n-1),index,s,r,s'⟩ : Visit Loc).Sound env := by
  refine ⟨hidle,?_⟩
  rintro r rfl
  exact execUnit_unitEnds hheight hro hse tx _ index (single_of_unitSize hn) _ s r s' ⟨hidle,rfl⟩
    hrun

include hheight hro hse in
lemma visits_sound (txs : List Transaction) (skip index : ℕ) (s : State Loc)
    (hidle : s.stateDB.intx = false) : ∀ visit ∈ visits env txs skip index s, visit.Sound env := by
  revert hidle
  refine visits_induction (P := fun txs skip index s vs => s.stateDB.intx = false →
    ∀ visit ∈ vs, visit.Sound env) ?_ ?_ ?_ ?_ ?_ ?_ txs skip index s
  · simp
  · exact fun tx rest skip index s ih => ih
  · intro tx rest index s err he ih hidle
    refine forall_mem_cons.mpr ⟨⟨hidle,?_⟩,ih hidle⟩
    rintro r hr
    cases hr
    exact .refused ⟨hidle,rfl⟩
  · intro tx rest index s n r s' hn hrun _ hidle
    exact forall_mem_singleton.mpr (sound_unit hheight hro hse hidle hn hrun)
  · intro tx rest index s n err s' hn hrun happi ih hidle
    have hs := sound_unit hheight hro hse hidle hn hrun
    refine forall_mem_cons.mpr ⟨hs,ih ((hs.ends _ rfl).intx ?_)⟩
    rintro err' he
    cases he
    exact happi
  · intro tx rest index s n rs s' hn hrun ih hidle
    have hs := sound_unit hheight hro hse hidle hn hrun
    exact forall_mem_cons.mpr ⟨hs,ih ((hs.ends _ rfl).intx (by simp))⟩

def NonNil (ld : Transaction → ℕ → Driver Loc) : Prop :=
  ∀ tx index v loc, ((ld tx index).exec v loc tx index).All fun out =>
    ∀ receipt, out.result = .ok (.ok receipt) → ∀ kv ∈ getKV receipt, kv.2.isSome

lemma Returns.nonNil (hl : NonNil env.loadDriver)
    {r : Option Receipt} (h : Returns env v tx index r) : ∀ kv ∈ getKV r, kv.2.isSome := by
  obtain ⟨loc,out,ha,hr⟩ := h
  have hal := hl tx index v loc
  cases he : (env.loadDriver tx index).exec v loc tx index with
  | reply out' =>
    rw [he] at ha hal
    cases ha
    exact hal r hr
  | ask k =>
    rw [he] at ha hal
    cases hg : getTxGroup env index with
    | error st =>
      rw [answer,hg] at ha
      cases ha
    | ok g =>
      rw [answer,hg] at ha
      cases ha
      exact hal g r hr

lemma Succeed.nonNil (hl : NonNil env.loadDriver) {base : View} {p : List KV}
        (h : Succeed env base p txs index kvss) : ∀ kv ∈ kvss.flatten, kv.2.isSome := by
  induction h with
  | nil => simp
  | cons head tail ih =>
    rw [flatten_cons]
    exact forall_mem_append.mpr ⟨head.nonNil hl,ih⟩

lemma flatten_joined (fee : List KV) (h : kvss ≠ []) : (joined fee kvss).flatten = fee ++ kvss.flatten := by
  cases kvss with
  | nil => exact absurd rfl h
  | cons kvs kvss => simp [joined]

variable (hr : env.isFork .resetTx0 = true)
  (hlocal : ∀ loc err, (env.localCommit loc).2 = some err → err.isAPIEnvError = true) (hld : NonNil env.loadDriver)

include hr hlocal hld in
/-- What is processed shows in the state database as it does in the receipts. -/
theorem Visit.Sound.shows (hs : visit.Sound env) (hp : visit.Processed) : visit.after.stateDB.view =
      writeAll visit.before.stateDB.view (visit.receipts.flatMap Receipt.kv) := by
  obtain ⟨txs,index,b,re,a⟩ := visit
  obtain st | r := re
  · exact hp.elim
  cases hs.ends r rfl with
  | api happi => simp [Visit.Processed,happi] at hp
  | refused hidle =>
    have he : ∀ n err, (replicate n (newErrReceipt err)).flatMap Receipt.kv = [] := by
      intro n err
      rw [flatMap_eq_nil_iff]
      intro rt hrc
      rw [eq_of_mem_replicate hrc]
      rfl
    rw [Visit.receipts,he]
    exact hidle.2
  | unlocal hran hidle hf =>
    obtain ⟨loc,hlo⟩ := hf
    simp [Visit.Processed,hlocal loc _ hlo] at hp
  | @whole receipts fee kvss hran hlength hidle hmap =>
    obtain ⟨head,hh,-⟩ := hran.charged
    have hne : kvss ≠ [] := by
      rintro rfl
      obtain rfl := eq_nil_of_length_eq_zero hlength.symm
      cases hh
    have hkvs : receipts.flatMap Receipt.kv = fee ++ kvss.flatten := by
      rw [flatMap_def,hmap,flatten_joined fee hne]
    calc a.stateDB.view = applied (writeAll b.stateDB.view fee) kvss.flatten := hidle.2
      _ = writeAll (writeAll b.stateDB.view fee) kvss.flatten :=
          overlay_writeAll_some (hran.progress.1.nonNil hld) _ _
      _ = writeAll b.stateDB.view (receipts.flatMap Receipt.kv) := by rw [hkvs,writeAll_append]
  | undone hran hidle hkvs =>
    rw [if_pos hr,append_nil] at hkvs
    rw [Visit.receipts,hkvs]
    exact hidle.2

/-- From `s` on, every visit finds the state that the one before has left, and only the last
may end the list. -/
def Linked (s : State Loc) : List (Visit Loc) → Prop
  | [] => True
  | visit :: rest => visit.before = s ∧ (rest ≠ [] → visit.Processed) ∧ Linked visit.after rest

lemma visits_linked (txs : List Transaction) (skip index : ℕ) (s : State Loc) :
    Linked s (visits env txs skip index s) := by
  refine visits_induction (P := fun _ _ _ s vs => Linked s vs) ?_ ?_ ?_ ?_ ?_ ?_ txs skip index s
  · exact fun _ _ _ => trivial
  · exact fun tx rest skip index s ih => ih
  · exact fun tx rest index s err he ih => ⟨rfl,fun _ => unitSize_error he,ih⟩
  · exact fun tx rest index s n r s' hn hrun hs => ⟨rfl,fun h => absurd rfl h,trivial⟩
  · exact fun tx rest index s n err s' hn hrun happi ih => ⟨rfl,fun _ => happi,ih⟩
  · exact fun tx rest index s n rs s' hn hrun ih => ⟨rfl,fun _ => trivial,ih⟩

def entries (vs : List (Visit Loc)) : List KV := vs.flatMap fun visit => visit.receipts.flatMap Receipt.kv

include hr hlocal hld in
lemma Linked.shows {done rest : List (Visit Loc)} (hl : Linked s (done ++ visit :: rest))
    (hs : ∀ v ∈ done ++ visit :: rest, v.Sound env) (hp : visit.Processed) :
    visit.after.stateDB.view = writeAll s.stateDB.view (entries (done ++ [visit])) := by
  induction done generalizing s with
  | nil =>
    obtain ⟨rfl,-,-⟩ := hl
    simpa [entries] using (hs visit (by simp)).shows hr hlocal hld hp
  | cons first done ih =>
    obtain ⟨rfl,hf1,hl⟩ := hl
    have hvi := (hs first (by simp)).shows hr hlocal hld (hf1 (by simp))
    have hre := ih hl fun v hv => hs v (mem_cons_of_mem _ hv)
    rw [hre,hvi,← writeAll_append]
    simp [entries]

/-- **The state database shows the receipts**: after every transaction or group that is
processed, what it holds is the state of the previous block overlaid with the entries of all
receipts so far. This is with ForkExecRollback, ForkResetTx0 and ForkStateDBSet active,
except in the genesis block, for drivers without nil values and a local database that fails to
commit only when the API does. -/
theorem listVisits_shows (env : Env Loc) (hheight : env.height ≠ 0)
    (hro : env.isFork .execRollback = true) (hr : env.isFork .resetTx0 = true)
    (hse : env.isFork .stateDBSet = true)
    (hlocal : ∀ loc err, (env.localCommit loc).2 = some err → err.isAPIEnvError = true)
    (hl : NonNil env.loadDriver) (txs : List Transaction) (store : View) (mvcc : Bool)
    (localDB : Loc) (done rest : List (Visit Loc)) (visit : Visit Loc)
    (hv : listVisits env txs (.new store mvcc) localDB = done ++ visit :: rest)
    (hp : visit.Processed) (key : Bytes) :
    (visit.after.stateDB.get key).1 = writeAll store (entries (done ++ [visit])) key := by
  have hs := @visits_sound Loc {env with txs := txs} hheight hro hse txs 0 0 ⟨.new store mvcc,localDB,[]⟩ rfl
  have hli := @visits_linked Loc {env with txs := txs} txs 0 0 ⟨.new store mvcc,localDB,[]⟩
  rw [listVisits] at hv
  rw [hv] at hs hli
  rw [get_value,hli.shows (by exact hr) (by exact hlocal) (by exact hl) hs hp]
  rfl

end

/-- In the genesis block the entries of the receipts are not set. -/
theorem listVisits_hides : ¬∀ (env : Env Unit), env.isFork .execRollback = true →
    env.isFork .resetTx0 = true → env.isFork .stateDBSet = true →
    (∀ loc err, (env.localCommit loc).2 = some err → err.isAPIEnvError = true) →
    NonNil env.loadDriver → ∀ (txs : List Transaction) (store : View) (mvcc : Bool)
      (done rest : List (Visit Unit)) (visit : Visit Unit),
      listVisits env txs (.new store mvcc) () = done ++ visit :: rest → visit.Processed →
        ∀ key, (visit.after.stateDB.get key).1 = writeAll store (entries (done ++ [visit])) key := by
  intro h
  have hk := h {openEnv (fun _ => true) (fun _ _ => fixedDriver silent) with height := 0}
    rfl rfl rfl (by simp [openEnv]) ?_ [plainTx [1] 0 []] (fun _ => none) false [] [] _ rfl trivial [1]
  · revert hk
    decide
  · intro tx index v loc receipt hr
    cases Except.ok.inj hr
    decide

theorem listVisits_shows_pair : ∃ visit : Visit Unit,
    listVisits (openEnv (fun _ => true) fun _ _ => fixedDriver silent) pair (.new (fun _ => none) false)
      () = [visit] ∧ (visit.after.stateDB.get [1]).1 = writeAll (fun _ => none) (entries [visit]) [1] := by
  refine ⟨_,rfl,listVisits_shows (openEnv (fun _ => true) fun _ _ => fixedDriver silent)
    (by decide) rfl rfl rfl (by simp [openEnv]) ?_ pair _ false () [] [] _ rfl trivial [1]⟩
  intro tx index v loc receipt hr
  cases Except.ok.inj hr
  decide

end Dpos.Executor
