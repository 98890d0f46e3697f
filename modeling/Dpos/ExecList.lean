import Dpos.ExecGroup
import Dpos.ExecTwin

/-! Executing a list again without the transactions that were refused. A driver may
look up the group of its transaction at the index it is given; that index counts the
transactions that were not refused, while the list it is looked up in has them all. -/
namespace Dpos.Executor

open KeyIndex StateDB List Except

variable {ok : ℕ → Prop}

section
variable {Loc α : Type} {env : Env Loc} {tx : Transaction} {index : ℕ} {ms : List Transaction} {r : Reaction α}

def Receipt.Accepted (receipt : Receipt) : Prop := receipt.ty ≠ execErr

instance (receipt : Receipt) : Decidable receipt.Accepted := inferInstanceAs (Decidable (_ ≠ _))

def kept (txs : List Transaction) (receipts : List Receipt) : List Transaction :=
  ((txs.zip receipts).filter fun p => p.2.Accepted).map Prod.fst

def Reaction.All {α : Type} (P : α → Prop) : Reaction α → Prop
  | .reply a => P a
  | .ask k => ∀ group, P (k group)

/-- No driver gives its receipt the type of a refused transaction. -/
def Honest (ld : Transaction → ℕ → Driver Loc) : Prop :=
  ∀ tx index v loc, ((ld tx index).exec v loc tx index).All fun out =>
    ∀ receipt, out.result = .ok (.ok (some receipt)) → receipt.Accepted

/-! ### Receipts of executed transactions -/

lemma leads_consult_all {P : α → Prop} (h : r.All P) :
    Leads (fun _ => True) (consult env index r) fun a _ => P a := by
  cases r with
  | reply a => exact .pure fun _ _ => h
  | ask k =>
    refine .bind (Q := fun _ _ => True) (.modify fun _ _ => trivial) fun _ => ?_
    cases getTxGroup env index with
    | error s => exact .throw _
    | ok g => exact .pure fun _ _ => h g

lemma accepted_pack : packReceipt.Accepted := by decide

lemma exec_accepted (hl : Honest env.loadDriver) (tx : Transaction) (index : ℕ) :
    Leads (fun _ => True) (exec env tx index) fun r _ => ∀ re, r = .ok (some re) → re.Accepted := by
  unfold exec
  split
  · exact .pure fun _ _ => by simp
  · refine .bind (.trivially _) fun fo => .bind (.trivially _) fun c => ?_
    cases c with
    | error err => exact .pure fun _ _ => by simp
    | ok =>
      refine .bind (leads_consult_all (hl tx index _ _)) fun out => ?_
      refine .bind (Q := fun _ _ => ∀ re, out.result = .ok (.ok (some re)) →
        re.Accepted) (.modify fun _ h => h) fun _ => ?_
      split
      · exact .throw _
      · rename_i result hre
        refine .pure fun _ h re hr => h re ?_
        rw [hre,hr]

lemma execTxOne_accepted (hl : Honest env.loadDriver) (feelog : Receipt) (tx : Transaction)
    (index : ℕ) (hf : feelog.Accepted) :
    Leads (fun _ => True) (execTxOne env feelog tx index) fun r _ => r.1.Accepted := by
  refine .bind (.trivially _) fun _ => .bind (exec_accepted hl tx index) fun r => ?_
  cases r with
  | error err => exact .pure fun _ _ => hf
  | ok re =>
    refine .fact fun hr => ?_
    refine .bind (.trivially _) fun ks => ?_
    split
    · exact .pure fun _ _ => hf
    · split
      · exact .pure fun _ _ => hf
      · refine .bind (.trivially _) fun err => ?_
        cases err with
        | some err => exact .pure fun _ _ => hf
        | none =>
          refine .bind (.trivially _) fun _ => .pure fun _ _ => ?_
          cases re with
          | none => exact hf
          | some re => exact hr re rfl

lemma execFee_accepted (tx : Transaction) (index : ℕ) :
    Leads (fun _ => True) (execFee env tx index) fun r _ => ∀ feelog, r = .ok feelog → feelog.Accepted := by
  refine .bind (.trivially _) fun r => ?_
  cases r with
  | error err => exact .pure fun _ _ => by simp
  | ok =>
    dsimp only
    split
    · unfold processFee
      refine .bind (.trivially _) fun acc => ?_
      split
      · refine .bind (.trivially _) fun _ => .pure ?_
        rintro s - feelog hf
        rw [← ok.inj hf]
        exact (by decide : execPack ≠ execErr)
      · exact .pure fun _ _ => by simp
    · refine .pure ?_
      rintro s - feelog hf
      rw [← ok.inj hf]
      exact accepted_pack

section
variable {P : Receipt → Prop} {I : State Loc → Prop} {E : Err → State Loc → Prop} {t : State Loc} {n : ℕ}

def Every (P : Receipt → Prop) (n : ℕ) (r : Except Err (List Receipt)) : Prop :=
  ∀ receipts, r = .ok receipts → receipts.length = n ∧ ∀ receipt ∈ receipts, P receipt

/-- Every receipt has `P`, or the error and the state have `E`. -/
def Yields (P : Receipt → Prop) (E : Err → State Loc → Prop) (n : ℕ) (r : Except Err (List Receipt))
    (t : State Loc) : Prop :=
  Every P n r ∧ ∀ err, r = .error err → E err t

lemma yields_error {err : Err} (h : E err t) : Yields P E n (.error err) t := by
  refine ⟨by simp [Every],?_⟩
  rintro _ ⟨⟩
  exact h

lemma yields_ok {rs : List Receipt} (hl : rs.length = n) (h : ∀ re ∈ rs, P re) :
    Yields P E n (.ok rs) t := by
  refine ⟨?_,by simp⟩
  rintro _ ⟨⟩
  exact ⟨hl,h⟩

variable (hpa : P packReceipt)
  (ho : ∀ feelog tx index, P feelog → Leads (fun _ => True) (execTxOne env feelog tx index) fun r _ => P r.1)
  (ha : ∀ err t, err.isAPIEnvError = true → E err t)
  (hc : Leads (fun _ => True) (commit env) fun e t => ∀ err, e = some err → E err t)
include hpa ho ha hc

lemma execMembers_yields {rl : Receipt} (hro : P rl) (txs : List Transaction)
    (head : Receipt) (done : List Receipt) (index : ℕ) (hd : ∀ re ∈ head :: done, P re) :
    Leads (fun _ => True) (execMembers env rl (head :: done) txs index)
      (Yields P E (done.length+1+txs.length)) := by
  induction txs generalizing done index with
  | nil =>
    refine .bind hc fun err => ?_
    cases err with
    | some err => exact .pure fun _ h => yields_error (h err rfl)
    | none => exact .pure fun _ _ => yields_ok (by simp) hd
  | cons tx txs ih =>
    refine .bind (ho packReceipt tx index hpa) fun r => ?_
    obtain ⟨re,_ | err⟩ := r
    · refine .fact fun hrc => ?_
      have hre := ih (done ++ [re]) (index+1) (by
        intro r hr
        simp only [mem_cons,mem_append,not_mem_nil,or_false] at hr
        rcases hr with rfl | hr | rfl
        · exact hd r (by simp)
        · exact hd r (by simp [hr])
        · exact hrc)
      have hl : (done ++ [re]).length+1+txs.length = done.length+1+(tx :: txs).length := by
        simp only [length_append,length_cons,length_nil]
        omega
      rwa [hl] at hre
    · dsimp only
      split
      · rename_i happi
        exact .pure fun t _ => yields_error (ha err t happi)
      · refine .fact fun hrc => ?_
        refine .bind (.trivially _) fun _ => .pure fun _ _ => yields_ok ?_ ?_
        · split <;> simp <;> omega
        · intro r hm
          simp only [mem_append,mem_map,mem_singleton,tail_cons] at hm
          rcases hm with ((hm | ⟨_,_,rfl⟩) | rfl) | ⟨_,_,rfl⟩
          · split at hm
            · rw [mem_singleton] at hm
              exact hm ▸ hro
            · simp only [take_succ_cons,take_zero,mem_singleton] at hm
              exact hd r (by simp [hm])
          · exact hpa
          · exact hrc
          · exact hpa

variable (hi : ∀ err t, I t → E err t)
  (hf : ∀ tx index, Leads I (execFee env tx index) fun r t =>
    (∀ feelog, r = .ok feelog → P feelog) ∧ ∀ err, r = .error err → E err t)
include hi hf

lemma execTxGroup_yields (txs : List Transaction) (index : ℕ) :
    Leads I (execTxGroup env txs index) (Yields P E txs.length) := by
  unfold execTxGroup
  split
  · rename_i err _
    exact .pure fun t h => yields_error (hi err t h)
  · cases txs with
    | nil => exact .throw _
    | cons head ms =>
      refine .bind (hf head index) fun r => ?_
      cases r with
      | error err => exact .pure fun _ h => yields_error (h.2 err rfl)
      | ok feelog =>
        refine .of_start fun t ht => ?_
        have hfl : P feelog := ht.1 feelog rfl
        refine .bind (.trivially _) fun _ => .bind (ho feelog head index hfl) fun r => ?_
        obtain ⟨re,_ | err⟩ := r
        · refine .fact fun hrc => ?_
          rw [length_cons,Nat.add_comm ms.length]
          exact execMembers_yields hpa ho ha hc hfl ms re [] (index+1) (by simpa using hrc)
        · dsimp only
          split
          · rename_i happi
            exact .pure fun t _ => yields_error (ha err t happi)
          · refine .fact fun hrc => .bind (.trivially _) fun _ => .pure fun _ _ => yields_ok (by simp) ?_
            intro r hm
            simp only [mem_cons,mem_map] at hm
            rcases hm with rfl | ⟨_,_,rfl⟩
            · exact hrc
            · exact hpa

variable (he : ∀ tx index, Leads (fun _ => True) (exec env tx index) fun r _ => ∀ re, r = .ok (some re) → P re)
include he

omit hpa in
lemma execTx_yields (tx : Transaction) (index : ℕ) :
    Leads I (execTx env tx index) fun r t => Yields P E 1 (r.map fun re => [re]) t := by
  have hone : ∀ re t, P re → Yields P E 1 (.ok [re]) t := fun re t h => yields_ok rfl (by simpa using h)
  unfold execTx
  split
  · refine .bind ((he tx index).before fun _ _ => trivial) fun r => ?_
    split
    · exact .pure fun t h => hone _ t (h _ rfl)
    · exact .throw _
  · split
    · split
      · exact .throw _
      · exact .pure fun t h => yields_error (hi _ t h)
    · refine .bind (hf tx index) fun r => ?_
      cases r with
      | error err => exact .pure fun _ h => yields_error (h.2 err rfl)
      | ok feelog =>
        refine .of_start fun t ht => .bind (.trivially _) fun _ => ?_
        refine .bind (ho feelog tx index (ht.1 feelog rfl)) fun r => .fact fun hrc => ?_
        obtain ⟨re,_ | err⟩ := r
        · refine .bind hc fun err => ?_
          cases err with
          | some err => exact .pure fun _ h => yields_error (h err rfl)
          | none => exact .pure fun t _ => hone re t hrc
        · refine .bind (.trivially _) fun _ => ?_
          split
          · rename_i happi
            exact .pure fun t _ => yields_error (ha err t happi)
          · exact .pure fun t _ => hone re t hrc

lemma execUnit_yields (tx : Transaction) (ms : List Transaction) (index : ℕ) (hs : tx.groupCount = 0 → ms = []) :
    Leads I (execUnit env tx ms index) (Yields P E (ms.length+1)) := by
  unfold execUnit
  split
  · rename_i hz
    rw [hs hz]
    refine .bind (execTx_yields ho ha hc hi hf he tx index) fun r => ?_
    cases r <;> exact .pure fun _ h => h
  · refine .bind (execTxGroup_yields hpa ho ha hc hi hf (tx :: ms) index) fun r => ?_
    cases r with
    | error err => exact .pure fun _ h => h
    | ok receipts =>
      refine .bind (Q := fun _ => Yields P E (ms.length+1) (.ok receipts)) (.failIf fun _ _ h => h) fun _ => ?_
      exact .pure fun _ h => h

end

/-- Whatever the drivers do, a unit that is not refused has a receipt for each of its transactions. -/
theorem execUnit_length {s s' : State Loc}
    {receipts : List Receipt} (hs : tx.groupCount = 0 → ms = [])
    (h : (execUnit env tx ms index).exec s = (.ok (.ok receipts),s')) : receipts.length = ms.length+1 :=
  (execUnit_yields (P := fun _ => True) (I := fun _ => True) (E := fun _ _ => True) trivial (fun _ _ _ _ => .trivially _)
    (fun _ _ _ => trivial) (.after (.trivially _) fun _ _ _ _ _ => trivial) (fun _ _ _ => trivial)
    (fun _ _ => .after (.trivially _) fun _ _ _ => ⟨fun _ _ => trivial,fun _ _ => trivial⟩)
    (fun _ _ => .after (.trivially _) fun _ _ _ _ _ => trivial) tx ms index hs s _ s' trivial h).1 receipts rfl |>.1

/-- A refusal leaves a state that no driver can tell from the one before. -/
def Refuses {α : Type} (s : State Loc) (r : Except Err α) (t : State Loc) : Prop :=
  ∀ err, r = .error err → err.isAPIEnvError = false → Alike s t

lemma refuses_ok (s t : State Loc) (a : α) : Refuses s (.ok a) t := by
  intro err h
  cases h

lemma leads_alike_consult (s : State Loc) (index : ℕ) (r : Reaction α) :
    Leads (Alike s) (consult env index r) fun _ t => Alike s t := by
  cases r with
  | reply a => exact .pure fun _ h => h
  | ask k =>
    refine .bind (Q := fun _ t => Alike s t) (.modify fun t h => ⟨h.stateDB,h.localDB⟩) fun _ => ?_
    cases getTxGroup env index with
    | error st => exact .throw _
    | ok g => exact .pure fun _ h => h

lemma execFee_refuses (s : State Loc) (tx : Transaction) (index : ℕ) :
    Leads (Alike s) (execFee env tx index) fun r t => Refuses s r t := by
  refine .bind (Q := fun _ t => Alike s t) ?_ fun r => ?_
  · unfold checkOwn
    refine .reads fun t ht => .before (I := Alike s) ?_ fun _ h => h ▸ ht
    dsimp only
    split
    · exact leads_alike_consult s index _
    · exact .pure fun _ h => h
  · cases r with
    | error err => exact .pure fun t h _ _ _ => h
    | ok =>
      dsimp only
      split
      · unfold processFee
        refine .bind (Q := fun _ t => Alike s t) ?_ fun acc => ?_
        · unfold loadAccount
          refine .reads fun t ht => .bind (Q := fun _ t => Alike s t) (.modify ?_) fun _ => ?_
          · rintro _ rfl
            exact ⟨ht.stateDB.trans (alike_get _ _),ht.localDB⟩
          · split
            · exact .pure fun _ h => h
            · exact .demand fun _ _ _ h => h
        · split
          · exact .bind (.trivially _) fun _ => .pure fun _ _ => refuses_ok _ _ _
          · exact .pure fun t h _ _ _ => h
      · exact .pure fun _ _ => refuses_ok _ _ _

lemma commit_none (hl : ∀ loc, (env.localCommit loc).2 = none) :
    Leads (fun _ => True) (commit env) fun err _ => err = none := by
  unfold commit
  split
  · refine .bind (.trivially _) fun _ => .reads fun t _ => ?_
    exact .bind (.trivially _) fun _ => .pure fun _ _ => hl _
  · exact .pure fun _ _ => rfl

lemma execUnit_complete (hl : ∀ loc, (env.localCommit loc).2 = none) (hld : Honest env.loadDriver) (s : State Loc)
    (tx : Transaction) (ms : List Transaction) (index : ℕ) (hs : tx.groupCount = 0 → ms = []) :
    Leads (Alike s) (execUnit env tx ms index) fun r t => Every Receipt.Accepted (ms.length+1) r ∧ Refuses s r t := by
  refine execUnit_yields (E := fun err t => err.isAPIEnvError = false → Alike s t) accepted_pack
    (execTxOne_accepted hld) (fun _ _ h hn => ?_) ((commit_none hl).after ?_) (fun _ _ h _ => h)
    (fun tx index s1 r t h he => ?_) (exec_accepted hld) tx ms index hs
  · rw [h] at hn
    cases hn
  · rintro _ _ rfl _ h
    cases h
  · exact ⟨execFee_accepted tx index s1 r t trivial he,execFee_refuses s tx index s1 r t h he⟩

variable {receipts : List Receipt} {m : M Loc (Except Err (List Receipt))} {rest : List Transaction} {n : ℕ}

lemma kept_append {txs txs' : List Transaction} {receipts' : List Receipt} (h : txs.length = receipts.length) :
    kept (txs ++ txs') (receipts ++ receipts') = kept txs receipts ++ kept txs' receipts' := by
  simp [kept,zip_append h]

lemma kept_eq_self {txs : List Transaction} (hl : txs.length = receipts.length)
    (h : ∀ re ∈ receipts, re.Accepted) : kept txs receipts = txs := by
  have ha : (txs.zip receipts).filter (fun p => p.2.Accepted) = txs.zip receipts := by
    refine filter_eq_self.mpr fun p hp => ?_
    exact decide_eq_true (h p.2 (of_mem_zip hp).2)
  rw [kept,ha,map_fst_zip hl.le]

lemma kept_eq_nil {txs : List Transaction} (h : ∀ re ∈ receipts, ¬re.Accepted) : kept txs receipts = [] := by
  rw [kept,map_eq_nil_iff,filter_eq_nil_iff]
  intro p hp
  simpa using h p.2 (of_mem_zip hp).2

lemma not_accepted_newErrReceipt (err : Err) : ¬(newErrReceipt err).Accepted := by
  simp [Receipt.Accepted,newErrReceipt]

lemma unitSize_bounds
    (h : unitSize env tx rest = .ok n) : 1 ≤ n ∧ n ≤ rest.length+1 ∧ (tx.groupCount = 0 → n = 1) := by
  unfold unitSize at h
  split_ifs at h with h1 h2 h3 h4
  · cases h
    exact ⟨le_rfl,by omega,fun _ => rfl⟩
  · cases h
    exact ⟨by omega,by omega,fun hc => absurd hc h2⟩

lemma unitSize_congr {rest' : List Transaction}
    (h : unitSize env tx rest = .ok n) (hn : n ≤ rest'.length+1) : unitSize env tx rest' = .ok n := by
  unfold unitSize at h ⊢
  split_ifs at h ⊢ with h1 h2 h3 h4 h5
  · exact h
  · cases h
    omega
  · exact h

lemma execTxs_append (xs ys : List Transaction) (index : ℕ) :
    execTxs env (xs ++ ys) xs.length index = execTxs env ys 0 index := by
  induction xs with
  | nil => rfl
  | cons x xs ih => exact ih

lemma exec_map_ok {fr rs : List Receipt} {s t : State Loc}
    (h : (do return (← m).map (fr ++ ·) : M Loc (Except Err (List Receipt))).exec s = (.ok (.ok rs),t)) :
    ∃ rs', m.exec s = (.ok (.ok rs'),t) ∧ rs = fr ++ rs' := by
  obtain ⟨r,s1,hm,hr⟩ := Proc.exec_bind_eq_ok.mp h
  rw [Proc.exec_pure] at hr
  obtain ⟨hmap,rfl⟩ := Prod.mk.inj hr
  cases r with
  | error err => cases ok.inj hmap
  | ok rs' => exact ⟨rs',hm,(ok.inj (ok.inj hmap)).symm⟩

lemma map_exec_ok {rs : List Receipt} {s t : State Loc}
    (fr : List Receipt) (h : m.exec s = (.ok (.ok rs),t)) :
    (do return (← m).map (fr ++ ·) : M Loc (Except Err (List Receipt))).exec s = (.ok (.ok (fr ++ rs)),t) := by
  rw [Proc.exec_bind_ok h]
  rfl

lemma execUnit_alike {s s' t : State Loc} (hs : Alike s s')
    {r : Except Panic (Except Err (List Receipt))}
    (h : (execUnit env tx ms index).exec s = (r,t)) :
    ∃ t', (execUnit env tx ms index).exec s' = (r,t') ∧ Alike t t' := by
  have hsl : Agrees env (env.other env.loadDriver env.txs) := .of_loadDriver rfl
  have htw := twin_execUnit hsl tx ms index
  obtain ⟨new,-,hrun⟩ := htw.run hs h
  obtain ⟨t',ht',ha,-⟩ := hrun fun _ _ => rfl
  exact ⟨t',ht',ha⟩

/-- In the environment of the whole list the kept transactions alone give their receipts again: a
refused unit leaves nothing to see, and the index does not count it. -/
theorem execTxs_kept (hlocal : ∀ loc, (env.localCommit loc).2 = none)
    (hld : Honest env.loadDriver) (txs : List Transaction) (skip index : ℕ) (hsk : skip ≤ txs.length)
    {s s' t : State Loc} {rs : List Receipt} (hs : Alike s s')
    (hrun : (execTxs env txs skip index).exec s = (.ok (.ok rs),t)) :
    rs.length = txs.length-skip ∧ ∃ t', (execTxs env (kept (txs.drop skip) rs) 0 index).exec s' =
      (.ok (.ok (rs.filter fun re => re.Accepted)),t') := by
  induction txs generalizing skip index s s' t rs with
  | nil =>
    obtain ⟨hrs,rfl⟩ := Prod.mk.inj hrun
    obtain rfl : [] = rs := ok.inj (ok.inj hrs)
    exact ⟨by simp,s',by simp [kept,execTxs]⟩
  | cons tx rest ih =>
    cases skip with
    | succ skip =>
      obtain ⟨hl,h⟩ := ih skip index (by simpa using hsk) hs hrun
      exact ⟨by simpa using hl,h⟩
    | zero =>
      unfold execTxs at hrun
      cases hu : unitSize env tx rest with
      | error err =>
        rw [hu] at hrun
        obtain ⟨rs',hrun',rfl⟩ := exec_map_ok hrun
        obtain ⟨hl,t',ht'⟩ := ih 0 index (by simp) hs hrun'
        refine ⟨by simp [hl],t',?_⟩
        have hn := not_accepted_newErrReceipt err
        simpa [kept,hn] using ht'
      | ok n =>
        obtain ⟨hp,hle,ho⟩ := unitSize_bounds hu
        have hta : (rest.take (n-1)).length = n-1 := by
          rw [length_take]
          omega
        have hsp : tx :: rest = (tx :: rest.take (n-1)) ++ rest.drop (n-1) := by simp
        rw [hu] at hrun
        obtain ⟨r,s1,he,hre⟩ := Proc.exec_bind_eq_ok.mp hrun
        obtain ⟨hco,hrf⟩ := execUnit_complete hlocal hld s tx (rest.take (n-1)) index
          (fun hc => by simp [ho hc]) s r s1 (.refl s) he
        cases r with
        | ok receipts =>
          have hco := hco receipts rfl
          have hln : (tx :: rest.take (n-1)).length = receipts.length := by rw [hco.1,length_cons]
          obtain ⟨rs',hrun',rfl⟩ := exec_map_ok hre
          obtain ⟨s1',hs1',ha⟩ := execUnit_alike hs he
          obtain ⟨hl,t',ht'⟩ := ih (n-1) (index+n) (by omega) ha hrun'
          refine ⟨?_,t',?_⟩
          · rw [length_append,hco.1,hta,hl,length_cons]
            omega
          · have hal : receipts.filter (fun re => re.Accepted) = receipts :=
              filter_eq_self.mpr fun r hr => decide_eq_true (hco.2 r hr)
            rw [drop_zero,hsp,kept_append hln,kept_eq_self hln hco.2,filter_append,hal,cons_append]
            unfold execTxs
            have hu' : unitSize env tx (rest.take (n-1) ++ kept (rest.drop (n-1)) rs') = .ok n :=
              unitSize_congr hu (by rw [length_append]; omega)
            have hm : (rest.take (n-1) ++ kept (rest.drop (n-1)) rs').take (n-1) =
                rest.take (n-1) := take_left' hta
            rw [hu']
            dsimp only
            rw [hm]
            refine (Proc.exec_bind_ok hs1').trans (map_exec_ok receipts ?_)
            have hap := @execTxs_append _ env (rest.take (n-1)) (kept (rest.drop (n-1)) rs') (index+n)
            rw [hta] at hap
            rw [hap]
            exact ht'
        | error err =>
          dsimp only at hre
          split at hre
          · cases ok.inj (Prod.mk.inj hre).1
          · rename_i happi
            have hrf := hrf err rfl (by simpa using happi)
            obtain ⟨rs',hrun',rfl⟩ := exec_map_ok hre
            have ha : Alike s1 s' := ⟨hrf.stateDB.symm.trans hs.stateDB,hrf.localDB.symm.trans hs.localDB⟩
            obtain ⟨hl,t',ht'⟩ := ih (n-1) index (by omega) ha hrun'
            refine ⟨?_,t',?_⟩
            · rw [length_append,length_replicate,hl,length_cons]
              omega
            · have hn : ∀ r ∈ replicate n (newErrReceipt err), ¬r.Accepted := by
                intro r hr
                rw [eq_of_mem_replicate hr]
                exact not_accepted_newErrReceipt err
              have hnn : (replicate n (newErrReceipt err)).filter
                  (fun re => re.Accepted) = [] :=
                filter_eq_nil_iff.mpr fun r hr => by simpa using hn r hr
              have hln : (tx :: rest.take (n-1)).length =
                  (replicate n (newErrReceipt err)).length := by
                rw [length_cons,hta,length_replicate]
                omega
              rw [drop_zero,hsp,kept_append hln,kept_eq_nil hn,filter_append,hnn]
              exact ht'

/-! ### Drivers that report an unexpected group -/

/-- Either all groups that were asked for are as expected, or the outcome shows it. -/
def Spots {α : Type} (ok : ℕ → Prop) (m : M Loc α) (bad : α → Prop) : Prop :=
  ∀ s r t, m.exec s = (r,t) → ∃ new, t.asked = s.asked ++ new ∧ ((∀ j ∈ new, ok j) ∨ ∀ a, r = .ok a → bad a)

section
variable {α β : Type} {m : M Loc α} {f : α → M Loc β} {bad : β → Prop}

lemma Spots.quiet {bad : α → Prop} (h : Preserves State.asked m) : Spots ok m bad := by
  intro s r t hm
  exact ⟨[],by rw [append_nil,h.eq hm],.inl (by simp)⟩

lemma Spots.bind {g : α → Prop} (hm : Spots ok m g) (hf : ∀ a, Spots ok (f a) bad)
    (hs : ∀ a, g a → Leads (fun _ => True) (f a) fun b _ => bad b) : Spots ok (m >>= f) bad := by
  intro s r t he
  rcases hex : m.exec s with ⟨_ | a,s1⟩
  · rw [Proc.exec_bind_error hex] at he
    cases he
    obtain ⟨new,hn,-⟩ := hm _ _ _ hex
    exact ⟨new,hn,.inr (by simp)⟩
  · rw [Proc.exec_bind_ok hex] at he
    obtain ⟨new,hn,hc⟩ := hm _ _ _ hex
    obtain ⟨new',hn',hc'⟩ := hf a _ _ _ he
    refine ⟨new ++ new',by rw [hn',hn,append_assoc],?_⟩
    rcases hc with ha | hb
    · rcases hc' with ha' | hb'
      · exact .inl (forall_mem_append.mpr ⟨ha,ha'⟩)
      · exact .inr hb'
    · right
      rintro b rfl
      exact hs a (hb a rfl) s1 b t trivial he

lemma Spots.quiet_bind (hm : Preserves State.asked m) (hf : ∀ a, Spots ok (f a) bad) : Spots ok (m >>= f) bad :=
  .bind (g := fun _ => False) (.quiet hm) hf fun _ h => h.elim

lemma spots_consult {index : ℕ} {r : Reaction α} {mark : α}
    (h : ∀ k, r = .ask k → ∀ g, getTxGroup env index = .ok g → ¬ok index → k g = mark) :
    Spots ok (consult env index r) (· = mark) := by
  intro s out t he
  cases r with
  | reply a =>
    cases he
    exact ⟨[],by simp,.inl (by simp)⟩
  | ask k =>
    unfold consult at he
    rw [Proc.exec_bind_ok (Proc.exec_modify _ _)] at he
    cases hg : getTxGroup env index with
    | error st =>
      rw [hg] at he
      cases he
      exact ⟨[index],rfl,.inr (by simp)⟩
    | ok g =>
      rw [hg] at he
      cases he
      refine ⟨[index],rfl,?_⟩
      by_cases hok : ok index
      · exact .inl (by simpa using hok)
      · right
        intro a ha
        rw [← Except.ok.inj ha]
        exact h k rfl g hg hok

end

/-! Only consulting a driver adds to what was asked for. -/

lemma asked_begin : Preserves State.asked (begin env) := by
  unfold begin
  split
  · exact .bind (.modify fun _ => rfl) fun _ => .modify fun _ => rfl
  · exact .pure _

lemma asked_commit : Preserves State.asked (commit env) := by
  unfold commit
  split
  · exact .bind (.modify fun _ => rfl) fun _ => .bind (.reads _) fun _ =>
      .bind (.modify fun _ => rfl) fun _ => .pure _
  · exact .pure _

lemma asked_rollback : Preserves State.asked (rollback env) := by
  unfold rollback
  split
  · exact .bind (.modify fun _ => rfl) fun _ => .modify fun _ => rfl
  · exact .pure _

lemma asked_startTx : Preserves State.asked (startTx env) :=
  .bind (.modify fun _ => rfl) fun _ => .modify fun _ => rfl

lemma asked_processFee (tx : Transaction) : Preserves State.asked (processFee env tx) := by
  refine .bind ?_ fun acc => ?_
  · unfold loadAccount
    refine .bind (.reads _) fun v => .bind (.modify fun _ => rfl) fun _ => ?_
    split
    · exact .pure _
    · exact .demand _ _
  · split
    · exact .bind (.modify fun _ => rfl) fun _ => .pure _
    · exact .pure _

lemma asked_settle (feelog : Receipt) (tx : Transaction) (index : ℕ) (re : Option Receipt) :
    Preserves State.asked (settle env feelog tx index re) := by
  refine .bind (.reads _) fun ks => ?_
  split
  · exact .pure _
  · split
    · exact .pure _
    · refine .bind ?_ fun err => ?_
      · unfold execLocalSameTime
        split
        · refine .bind (.reads _) fun fo => ?_
          dsimp only
          split
          · exact .throw _
          · exact .bind (.modify fun _ => rfl) fun _ => .pure _
        · exact .pure _
      · cases err with
        | some err => exact .pure _
        | none =>
          refine .bind ?_ fun _ => .pure _
          unfold setKVs
          split
          · exact .modify fun _ => rfl
          · exact .pure _

/-- Where the group is not as expected, a driver that asks for it fails with `mark`. -/
def Flags (env : Env Loc) (ok : ℕ → Prop) (mark : Err) : Prop :=
  ∀ tx index v loc group, getTxGroup env index = .ok group → ¬ok index →
    (∀ k, (env.loadDriver tx index).checkTx v loc tx index = .ask k → k group = .error mark) ∧
    ∀ k, (env.loadDriver tx index).exec v loc tx index = .ask k → k group = ⟨[],.ok (.error mark)⟩

section
variable {mark : Err} (hfl : Flags env ok mark)

include hfl in
lemma spots_execFee (tx : Transaction) (index : ℕ) : Spots ok (execFee env tx index) (· = .error mark) := by
  refine .bind (g := (· = .error mark)) ?_ (fun r => ?_) ?_
  · unfold checkOwn
    refine .quiet_bind (.reads _) fun fo => ?_
    dsimp only
    split
    · exact spots_consult fun k hk gr hg hok => (hfl tx index _ _ gr hg hok).1 k hk
    · exact .quiet (.pure _)
  · cases r with
    | error err => exact .quiet (.pure _)
    | ok =>
      dsimp only
      split
      · exact .quiet (asked_processFee tx)
      · exact .quiet (.pure _)
  · rintro r rfl
    exact .pure fun _ _ => rfl

include hfl in
lemma spots_exec (tx : Transaction) (index : ℕ) : Spots ok (exec env tx index) (· = .error mark) := by
  unfold exec
  split
  · exact .quiet (.pure _)
  · refine .quiet_bind (.reads _) fun fo => ?_
    refine .bind (g := (· = .error mark)) ?_ (fun r => ?_) ?_
    · exact spots_consult fun k hk gr hg hok => (hfl tx index _ _ gr hg hok).1 k hk
    · cases r with
      | error err => exact .quiet (.pure _)
      | ok =>
        refine .bind (g := (· = ⟨[],.ok (.error mark)⟩)) ?_ (fun out => ?_) ?_
        · exact spots_consult fun k hk gr hg hok => (hfl tx index _ _ gr hg hok).2 k hk
        · refine .quiet (.bind (.modify fun _ => rfl) fun _ => ?_)
          split
          · exact .throw _
          · exact .pure _
        · rintro out rfl
          exact .bind (.trivially _) fun _ => .pure fun _ _ => rfl
    · rintro r rfl
      exact .pure fun _ _ => rfl

include hfl in
lemma spots_execTxOne (feelog : Receipt) (tx : Transaction) (index : ℕ) :
    Spots ok (execTxOne env feelog tx index) (·.2 = some mark) := by
  refine .quiet_bind asked_startTx fun _ => ?_
  refine .bind (spots_exec hfl tx index) (fun r => ?_) ?_
  · cases r with
    | error err => exact .quiet (.pure _)
    | ok re => exact .quiet (asked_settle feelog tx index re)
  · rintro r rfl
    exact .pure fun _ _ => rfl

variable (hm : mark.isAPIEnvError = true)

include hfl hm in
lemma spots_execMembers (rl : Receipt) (txs : List Transaction) (done : List Receipt) (index : ℕ) :
    Spots ok (execMembers env rl done txs index) (· = .error mark) := by
  induction txs generalizing done index with
  | nil =>
    refine .quiet (.bind asked_commit fun err => ?_)
    cases err <;> exact .pure _
  | cons tx txs ih =>
    refine .bind (spots_execTxOne hfl packReceipt tx index) (fun r => ?_) ?_
    · obtain ⟨re,_ | err⟩ := r
      · exact ih _ _
      · dsimp only
        split
        · exact .quiet (.pure _)
        · exact .quiet (.bind asked_rollback fun _ => .pure _)
    · rintro ⟨re,err⟩ rfl
      dsimp only
      rw [if_pos hm]
      exact .pure fun _ _ => rfl

include hfl hm in
lemma spots_execTxGroup (txs : List Transaction) (index : ℕ) :
    Spots ok (execTxGroup env txs index) (· = .error mark) := by
  unfold execTxGroup
  split
  · exact .quiet (.pure _)
  · cases txs with
    | nil => exact .quiet (.throw _)
    | cons head ms =>
      refine .bind (spots_execFee hfl head index) (fun r => ?_) ?_
      · cases r with
        | error err => exact .quiet (.pure _)
        | ok feelog =>
          refine .quiet_bind asked_begin fun _ => ?_
          refine .bind (spots_execTxOne hfl feelog head index) (fun r => ?_) ?_
          · obtain ⟨re,_ | err⟩ := r
            · exact spots_execMembers hfl hm feelog ms [re] (index+1)
            · dsimp only
              split
              · exact .quiet (.pure _)
              · exact .quiet (.bind asked_rollback fun _ => .pure _)
          · rintro ⟨re,err⟩ rfl
            dsimp only
            rw [if_pos hm]
            exact .pure fun _ _ => rfl
      · rintro r rfl
        exact .pure fun _ _ => rfl

include hfl hm in
lemma spots_execUnit (tx : Transaction) (ms : List Transaction) (index : ℕ) :
    Spots ok (execUnit env tx ms index) (· = .error mark) := by
  unfold execUnit
  split
  · refine .bind (g := (· = .error mark)) ?_ (fun r => ?_) ?_
    · unfold execTx
      split
      · refine .bind (spots_exec hfl tx index) (fun r => ?_) ?_
        · split
          · exact .quiet (.pure _)
          · exact .quiet (.throw _)
        · rintro r rfl
          exact .throw _
      · split
        · split
          · exact .quiet (.throw _)
          · exact .quiet (.pure _)
        · refine .bind (spots_execFee hfl tx index) (fun r => ?_) ?_
          · cases r with
            | error err => exact .quiet (.pure _)
            | ok feelog =>
              refine .quiet_bind asked_begin fun _ => ?_
              refine .bind (spots_execTxOne hfl feelog tx index) (fun r => ?_) ?_
              · obtain ⟨re,_ | err⟩ := r
                · refine .quiet (.bind asked_commit fun err => ?_)
                  cases err <;> exact .pure _
                · refine .quiet (.bind asked_rollback fun _ => ?_)
                  split <;> exact .pure _
              · rintro ⟨re,err⟩ rfl
                refine .bind (.trivially _) fun _ => ?_
                rw [if_pos hm]
                exact .pure fun _ _ => rfl
          · rintro r rfl
            exact .pure fun _ _ => rfl
    · cases r <;> exact .quiet (.pure _)
    · rintro r rfl
      exact .pure fun _ _ => rfl
  · refine .bind (spots_execTxGroup hfl hm (tx :: ms) index) (fun r => ?_) ?_
    · cases r with
      | error err => exact .quiet (.pure _)
      | ok receipts => exact .quiet (.bind (.failIf _ _) fun _ => .pure _)
    · rintro r rfl
      exact .pure fun _ _ => rfl

include hfl hm in
lemma spots_execTxs (txs : List Transaction) (skip index : ℕ) :
    Spots ok (execTxs env txs skip index) (· = .error mark) := by
  have hb : ∀ (m : M Loc (Except Err (List Receipt))) (fr : List Receipt), Spots ok m (· = .error mark) →
      Spots ok (do return (← m).map (fr ++ ·) : M Loc (Except Err (List Receipt))) (· = .error mark) := by
    intro m fr hm
    refine .bind hm (fun r => .quiet (.pure _)) ?_
    rintro r rfl
    exact .pure fun _ _ => rfl
  induction txs generalizing skip index with
  | nil => exact .quiet (.pure _)
  | cons tx rest ih =>
    cases skip with
    | succ skip => exact ih skip index
    | zero =>
      unfold execTxs
      split
      · exact hb _ _ (ih 0 index)
      · refine .bind (spots_execUnit hfl hm tx _ index) (fun r => ?_) ?_
        · cases r with
          | ok receipts => exact hb _ _ (ih _ _)
          | error err =>
            dsimp only
            split
            · exact .quiet (.pure _)
            · exact hb _ _ (ih _ _)
        · rintro r rfl
          dsimp only
          rw [if_pos hm]
          exact .pure fun _ _ => rfl

end

/-- The reaction with `mark` in place of what it does with any group but the one found. -/
noncomputable def Reaction.mark {α : Type} (found : Except Panic (Except Err (List Transaction)))
    (mark : α) : Reaction α → Reaction α
  | .reply a => .reply a
  | .ask k => .ask fun group => open Classical in if found = .ok group then k group else mark

lemma Reaction.agrees_mark (fo fo' : Except Panic (Except Err (List Transaction)))
    (mark : α) (r : Reaction α) : r.Agrees fo fo' (r.mark fo mark) := by
  cases r with
  | reply a => exact rfl
  | ask k =>
    intro g hg _
    exact (if_pos hg).symm

lemma Reaction.ask_of_mark {fo : Except Panic (Except Err (List Transaction))}
    {mark : α} {k : Except Err (List Transaction) → α} (h : r.mark fo mark = .ask k)
    {g : Except Err (List Transaction)} (hg : fo ≠ .ok g) : k g = mark := by
  cases r with
  | reply a => cases h
  | ask k' =>
    obtain rfl := Reaction.ask.inj h
    exact if_neg hg

/-- The drivers of `env`, made to report any group that `env` does not show them. -/
noncomputable def marked (env : Env Loc) (mark : Err) (tx : Transaction) (index : ℕ) : Driver Loc :=
  let d := env.loadDriver tx index
  {d with
    checkTx := fun v loc tx' i => (d.checkTx v loc tx' i).mark (getTxGroup env index) (.error mark)
    exec := fun v loc tx' i => (d.exec v loc tx' i).mark (getTxGroup env index) ⟨[],.ok (.error mark)⟩}

lemma agrees_marked (env : Env Loc) (mark : Err) (txs' : List Transaction) :
    Agrees env (env.other (marked env mark) txs') := by
  intro tx index
  exact ⟨rfl,rfl,rfl,fun _ _ => Reaction.agrees_mark _ _ _ _,fun _ _ => Reaction.agrees_mark _ _ _ _⟩

lemma honest_marked (hl : Honest env.loadDriver) (mark : Err) : Honest (marked env mark) := by
  intro tx index v loc
  have hd := hl tx index v loc
  simp only [marked]
  cases hr : (env.loadDriver tx index).exec v loc tx index with
  | reply out =>
    rw [hr] at hd
    exact hd
  | ask k =>
    rw [hr] at hd
    intro g
    dsimp only
    split
    · exact hd g
    · simp

lemma flags_marked (env : Env Loc) (mark : Err) (txs' : List Transaction) :
    Flags (env.other (marked env mark) txs')
      (fun j => getTxGroup env j = getTxGroup (env.other (marked env mark) txs') j) mark := by
  intro tx index v loc group hg hn
  have hne : getTxGroup env index ≠ .ok group := fun h => hn (h.trans hg.symm)
  exact ⟨fun k hk => Reaction.ask_of_mark hk hne,fun k hk => Reaction.ask_of_mark hk hne⟩

/-- Executed again without the refused transactions, the list gives the same receipts. -/
def SameReceipts (env : Env Loc) (txs : List Transaction) (stateDB : StateDB) (localDB : Loc) : Prop :=
  ∀ receipts, procExecTxList env txs stateDB localDB = .ok (.ok receipts) →
    procExecTxList env (kept txs receipts) stateDB localDB =
      .ok (.ok (receipts.filter fun receipt => receipt.Accepted))

/-- The indices at which the drivers of the kept transactions ask for their group. -/
def askedFor (env : Env Loc) (txs : List Transaction) (receipts : List Receipt) (stateDB : StateDB)
    (localDB : Loc) : List ℕ :=
  ((execTxs {env with txs := txs} (kept txs receipts) 0 0).exec ⟨stateDB,localDB,[]⟩).2.asked

/-- At each of them the same is found in the list and in the shortened list. -/
def SameGroups (env : Env Loc) (txs : List Transaction) (stateDB : StateDB) (localDB : Loc) : Prop :=
  ∀ receipts, procExecTxList env txs stateDB localDB = .ok (.ok receipts) →
    ∀ j ∈ askedFor env txs receipts stateDB localDB,
      getTxGroup {env with txs := txs} j = getTxGroup {env with txs := kept txs receipts} j

lemma sameReceipts_of_sameGroups (hlocal : ∀ loc, (env.localCommit loc).2 = none)
    (hl : Honest env.loadDriver) {txs : List Transaction} {sd : StateDB} {localDB : Loc}
    (h : SameGroups env txs sd localDB) : SameReceipts env txs sd localDB := by
  intro receipts hrun
  have hg := h receipts hrun
  unfold procExecTxList at hrun
  rcases he : (execTxs {env with txs := txs} txs 0 0).exec ⟨sd,localDB,[]⟩ with ⟨r,t⟩
  rw [he] at hrun
  obtain rfl : r = .ok (.ok receipts) := hrun
  obtain ⟨-,t',ht'⟩ := @execTxs_kept Loc {env with txs := txs} hlocal hl txs 0 0 (Nat.zero_le _)
    _ _ _ _ (Alike.refl _) he
  have hot : Agrees {env with txs := txs}
      (Env.other {env with txs := txs} env.loadDriver (kept txs receipts)) := .of_loadDriver rfl
  obtain ⟨new,hn,hrun⟩ := (twin_execTxs hot (kept txs receipts) 0 0).run (Alike.refl _) ht'
  obtain ⟨t'',ht'',-⟩ := hrun fun j hj => hg j (by
    unfold askedFor
    rw [drop_zero] at ht'
    rw [ht',hn]
    exact mem_append_right _ hj)
  exact congrArg Prod.fst ht''

lemma sameGroups_of_sameReceipts {txs : List Transaction} {sd : StateDB} {localDB : Loc}
    (h : ∀ mark, SameReceipts {env with loadDriver := marked {env with txs := txs} mark} txs sd
      localDB) : SameGroups env txs sd localDB := by
  intro receipts hrun
  set whole : Env Loc := {env with txs := txs} with hw
  let mark : Err := .apiEnv []
  -- the first run does not notice the marks, since every group is the one it shows
  have hf1 : procExecTxList {env with loadDriver := marked whole mark} txs sd localDB =
      .ok (.ok receipts) := by
    unfold procExecTxList at hrun ⊢
    rcases he : (execTxs whole txs 0 0).exec ⟨sd,localDB,[]⟩ with ⟨r,t⟩
    rw [he] at hrun
    obtain rfl : r = .ok (.ok receipts) := hrun
    obtain ⟨new,-,hnext⟩ := (twin_execTxs (agrees_marked whole mark txs) txs 0 0).run
      (Alike.refl _) he
    obtain ⟨t',ht',-⟩ := hnext fun _ _ => rfl
    exact congrArg Prod.fst ht'
  have hs := h mark receipts hf1
  set short := kept txs receipts with hsh
  rcases he : (execTxs (whole.other (marked whole mark) short) short 0 0).exec
    ⟨sd,localDB,[]⟩ with ⟨r,t⟩
  have hr : r = .ok (.ok (receipts.filter fun re => re.Accepted)) := by
    rw [← hs]
    exact (congrArg Prod.fst he).symm
  subst hr
  obtain ⟨new,hn,hc⟩ := spots_execTxs (flags_marked whole mark short) rfl short 0 0 _ _ _ he
  have ha : ∀ j ∈ new, getTxGroup whole j = getTxGroup (whole.other (marked whole mark) short) j :=
    hc.resolve_right fun hb => by cases hb _ rfl
  -- so the drivers without the marks do the same
  have hba : Agrees (whole.other (marked whole mark) short)
      ((whole.other (marked whole mark) short).other whole.loadDriver whole.txs) :=
    (agrees_marked whole mark short).symm
  obtain ⟨new',hn',hrun'⟩ := (twin_execTxs hba short 0 0).run (Alike.refl _) he
  obtain rfl : new = new' := append_cancel_left (hn.symm.trans hn')
  obtain ⟨t',ht',-,hak⟩ := hrun' fun j hj => (ha j hj).symm
  intro j hj
  have hak' : askedFor env txs receipts sd localDB = new := by
    unfold askedFor
    have he' : (execTxs whole short 0 0).exec ⟨sd,localDB,[]⟩ = _ := ht'
    rw [← hsh,← hw,he',hak]
    rfl
  rw [hak'] at hj
  exact ha j hj

/-- **The receipts of a list without its refused transactions.** They are the same for all
drivers exactly if, for all drivers, every index at which a driver asks for its group
leads to the same group in the list with the refused transactions and without. -/
theorem sameReceipts_iff (env : Env Loc) (hlocal : ∀ loc, (env.localCommit loc).2 = none)
    (txs : List Transaction) (stateDB : StateDB) (localDB : Loc) :
    (∀ ld, Honest ld → SameReceipts {env with loadDriver := ld} txs stateDB localDB) ↔
      ∀ ld, Honest ld → SameGroups {env with loadDriver := ld} txs stateDB localDB := by
  constructor
  · intro h ld hl
    refine sameGroups_of_sameReceipts fun mark => ?_
    exact h _ (@honest_marked Loc {env with loadDriver := ld, txs := txs} hl mark)
  · intro h ld hl
    exact @sameReceipts_of_sameGroups Loc {env with loadDriver := ld} hlocal hl txs stateDB localDB (h ld hl)

end

/-- Succeeds if it finds its group, and fails with the error of the search otherwise. -/
def groupDriver : Driver Unit where
  isFree := true
  execLocalSameTime := false
  checkTx := fun _ _ _ _ => .reply (.ok ())
  exec := fun _ _ _ _ => .ask fun group =>
    match group with
    | .error err => ⟨[],.ok (.error err)⟩
    | .ok _ => ⟨[],.ok (.ok (some ⟨execOk,[],[]⟩))⟩
  execLocalTx := fun _ loc _ _ _ => .ok (loc,none)

def groupEnv : Env Unit := openEnv (fun _ => true) fun _ _ => groupDriver

lemma honest_groupDriver : Honest groupEnv.loadDriver := by
  rintro tx index v loc (err | group) receipt hr
  · cases hr
  · cases ok.inj (ok.inj hr)
    exact (by decide : execOk ≠ execErr)

/-- The refused transaction takes the place at which the group is looked for. -/
lemma not_sameReceipts : ¬SameReceipts groupEnv (plainTx [9] 1 [] :: pair) emptyState.stateDB () := by
  intro h
  have ha := h _ rfl
  revert ha
  decide

/-- Behind a refused transaction, some driver asks for its group where another one is found. -/
theorem sameReceipts_iff_refused :
    ¬∀ ld, Honest ld → SameGroups {groupEnv with loadDriver := ld} (plainTx [9] 1 [] :: pair) emptyState.stateDB () :=
  fun h => not_sameReceipts ((sameReceipts_iff groupEnv (fun _ => rfl) _ _ ()).mpr h _ honest_groupDriver)

theorem receipts_depend_on_refused : ∃ (env : Env Unit) (txs : List Transaction),
    Honest env.loadDriver ∧ (∀ loc, (env.localCommit loc).2 = none) ∧
      ¬SameReceipts env txs emptyState.stateDB () :=
  ⟨groupEnv,plainTx [9] 1 [] :: pair,honest_groupDriver,fun _ => rfl,not_sameReceipts⟩

end Dpos.Executor
