import Dpos.Executor

/-! A transaction group is executed as a whole or not at all: its writes stay in the
transaction cache of the state database until the last member has succeeded. -/
namespace Dpos.Executor

open KeyIndex StateDB List Receipt

section
variable {Loc : Type} {env : Env Loc}

/-- What a driver answers once it has the group it asks for. -/
def answer {α : Type} (env : Env Loc) (index : ℕ) : Reaction α → Except Panic α
  | .reply a => .ok a
  | .ask k => (getTxGroup env index).map k

/-- On this state database the driver of the transaction ends without an error, with
this receipt. -/
def Returns (env : Env Loc) (v : View) (tx : Transaction) (index : ℕ) (receipt : Option Receipt) :
    Prop :=
  ∃ loc out, answer env index ((env.loadDriver tx index).exec v loc tx index) = .ok out ∧
    out.result = .ok (.ok receipt)

/-- What a transaction that has set `kvs` one after the other makes of `base`. A nil
value withdraws what the transaction has set for the key. -/
def applied (base : View) (kvs : List KV) : View := overlay (writeAll (fun _ => none) kvs) base

/-- All drivers succeed, each run on what its forerunners have left, and `kvss` are the
entries of their receipts. -/
inductive Succeed (env : Env Loc) (base : View) : List KV → List Transaction → ℕ → List (List KV) → Prop
  | nil (prior : List KV) (index : ℕ) : Succeed env base prior [] index []
  | cons {prior : List KV} {tx : Transaction} {txs : List Transaction} {index : ℕ}
      {receipt : Option Receipt} {kvss : List (List KV)}
      (head : Returns env (applied base prior) tx index receipt)
      (tail : Succeed env base (prior ++ getKV receipt) txs (index+1) kvss) :
      Succeed env base prior (tx :: txs) index (getKV receipt :: kvss)

/-! ### The pieces -/

variable {P : State Loc → Prop} {tx : Transaction} {index : ℕ} {txs : List Transaction}
  {kvss : List (List KV)}

variable {Q : Unit → State Loc → Prop} {v : View} {fee prior : List KV}

lemma leads_onStateDB {f : StateDB → StateDB}
    (h : ∀ s, P s → Q () {s with stateDB := f s.stateDB}) : Leads P (onStateDB f) Q := .modify h

lemma leads_onLocalDB {f : Loc → Loc}
    (h : ∀ s, P s → Q () {s with localDB := f s.localDB}) : Leads P (onLocalDB f) Q := .modify h

lemma leads_consult {α : Type} (index : ℕ) (r : Reaction α) (hP : ∀ s asked, P s → P {s with asked := asked}) :
    Leads P (consult env index r) fun a s => P s ∧ answer env index r = .ok a := by
  cases r with
  | reply a => exact .pure fun s hs => ⟨hs,rfl⟩
  | ask k =>
    refine .bind (Q := fun _ s => P s) (.modify fun s hs => hP s _ hs) fun _ => ?_
    cases hg : getTxGroup env index with
    | error st => exact .throw _
    | ok g => exact .pure fun s hs => ⟨hs,by simp [answer,hg,Except.map]⟩

def account (env : Env Loc) (v : View) (addr : Bytes) : Option AccountDB.Account :=
  match v (env.accountKeyPerfix ++ addr) with
  | none => some ⟨0,0,0,addr⟩
  | some value => env.decodeAccount value

/-- The entries of the fee of a transaction: where one is due, the account of the sender
with the fee taken off. -/
def feeKVs (env : Env Loc) (v : View) (tx : Transaction) (index : ℕ) : Option (List KV) :=
  if ¬env.isPara ∧ 0 < env.minTxFeeRate ∧ ¬(env.loadDriver tx index).isFree then
    (account env v (env.fromAddr tx)).map fun acc =>
      [(env.accountKeyPerfix ++ acc.addr,
        some (env.encodeAccount {acc with balance := AccountDB.int64 (acc.balance-tx.fee)}))]
  else some []

lemma feeKVs_isSome (h : feeKVs env v tx index = some fee) (kv : KV) (hk : kv ∈ fee) : kv.2.isSome := by
  unfold feeKVs at h
  split at h
  · obtain ⟨acc,-,rfl⟩ := Option.map_eq_some_iff.mp h
    rw [mem_singleton] at hk
    rw [hk]
    rfl
  · cases h
    simp at hk

/-- Outside of any transaction, with this state database. -/
def Idle (v : View) (s : State Loc) : Prop := s.stateDB.intx = false ∧ s.stateDB.view = v

lemma loadAccount_idle (a : Bytes) (v : View) :
    Leads (Idle v) (loadAccount env a) fun acc s => Idle v s ∧ account env v a = some acc := by
  refine .reads fun s0 hs0 => ?_
  refine .bind (Q := fun _ s => Idle v s) (leads_onStateDB ?_) fun _ => ?_
  · rintro s rfl
    refine ⟨(get_intx _ _).trans hs0.1,?_⟩
    simp only [StateDB.call,StateDB.view,get_pending,get_below]
    exact hs0.2
  · rw [get_value,hs0.2]
    unfold account
    cases v (env.accountKeyPerfix ++ a) with
    | none => exact .pure fun s hs => ⟨hs,rfl⟩
    | some va => exact .demand fun acc s ha hs => ⟨hs,ha⟩

/-- What a fee leaves: it is set outside of any transaction. -/
def Charged (env : Env Loc) (v : View) (tx : Transaction) (index : ℕ) (r : Except Err Receipt)
    (s : State Loc) : Prop :=
  match r with
  | .error _ => Idle v s
  | .ok feelog => Idle (writeAll v feelog.kv) s ∧ feeKVs env v tx index = some feelog.kv

lemma execFee_charged (tx : Transaction) (index : ℕ) (v : View) :
    Leads (Idle v) (execFee env tx index) (Charged env v tx index) := by
  have ho : Leads (Idle v) (checkOwn env tx index) fun _ s => Idle v s := by
    refine .reads fun s0 hs0 => ?_
    refine .before (I := Idle v) ?_ fun s hs => hs ▸ hs0
    dsimp only
    split
    · exact (leads_consult _ _ fun _ _ hs => hs).after fun _ _ hs => hs.1
    · exact .pure fun s hs => hs
  refine .bind ho fun r => ?_
  cases r with
  | error err => exact .pure fun s hs => hs
  | ok =>
    dsimp only
    split
    · rename_i hd
      refine .bind (loadAccount_idle _ v) fun acc => ?_
      split
      · set kv : KV := (env.accountKeyPerfix ++ acc.addr,some (env.encodeAccount
            {acc with balance := AccountDB.int64 (acc.balance-tx.fee)})) with hk
        refine .bind (Q := fun _ s => Idle (write v kv) s ∧ feeKVs env v tx index = some [kv])
          (leads_onStateDB ?_) fun _ => ?_
        · rintro s ⟨⟨hidle,hv⟩,ha⟩
          have hse : s.stateDB.set kv = {s.stateDB with cache := write s.stateDB.cache kv} := by
            simp [StateDB.set,hidle]
          refine ⟨⟨by rw [hse]; exact hidle,?_⟩,by rw [feeKVs,if_pos hd,ha,Option.map_some]⟩
          rw [hse,view_of_idle (by exact hidle),StateDB.below,hk,overlay_write_some,← hv,view_of_idle hidle]
          rfl
        · exact .pure fun s hs => hs
      · exact .pure fun s hs => hs.1
    · rename_i hf
      refine .pure fun s hs => ⟨hs,?_⟩
      rw [feeKVs,if_neg hf]
      rfl

variable {base : View} {kvs : List KV}

lemma startTx_inTx (ks : List Bytes) : Leads (fun s => InTx base kvs ks s.stateDB) (startTx env)
      fun _ s => InTx base kvs [] s.stateDB := by
  refine .bind (Q := fun _ s => InTx base kvs [] s.stateDB) (leads_onStateDB ?_) fun _ => ?_
  · exact fun s hs => hs.startTx
  · exact leads_onLocalDB fun s hs => hs

/-- The driver sees the writes of its forerunners, and its own calls stay in the
transaction. -/
theorem exec_inTx (tx : Transaction) (index : ℕ) :
    Leads (fun s => InTx base kvs [] s.stateDB) (exec env tx index) fun r s =>
      (∃ new : List KV, InTx base (kvs ++ new) (new.map Prod.fst) s.stateDB) ∧
        ∀ receipt, r = .ok receipt → Returns env (applied base kvs) tx index receipt := by
  have he : ∀ err : Err, Leads (fun s => InTx base kvs [] s.stateDB)
      (pure (.error err) : M Loc (Except Err (Option Receipt))) fun r s =>
        (∃ new : List KV, InTx base (kvs ++ new) (new.map Prod.fst) s.stateDB) ∧
          ∀ receipt, r = .ok receipt → Returns env (applied base kvs) tx index receipt := by
    intro err
    refine .pure fun s hs => ⟨⟨[],?_⟩,by simp⟩
    simpa using hs
  unfold exec
  split
  · exact he _
  · refine .reads fun s0 hs0 => ?_
    refine .before (I := fun s => InTx base kvs [] s.stateDB) ?_ fun s hs => hs ▸ hs0
    refine .bind (leads_consult _ _ fun _ _ hs => hs) fun c => ?_
    cases c with
    | error err => exact (he err).before fun s hs => hs.1
    | ok =>
      refine .before (I := fun s => InTx base kvs [] s.stateDB) ?_ fun s hs => hs.1
      refine .bind (leads_consult _ _ fun _ _ hs => hs) fun out => ?_
      refine .bind (Q := fun _ s => InTx base (kvs ++ Call.sets out.calls)
          ((Call.sets out.calls).map Prod.fst) s.stateDB ∧ answer env index
            ((env.loadDriver tx index).exec (applied base kvs) s0.localDB tx index) = .ok out)
        (leads_onStateDB ?_) fun _ => ?_
      · rintro s ⟨hs,ha⟩
        rw [hs0.view] at ha
        exact ⟨hs.callAll out.calls,ha⟩
      · split
        · exact .throw _
        · rename_i result hr
          refine .pure fun s hs => ⟨⟨_,hs.1⟩,?_⟩
          rintro receipt rfl
          exact ⟨s0.localDB,out,hs.2,hr⟩

lemma execLocalSameTime_inTx (tx : Transaction) (r : Option Receipt) (index : ℕ) (ks : List Bytes) :
    Leads (fun s => InTx base kvs ks s.stateDB) (execLocalSameTime env tx r index)
      fun _ s => InTx base kvs ks s.stateDB := by
  unfold execLocalSameTime
  split
  · refine .reads fun s0 hs0 => ?_
    dsimp only
    split
    · exact .throw _
    · refine .bind (Q := fun _ s => InTx base kvs ks s.stateDB) (leads_onLocalDB ?_) fun _ => ?_
      · rintro s rfl
        exact hs0
      · exact .pure fun s hs => hs
  · exact .pure fun s hs => hs

/-- A member keeps its entries in the transaction and in the receipt, or fails without an entry in
the receipt. -/
def Member (base : View) (kvs : List KV) (feelog : Receipt) (entries : List KV)
    (r : Receipt × Option Err) (s : State Loc) : Prop :=
  match r.2 with
  | some _ => r.1.kv = feelog.kv ∧ ∃ kvs' keys, InTx base kvs' keys s.stateDB
  | none => r.1.kv = feelog.kv ++ entries ∧ ∃ keys, InTx base (kvs ++ r.1.kv) keys s.stateDB

lemma settle_member (hse : env.isFork .stateDBSet = true) (f : Receipt) (tx : Transaction)
    (index : ℕ) (receipt : Option Receipt) (new : List KV) :
    Leads (fun s => InTx base (kvs ++ new) (new.map Prod.fst) s.stateDB)
      (settle env f tx index receipt) fun r s => Member base kvs f (getKV receipt) r s ∧
        (r.2 = none → ∀ kv ∈ getKV receipt, env.isAllowExec kv.1 tx index = true) := by
  refine .reads fun s0 hs0 => ?_
  have hf : ∀ err : Err, Leads (· = s0) (pure (f.addLog err,some err) : M Loc _) fun r s =>
      Member base kvs f (getKV receipt) r s ∧
        (r.2 = none → ∀ kv ∈ getKV receipt, env.isAllowExec kv.1 tx index = true) := by
    intro err
    refine .pure ?_
    rintro s rfl
    exact ⟨⟨rfl,_,_,hs0⟩,by simp⟩
  by_cases hk : checkKV s0.stateDB.keys (getKV receipt) = true
  swap
  · rw [if_pos hk]
    exact hf _
  rw [if_neg (not_not.mpr hk)]
  split
  · exact hf _
  · rename_i ha
    rw [not_not,all_eq_true] at ha
    -- every key that was set is among those of the receipt
    have hc : ∀ kv ∈ new, kv.1 ∈ (getKV receipt).map Prod.fst := by
      intro kv hm
      rw [checkKV,hs0.keys,all_eq_true] at hk
      have hay := hk kv.1 (mem_map_of_mem hm)
      obtain ⟨kv',hk',he⟩ := any_eq_true.mp hay
      exact mem_map.mpr ⟨kv',hk',of_decide_eq_true he⟩
    have hlocal : Leads (· = s0) (execLocalSameTime env tx receipt index)
        fun _ s => InTx base (kvs ++ new) (new.map Prod.fst) s.stateDB :=
      (execLocalSameTime_inTx tx receipt index _).started hs0
    refine .bind hlocal fun err => ?_
    cases err with
    | some err => exact .pure fun s hs => ⟨⟨rfl,_,_,hs⟩,by simp⟩
    | none =>
      have hkvs : (f.join receipt).kv = f.kv ++ getKV receipt := by
        cases receipt <;> simp [join,getKV]
      refine .bind (Q := fun _ s => ∃ ks, InTx base (kvs ++ (f.join receipt).kv) ks s.stateDB)
        ?_ fun _ => ?_
      · unfold setKVs
        rw [if_pos hse]
        refine leads_onStateDB fun s hs => ⟨_,(hs.setAll (f.join receipt).kv).absorb ?_⟩
        intro kv hm
        rw [hkvs,map_append]
        exact mem_append_right _ (hc kv hm)
      · exact .pure fun s hs => ⟨⟨hkvs,hs⟩,fun _ => ha⟩

lemma execTxOne_member (hse : env.isFork .stateDBSet = true) (f : Receipt)
    (tx : Transaction) (index : ℕ) (ks : List Bytes) :
    Leads (fun s => InTx base kvs ks s.stateDB) (execTxOne env f tx index) fun r s =>
      ∃ re, Member base kvs f (getKV re) r s ∧ (r.2 = none → Returns env (applied base kvs) tx index re ∧
          ∀ kv ∈ getKV re, env.isAllowExec kv.1 tx index = true) := by
  refine .bind (startTx_inTx ks) fun _ => ?_
  refine .bind (exec_inTx tx index) fun r => ?_
  cases r with
  | error err =>
    refine .pure ?_
    rintro s ⟨⟨new,hn⟩,-⟩
    exact ⟨none,⟨rfl,_,_,hn⟩,by simp⟩
  | ok re =>
    refine .of_start ?_
    rintro s0 ⟨⟨new,hn⟩,hr⟩
    refine ((settle_member hse f tx index re new).started hn).after ?_
    rintro a s ⟨hm,ha⟩
    exact ⟨re,hm,fun hno => ⟨hr re rfl,ha hno⟩⟩

section
variable (hfo : env.isFork .execRollback = true)
include hfo

lemma rollback_idle (ks : List Bytes) :
    Leads (fun s => InTx base kvs ks s.stateDB) (rollback env) fun _ s => Idle base s := by
  unfold rollback
  rw [if_pos hfo]
  refine .bind (Q := fun _ s => Idle base s) (leads_onStateDB ?_) fun _ => ?_
  · exact fun s hs => ⟨rfl,hs.rollback⟩
  · exact leads_onLocalDB fun s hs => hs

lemma commit_idle (ks : List Bytes) : Leads (fun s => InTx base kvs ks s.stateDB) (commit env) fun err s =>
      Idle (applied base kvs) s ∧ ∃ loc, (env.localCommit loc).2 = err := by
  unfold commit
  rw [if_pos hfo]
  refine .bind (Q := fun _ s => Idle (applied base kvs) s) (leads_onStateDB ?_) fun _ => ?_
  · exact fun s hs => ⟨rfl,hs.commit.trans hs.view⟩
  · refine .reads fun s0 hs0 => ?_
    refine .bind (Q := fun _ s => Idle (applied base kvs) s) (leads_onLocalDB ?_) fun _ => ?_
    · rintro s rfl
      exact hs0
    · exact .pure fun s hs => ⟨hs,_,rfl⟩

lemma begin_inTx : Leads (Idle base) (begin env) fun _ s => InTx base [] [] s.stateDB := by
  unfold begin
  rw [if_pos hfo]
  refine .bind (Q := fun _ s => InTx base [] [] s.stateDB) (leads_onStateDB ?_) fun _ => ?_
  · rintro s ⟨hidle,rfl⟩
    exact StateDB.begin_inTx hidle
  · exact leads_onLocalDB fun s hs => hs

end

/-! ### The group -/

/-- The two ways in which a group ends over the state database after the fee, `base`: all entries
are applied and stand in the receipts, those of the head after those of the fee; or only the fee is
left, in the database and in the receipts. -/
def Atomic (env : Env Loc) (base : View) (fee : List KV) (txs : List Transaction) (index : ℕ)
    (receipts : List Receipt) (v : View) : Prop :=
  (∃ kvs kvss, Succeed env base [] txs index (kvs :: kvss) ∧
      receipts.map kv = (fee ++ kvs) :: kvss ∧ v = applied base (kvs :: kvss).flatten) ∨
    v = base ∧ receipts.flatMap kv = fee

/-- The executor allows every entry to the transaction it comes from. -/
def Permitted (env : Env Loc) (txs : List Transaction) (index : ℕ) (kvss : List (List KV)) : Prop :=
  ∀ j tx kvs, txs[j]? = some tx → kvss[j]? = some kvs → ∀ kv ∈ kvs, env.isAllowExec kv.1 tx (index+j) = true

lemma permitted_nil (env : Env Loc) (txs : List Transaction) (index : ℕ) : Permitted env txs index [] := by
  intro j tx kvs _ hkvs
  simp at hkvs

lemma Permitted.cons {kvs : List KV} (head : ∀ kv ∈ kvs, env.isAllowExec kv.1 tx index = true)
    (tail : Permitted env txs (index+1) kvss) : Permitted env (tx :: txs) index (kvs :: kvss) := by
  intro j tx' kvs' ht hkvs
  cases j with
  | zero =>
    cases ht
    cases hkvs
    exact head
  | succ j =>
    rw [← Nat.add_assoc,Nat.add_right_comm]
    exact tail j tx' kvs' ht hkvs

/-- The members that come first have succeeded, one for each list of entries. -/
def Progress (env : Env Loc) (base : View) (prior : List KV) (txs : List Transaction) (index : ℕ)
    (kvss : List (List KV)) : Prop :=
  Succeed env base prior (txs.take kvss.length) index kvss ∧ Permitted env txs index kvss

lemma Progress.nil (env : Env Loc) (base : View) (prior : List KV) (txs : List Transaction)
    (index : ℕ) : Progress env base prior txs index [] := ⟨.nil _ _,permitted_nil env txs index⟩

lemma Progress.cons {r : Option Receipt}
    (head : Returns env (applied base prior) tx index r ∧ ∀ kv ∈ getKV r, env.isAllowExec kv.1 tx index = true)
    (tail : Progress env base (prior ++ getKV r) txs (index+1) kvss) :
    Progress env base prior (tx :: txs) index (getKV r :: kvss) :=
  ⟨.cons head.1 tail.1,.cons head.2 tail.2⟩

/-- The loop after the head, whose receipt is `first`. `prior` is what the transaction has
set, `more` the other receipts. -/
theorem execMembers_ends (hro : env.isFork .execRollback = true)
    (hse : env.isFork .stateDBSet = true) (rl first : Receipt)
    (txs : List Transaction) (prior : List KV) (more : List Receipt) (index : ℕ) :
    Leads (fun s => ∃ keys, InTx base prior keys s.stateDB)
      (execMembers env rl (first :: more) txs index) fun r s =>
        (∃ err, r = .error err ∧ err.isAPIEnvError = true) ∨ ∃ kvss, Progress env base prior txs index kvss ∧
          ((kvss.length = txs.length ∧ Idle (applied base (prior ++ kvss.flatten)) s ∧
              ((∃ err, r = .error err ∧ ∃ loc, (env.localCommit loc).2 = some err) ∨
                ∃ receipts, r = .ok receipts ∧
                  receipts.map kv = (first :: more).map kv ++ kvss)) ∨
            Idle base s ∧ ∃ receipts, r = .ok receipts ∧ receipts.flatMap kv =
              if env.isFork .resetTx0 then rl.kv else first.kv) := by
  induction txs generalizing prior more index with
  | nil =>
    refine .of_start ?_
    rintro s0 ⟨keys,hs0⟩
    refine .bind ((commit_idle hro keys).started hs0) fun err => ?_
    cases err with
    | some err =>
      refine .pure fun s hs => .inr ⟨[],.nil ..,.inl ⟨rfl,?_,.inl ⟨err,rfl,hs.2⟩⟩⟩
      simpa using hs.1
    | none =>
      refine .pure fun s hs => .inr ⟨[],.nil ..,.inl ⟨rfl,?_,.inr ⟨_,rfl,by simp⟩⟩⟩
      simpa using hs.1
  | cons tx txs ih =>
    refine .of_start ?_
    rintro s0 ⟨keys,hs0⟩
    refine .bind ((execTxOne_member hse packReceipt tx index keys).started hs0)
      fun r => ?_
    obtain ⟨re,err⟩ := r
    cases err with
    | none =>
      refine .of_start ?_
      rintro s1 ⟨entries,⟨hk,keys',hs1⟩,hr⟩
      have he : re.kv = getKV entries := by simpa [packReceipt] using hk
      have hre := ih (prior ++ getKV entries) (more ++ [re]) (index+1)
      rw [he] at hs1
      refine (hre.before (P := (· = s1)) fun s hs => ⟨keys',hs ▸ hs1⟩).after ?_
      rintro r s (hp | ⟨kvss,hpr,hp⟩)
      · exact .inl hp
      · refine .inr ⟨getKV entries :: kvss,.cons (hr rfl) hpr,hp.imp_left ?_⟩
        rintro ⟨hlength,hidle,hrp⟩
        refine ⟨by simp [hlength],by simpa using hidle,hrp.imp_right ?_⟩
        rintro ⟨receipts,rfl,hmap⟩
        exact ⟨receipts,rfl,by simpa [he] using hmap⟩
    | some err =>
      dsimp only
      split
      · rename_i happi
        exact .pure fun s _ => .inl ⟨err,rfl,happi⟩
      · refine .of_start ?_
        rintro s1 ⟨-,⟨hk,kvs',keys',hs1⟩,-⟩
        refine .bind ((rollback_idle hro keys').started hs1) fun _ => ?_
        refine .pure fun s hs => .inr ⟨[],.nil ..,.inr ⟨hs,_,rfl,?_⟩⟩
        have hem : re.kv = [] := hk
        split_ifs <;> simp [hem,packReceipt]

lemma Succeed.of_held {held : List KV} (hh : ∀ k v, (k,v) ∈ held → v.isSome ∧ base k = v)
    (h : Succeed env base (held ++ prior) txs index kvss) : Succeed env base prior txs index kvss := by
  generalize hp : held ++ prior = whole at h
  induction h generalizing prior with
  | nil => exact .nil _ _
  | @cons whole tx txs index receipt kvss head tail ih =>
    subst hp
    rw [applied,overlay_writeAll_of_held hh] at head
    exact .cons head (ih (append_assoc ..).symm)

lemma held_writeAll (hf : feeKVs env v tx index = some fee) :
    ∀ k value, (k,value) ∈ fee → value.isSome ∧ writeAll v fee k = value := by
  intro k value hm
  refine ⟨feeKVs_isSome hf _ hm,?_⟩
  unfold feeKVs at hf
  split at hf
  · obtain ⟨acc,-,rfl⟩ := Option.map_eq_some_iff.mp hf
    rw [mem_singleton,Prod.mk.injEq] at hm
    obtain ⟨rfl,rfl⟩ := hm
    simp [writeAll,write]
  · cases hf
    simp at hm

/-- The first members, run on `v` with the fee of the head taken off. -/
structure Ran (env : Env Loc) (v : View) (txs : List Transaction) (index : ℕ) (fee : List KV)
    (kvss : List (List KV)) : Prop where
  charged : ∃ head ∈ txs.head?, feeKVs env v head index = some fee
  progress : Progress env (writeAll v fee) [] txs index kvss

/-- The entries of the receipts, those of the fee standing in the first. -/
def joined (fee : List KV) : List (List KV) → List (List KV)
  | [] => []
  | kvs :: kvss => (fee ++ kvs) :: kvss

/-- How a transaction or a group ends on the state database `v`: with an API error; refused, without
a change; with the entries of all members applied, if perhaps not the local ones; or with only the
fee. -/
inductive UnitEnds (env : Env Loc) (v : View) (txs : List Transaction) (index : ℕ)
    (s : State Loc) : Except Err (List Receipt) → Prop
  | api {err : Err} (happi : err.isAPIEnvError = true) : UnitEnds env v txs index s (.error err)
  | refused {err : Err} (hidle : Idle v s) : UnitEnds env v txs index s (.error err)
  | unlocal {err : Err} {fee : List KV} {kvss : List (List KV)} (hran : Ran env v txs index fee kvss)
      (hidle : Idle (applied (writeAll v fee) kvss.flatten) s)
      (hlocal : ∃ loc, (env.localCommit loc).2 = some err) : UnitEnds env v txs index s (.error err)
  | whole {receipts : List Receipt} {fee : List KV} {kvss : List (List KV)}
      (hran : Ran env v txs index fee kvss) (hlength : kvss.length = txs.length)
      (hidle : Idle (applied (writeAll v fee) kvss.flatten) s)
      (hmap : receipts.map kv = joined fee kvss) : UnitEnds env v txs index s (.ok receipts)
  | undone {receipts : List Receipt} {fee : List KV} {kvss : List (List KV)}
      (hran : Ran env v txs index fee kvss) (hidle : Idle (writeAll v fee) s)
      (hkvs : receipts.flatMap kv = fee ++ if env.isFork .resetTx0 then [] else kvss.headD []) :
      UnitEnds env v txs index s (.ok receipts)

lemma execTxGroup_unitEnds (hro : env.isFork .execRollback = true)
    (hse : env.isFork .stateDBSet = true) (txs : List Transaction) (index : ℕ) (v : View) :
    Leads (Idle v) (execTxGroup env txs index) fun r s => UnitEnds env v txs index s r := by
  unfold execTxGroup
  split
  · exact .pure fun s hs => .refused hs
  · cases txs with
    | nil => exact .throw _
    | cons head ms =>
    refine .bind (execFee_charged head index v) fun r => ?_
    cases r with
    | error err => exact .pure fun s hs => .refused hs
    | ok f =>
      refine .of_start fun s0 hs0 => ?_
      obtain ⟨hidle,hf⟩ := hs0
      have hc : ∃ tx ∈ (head :: ms).head?, feeKVs env v tx index = some f.kv := ⟨head,rfl,hf⟩
      have hh := held_writeAll hf
      refine .bind ((begin_inTx hro).started hidle) fun _ => ?_
      refine .bind (execTxOne_member hse f head index []) fun r => ?_
      obtain ⟨re,err⟩ := r
      cases err with
      | some err =>
        dsimp only
        split
        · rename_i happi
          exact .pure fun s _ => .api happi
        · refine .of_start ?_
          rintro s1 ⟨-,⟨hk,kvs,keys,hs1⟩,-⟩
          refine .bind ((rollback_idle hro keys).started hs1) fun _ => ?_
          refine .pure fun s hs => .undone ⟨hc,.nil ..⟩ hs ?_
          have hk : re.kv = f.kv := hk
          simp [hk,packReceipt]
      | none =>
        refine .of_start ?_
        rintro s1 ⟨entries,⟨hk,keys,hs1⟩,hr⟩
        have hk : re.kv = f.kv ++ getKV entries := hk
        rw [nil_append,hk] at hs1
        have hre := @execMembers_ends Loc env (writeAll v f.kv) hro hse f re
          ms (f.kv ++ getKV entries) [] (index+1)
        refine (hre.before (P := (· = s1)) fun s hs => ⟨keys,hs ▸ hs1⟩).after ?_
        rintro r s (⟨err,rfl,happi⟩ | ⟨kvss,hp,hpo⟩)
        · exact .api happi
        have hran : Ran env v (head :: ms) index f.kv (getKV entries :: kvss) :=
          ⟨hc,.cons (hr rfl) ⟨hp.1.of_held hh,hp.2⟩⟩
        rcases hpo with ⟨hlength,hidle,hrp⟩ | ⟨hidle,receipts,rfl,hkvs⟩
        · have hv : applied (writeAll v f.kv) (f.kv ++ getKV entries ++ kvss.flatten) =
              applied (writeAll v f.kv) (getKV entries :: kvss).flatten := by
            rw [applied,append_assoc,overlay_writeAll_of_held hh]
            rfl
          rw [hv] at hidle
          rcases hrp with ⟨err,rfl,hlocal⟩ | ⟨receipts,rfl,hmap⟩
          · exact .unlocal hran hidle hlocal
          · exact .whole hran (by simp [hlength]) hidle (by simpa [hk,joined] using hmap)
        · refine .undone hran hidle (hkvs.trans ?_)
          split_ifs
          · exact (append_nil _).symm
          · exact hk

/-- How a group may end on the state database `v`: refused, without a change, or with an API error,
or in one of the two ways after the fee of the head. -/
def GroupEnds (env : Env Loc) (v : View) (txs : List Transaction) (index : ℕ)
    (r : Except Err (List Receipt)) (v' : View) : Prop :=
  match r with
  | .error err => err.isAPIEnvError = true ∨ v' = v
  | .ok receipts => ∃ head ∈ txs.head?, ∃ fee, feeKVs env v head index = some fee ∧
      Atomic env (writeAll v fee) fee txs index receipts v'

lemma UnitEnds.groupEnds (hr : env.isFork .resetTx0 = true)
    (hlocal : ∀ loc, (env.localCommit loc).2 = none) {s : State Loc}
    {r : Except Err (List Receipt)} (h : UnitEnds env v txs index s r) :
    GroupEnds env v txs index r s.stateDB.view := by
  cases h with
  | api happi => exact .inl happi
  | refused hidle => exact .inr hidle.2
  | unlocal hran hidle hfi =>
    obtain ⟨loc,hl⟩ := hfi
    rw [hlocal] at hl
    cases hl
  | @whole receipts fee kvss hran hlength hidle hmap =>
    obtain ⟨head,hh,hf⟩ := hran.charged
    have hs := hran.progress.1
    rw [hlength,take_length] at hs
    refine ⟨head,hh,fee,hf,.inl ?_⟩
    cases kvss with
    | nil =>
      obtain rfl := eq_nil_of_length_eq_zero hlength.symm
      cases hh
    | cons kvs kvss => exact ⟨kvs,kvss,hs,hmap,hidle.2⟩
  | @undone receipts fee kvss hran hidle hkvs =>
    obtain ⟨head,hh,hf⟩ := hran.charged
    rw [if_pos hr,append_nil] at hkvs
    exact ⟨head,hh,fee,hf,.inr ⟨hidle.2,hkvs⟩⟩

/-- **A group is all or nothing**, with ForkExecRollback, ForkResetTx0 and
ForkStateDBSet active, started outside of any transaction, where the local database
does not fail to commit. -/
theorem execTxGroup_atomic (hr : env.isFork .execRollback = true)
    (hrs : env.isFork .resetTx0 = true) (hs : env.isFork .stateDBSet = true)
    (hlocal : ∀ loc, (env.localCommit loc).2 = none) (txs : List Transaction) (index : ℕ)
    (s s' : State Loc) (hidle : s.stateDB.intx = false) (r : Except Err (List Receipt))
    (h : (execTxGroup env txs index).exec s = (.ok r,s')) :
    GroupEnds env s.stateDB.view txs index r s'.stateDB.view :=
  (execTxGroup_unitEnds hr hs txs index s.stateDB.view s r s' ⟨hidle,rfl⟩ h).groupEnds
    hrs hlocal

end

/-- An environment without fees whose checks all pass. -/
def openEnv (isFork : Fork → Bool) (loadDriver : Transaction → ℕ → Driver Unit) : Env Unit where
  height := 1
  isPara := false
  minTxFeeRate := 0
  isFork := isFork
  hash := fun tx => tx.payload
  fromAddr := fun _ => []
  execPubKey := fun _ => [0]
  accountKeyPerfix := []
  encodeAccount := fun _ => []
  decodeAccount := fun _ => none
  encodeFeeLog := fun _ _ => []
  checkTx := fun _ _ => .ok ()
  isExpire := fun _ => false
  check := fun _ => .ok ()
  checkAddress := fun _ => .ok ()
  isAllowExec := fun _ _ _ => true
  localBegin := id
  localStartTx := id
  localRollback := id
  localCommit := fun loc => (loc,none)
  loadDriver := loadDriver
  txs := []

def fixedDriver (out : Outcome) : Driver Unit where
  isFree := true
  execLocalSameTime := false
  checkTx := fun _ _ _ _ => .reply (.ok ())
  exec := fun _ _ _ _ => .reply out
  execLocalTx := fun _ loc _ _ _ => .ok (loc,none)

def plainTx (payload : Bytes) (groupCount : ℤ) (header : Bytes) : Transaction :=
  ⟨[],payload,none,0,0,0,[],groupCount,header,[]⟩

/-- Names an entry in its receipt without having set it. -/
def silent : Outcome := ⟨[],.ok (.ok (some ⟨execOk,[([1],some [2])],[]⟩))⟩

def emptyState : State Unit := ⟨⟨fun _ => none,false,fun _ => none,none,[],false⟩,(),[]⟩

def pair : List Transaction := [plainTx [1] 2 [1],plainTx [2] 2 [1]]

theorem execTxGroup_atomic_pair : ∃ s' : State Unit,
    (execTxGroup (openEnv (fun _ => true) fun _ _ => fixedDriver silent) pair 0).exec emptyState =
      (.ok (.ok [⟨execOk,[([1],some [2])],[]⟩,⟨execOk,[([1],some [2])],[]⟩]),s') ∧
    GroupEnds (openEnv (fun _ => true) fun _ _ => fixedDriver silent) emptyState.stateDB.view pair 0
      (.ok [⟨execOk,[([1],some [2])],[]⟩,⟨execOk,[([1],some [2])],[]⟩]) s'.stateDB.view :=
  ⟨_,rfl,execTxGroup_atomic rfl rfl rfl (fun _ => rfl) pair 0 emptyState _ rfl _ rfl⟩

/-- Before ForkStateDBSet such an entry reaches the receipt but not the state database. -/
theorem execTxGroup_drops_entries : ¬∀ env : Env Unit, env.isFork .execRollback = true →
    env.isFork .resetTx0 = true → (∀ loc, (env.localCommit loc).2 = none) →
    ∀ txs index (s s' : State Unit) r, s.stateDB.intx = false →
      (execTxGroup env txs index).exec s = (.ok r,s') →
        GroupEnds env s.stateDB.view txs index r s'.stateDB.view := by
  intro h
  obtain ⟨head,hh,fee,hf,he⟩ := h (openEnv (· ≠ .stateDBSet) fun _ _ => fixedDriver silent)
    rfl rfl (fun _ => rfl) pair 0 emptyState _ _ rfl rfl
  cases hh
  obtain rfl : [] = fee := Option.some.inj hf
  rcases he with ⟨kvs,kvss,-,hmap,hv⟩ | ⟨-,hkvs⟩
  · obtain ⟨rfl,rfl⟩ := List.cons.inj hmap
    have ho := congrFun hv [1]
    revert ho
    decide
  · revert hkvs
    decide

end Dpos.Executor
