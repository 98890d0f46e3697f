import Dpos.Executor

/-! Two runs of the executor side by side. They may start from states that differ only
in what reads have left in the cache, and have drivers that differ only in what they
make of a group which the first run does not show them. As long as the groups that are
asked for are found alike, the runs come to the same outcome. -/
namespace Dpos.Executor

open KeyIndex StateDB Proc

/-- State databases that differ only in what is cached of the store. -/
structure StateDB.Alike (s s' : StateDB) : Prop where
  store : s.store = s'.store
  below : s.below = s'.below
  txcache : s.txcache = s'.txcache
  keys : s.keys = s'.keys
  intx : s.intx = s'.intx

namespace StateDB
variable {s s' : StateDB}

lemma Alike.refl (s : StateDB) : Alike s s := ⟨rfl,rfl,rfl,rfl,rfl⟩

lemma Alike.symm (h : Alike s s') : Alike s' s :=
  ⟨h.store.symm,h.below.symm,h.txcache.symm,h.keys.symm,h.intx.symm⟩

lemma Alike.trans {s'' : StateDB} (h : Alike s s') (h' : Alike s' s'') : Alike s s'' :=
  ⟨h.store.trans h'.store,h.below.trans h'.below,h.txcache.trans h'.txcache,h.keys.trans h'.keys,
    h.intx.trans h'.intx⟩

lemma Alike.view (h : Alike s s') : s.view = s'.view := by
  simp only [StateDB.view,pending,h.intx,h.txcache,h.below]

lemma alike_get (s : StateDB) (key : Bytes) : Alike s (s.get key).2 := by
  obtain ⟨c,hs,hb⟩ := s.get_state key
  rw [hs]
  exact ⟨rfl,hb.symm,rfl,rfl,rfl⟩

/-- An operation that cannot tell such databases apart. -/
def Blind (f : StateDB → StateDB) : Prop := ∀ s s', Alike s s' → Alike (f s) (f s')

lemma blind_get (key : Bytes) : Blind (call · (.get key)) := by
  intro s s' h
  exact ((alike_get s key).symm.trans h).trans (alike_get s' key)

lemma blind_set (kv : KV) : Blind (set · kv) := by
  intro s s' h
  simp only [StateDB.set,← h.intx,← h.txcache,← h.keys]
  split
  · exact ⟨h.store,h.below,rfl,rfl,rfl⟩
  · refine ⟨h.store,?_,rfl,rfl,rfl⟩
    funext k
    have hk := congrFun h.below k
    by_cases he : k = kv.1
    · subst he
      simp [StateDB.below,overlay,write,h.store]
    · simpa [StateDB.below,overlay,write,he] using hk

lemma blind_call (c : Call) : Blind (StateDB.call · c) := by
  cases c with
  | get key => exact blind_get key
  | set kv => exact blind_set kv

lemma blind_setAll (kvs : List KV) : Blind (setAll · kvs) := by
  induction kvs with
  | nil => exact fun s s' h => h
  | cons kv kvs ih => exact fun s s' h => ih _ _ (blind_set kv s s' h)

lemma blind_callAll (cs : List Call) : Blind (callAll · cs) := by
  induction cs with
  | nil => exact fun s s' h => h
  | cons c cs ih => exact fun s s' h => ih _ _ (blind_call c s s' h)

lemma blind_begin : Blind (begin true) := fun _ _ h => ⟨h.store,h.below,rfl,rfl,rfl⟩

lemma blind_startTx : Blind startTx := fun _ _ h => ⟨h.store,h.below,h.txcache,rfl,h.intx⟩

lemma blind_rollback : Blind rollback := fun _ _ h => ⟨h.store,h.below,rfl,rfl,rfl⟩

lemma blind_commit : Blind (commit true) := by
  intro s s' h
  refine ⟨h.store,?_,rfl,rfl,rfl⟩
  have hb : ∀ s : StateDB, (s.commit true).below =
      overlay (s.txcache.getD fun _ => none) s.below := fun s => overlay_assoc _ _ _
  rw [hb,hb,h.txcache,h.below]

end StateDB

section
variable {Loc : Type}

structure Alike (s s' : State Loc) : Prop where
  stateDB : s.stateDB.Alike s'.stateDB
  localDB : s.localDB = s'.localDB

lemma Alike.refl (s : State Loc) : Alike s s := ⟨.refl _,rfl⟩

/-- Reactions that do the same with a group that both sides find. -/
def Reaction.Agrees {α : Type} (found found' : Except Panic (Except Err (List Transaction))) :
    Reaction α → Reaction α → Prop
  | .reply a, .reply a' => a = a'
  | .ask k, .ask k' => ∀ group, found = .ok group → found' = .ok group → k group = k' group
  | _, _ => False

variable {α : Type} {env env' : Env Loc}

lemma Reaction.Agrees.refl (f f' : Except Panic (Except Err (List Transaction)))
    (r : Reaction α) : r.Agrees f f' r := by
  cases r <;> simp [Reaction.Agrees]

lemma Reaction.Agrees.symm {f f' : Except Panic (Except Err (List Transaction))}
    {r r' : Reaction α} (h : r.Agrees f f' r') : r'.Agrees f' f r := by
  cases r <;> cases r' <;> simp only [Reaction.Agrees] at h ⊢
  · exact h.symm
  · exact fun g h1 h2 => (h g h2 h1).symm

structure Driver.Agrees (found found' : Except Panic (Except Err (List Transaction)))
    (tx : Transaction) (index : ℕ) (d d' : Driver Loc) : Prop where
  isFree : d.isFree = d'.isFree
  execLocalSameTime : d.execLocalSameTime = d'.execLocalSameTime
  execLocalTx : d.execLocalTx = d'.execLocalTx
  checkTx : ∀ v loc, (d.checkTx v loc tx index).Agrees found found' (d'.checkTx v loc tx index)
  exec : ∀ v loc, (d.exec v loc tx index).Agrees found found' (d'.exec v loc tx index)

/-- The drivers of the two environments do the same with the groups that both find. -/
def Agrees (env env' : Env Loc) : Prop :=
  ∀ tx index, (env.loadDriver tx index).Agrees (getTxGroup env index) (getTxGroup env' index) tx index
    (env'.loadDriver tx index)

lemma Agrees.of_loadDriver (h : env.loadDriver = env'.loadDriver) : Agrees env env' := by
  intro tx index
  rw [h]
  exact ⟨rfl,rfl,rfl,fun _ _ => .refl _ _ _,fun _ _ => .refl _ _ _⟩

lemma Agrees.symm (h : Agrees env env') : Agrees env' env := by
  intro tx index
  obtain ⟨h1,h2,h3,h4,h5⟩ := h tx index
  exact ⟨h1.symm,h2.symm,h3.symm,fun v loc => (h4 v loc).symm,fun v loc => (h5 v loc).symm⟩

/-- Two procedures made of the same steps, one for each environment. -/
inductive Twin (env env' : Env Loc) : {α : Type} → M Loc α → M Loc α → Prop
  | pure {α : Type} (a : α) : Twin env env' (pure a) (pure a)
  | throw {α : Type} (stop : Panic) : Twin env env' (throw stop : M Loc α) (throw stop)
  | bind {α β : Type} {m m' : M Loc α} {f f' : α → M Loc β} (hm : Twin env env' m m')
      (hf : ∀ a, Twin env env' (f a) (f' a)) : Twin env env' (m >>= f) (m' >>= f')
  | reads {α : Type} {g : State Loc → α} (h : ∀ s s', Alike s s' → g s = g s') :
      Twin env env' (reads g) (reads g)
  | onStateDB {f : StateDB → StateDB} (h : Blind f) : Twin env env' (onStateDB f) (Executor.onStateDB f)
  | onLocalDB (f : Loc → Loc) : Twin env env' (onLocalDB f) (Executor.onLocalDB f)
  | consult {α : Type} {index : ℕ} {r r' : Reaction α} (h : r.Agrees (getTxGroup env index) (getTxGroup env' index) r') :
      Twin env env' (consult env index r) (Executor.consult env' index r')

/-- From states alike, as long as the groups asked for are found alike. -/
theorem Twin.run {m m' : M Loc α} (h : Twin env env' m m')
    {s s' : State Loc} (hs : Alike s s') {r : Except Panic α} {t : State Loc} (hm : m.exec s = (r,t)) :
    ∃ new, t.asked = s.asked ++ new ∧ ((∀ j ∈ new, getTxGroup env j = getTxGroup env' j) →
      ∃ t', m'.exec s' = (r,t') ∧ Alike t t' ∧ t'.asked = s'.asked ++ new) := by
  induction h generalizing s s' t with
  | pure a
  | throw st =>
    cases hm
    exact ⟨[],by simp,fun _ => ⟨s',rfl,hs,by simp⟩⟩
  | @bind α β m m' f f' _ _ ihm ihf =>
    rcases he : m.exec s with ⟨_ | a,s1⟩
    · rw [exec_bind_error he] at hm
      cases hm
      obtain ⟨new,hn,hrun⟩ := ihm hs he
      refine ⟨new,hn,fun ha => ?_⟩
      obtain ⟨t',ht',hre⟩ := hrun ha
      exact ⟨t',exec_bind_error ht',hre⟩
    · rw [exec_bind_ok he] at hm
      obtain ⟨new1,hn1,hrun1⟩ := ihm hs he
      -- what the second part asks for does not depend on the state it is compared with
      obtain ⟨new2,hn2,-⟩ := ihf a (Alike.refl s1) hm
      refine ⟨new1 ++ new2,by rw [hn2,hn1,List.append_assoc],fun ha => ?_⟩
      obtain ⟨s1',hs1',hal,hak⟩ := hrun1 fun j hj => ha j (List.mem_append_left _ hj)
      obtain ⟨new,hn,hrun2⟩ := ihf a hal hm
      obtain rfl : new2 = new := List.append_cancel_left (hn2.symm.trans hn)
      obtain ⟨t',ht',hal',hak'⟩ := hrun2 fun j hj => ha j (List.mem_append_right _ hj)
      refine ⟨t',(exec_bind_ok hs1').trans ht',hal',?_⟩
      rw [hak',hak,List.append_assoc]
  | reads hg =>
    cases hm
    exact ⟨[],by simp,fun _ => ⟨s',by rw [exec_reads,hg _ _ hs],hs,by simp⟩⟩
  | onStateDB hf =>
    cases hm
    exact ⟨[],by simp,fun _ => ⟨_,rfl,⟨hf _ _ hs.stateDB,hs.localDB⟩,by simp⟩⟩
  | onLocalDB f =>
    cases hm
    exact ⟨[],by simp,fun _ => ⟨_,rfl,⟨hs.stateDB,congrArg f hs.localDB⟩,by simp⟩⟩
  | @consult α index r1 r2 hr =>
    cases r1 with
    | reply a =>
      cases r2 with
      | ask k' => exact hr.elim
      | reply a' =>
        obtain rfl : a = a' := hr
        cases hm
        exact ⟨[],by simp,fun _ => ⟨s',rfl,hs,by simp⟩⟩
    | ask k =>
      cases r2 with
      | reply a' => exact hr.elim
      | ask k' =>
        have hr : ∀ group, getTxGroup env index = .ok group → getTxGroup env' index = .ok group →
            k group = k' group := hr
        have hs' : Alike {s with asked := s.asked ++ [index]} {s' with asked := s'.asked ++ [index]} :=
          ⟨hs.stateDB,hs.localDB⟩
        unfold Executor.consult at hm ⊢
        rw [exec_bind_ok (exec_modify _ _)] at hm
        cases hgr : getTxGroup env index with
        | error st =>
          rw [hgr] at hm
          cases hm
          refine ⟨[index],rfl,fun ha => ⟨_,?_,hs',rfl⟩⟩
          rw [exec_bind_ok (exec_modify _ _),← ha index (by simp),hgr]
          rfl
        | ok group =>
          rw [hgr] at hm
          cases hm
          refine ⟨[index],rfl,fun ha => ⟨_,?_,hs',rfl⟩⟩
          have hgr' : getTxGroup env' index = .ok group := by rw [← ha index (by simp),hgr]
          rw [exec_bind_ok (exec_modify _ _),hgr',hr group hgr hgr']
          rfl

/-! ### The procedures of the executor -/

/-- The same environment with other drivers and another list. -/
abbrev Env.other (env : Env Loc) (ld : Transaction → ℕ → Driver Loc) (txs' : List Transaction) :
    Env Loc := {env with loadDriver := ld, txs := txs'}

variable {env : Env Loc} {ld : Transaction → ℕ → Driver Loc} {txs' : List Transaction}

variable (env ld txs') in
/-- A procedure of the executor is made of the same steps there. -/
abbrev Env.Twins (f : Env Loc → M Loc α) : Prop :=
  Twin env (env.other ld txs') (f env) (f (env.other ld txs'))

lemma twin_begin : env.Twins ld txs' begin := by
  unfold Env.Twins begin
  split
  · exact .bind (.onStateDB blind_begin) fun _ => .onLocalDB _
  · exact .pure _

lemma twin_commit : env.Twins ld txs' commit := by
  unfold Env.Twins commit
  split
  · refine .bind (.onStateDB blind_commit) fun _ => .bind (.reads ?_) fun _ => ?_
    · intro s s' h
      rw [h.localDB]
    · exact .bind (.onLocalDB _) fun _ => .pure _
  · exact .pure _

lemma twin_startTx : env.Twins ld txs' startTx :=
  .bind (.onStateDB blind_startTx) fun _ => .onLocalDB _

lemma twin_rollback : env.Twins ld txs' rollback := by
  unfold Env.Twins rollback
  split
  · exact .bind (.onStateDB blind_rollback) fun _ => .onLocalDB _
  · exact .pure _

lemma twin_databases (env env' : Env Loc) : Twin env env' databases databases :=
  .reads fun _ _ h => by rw [h.stateDB.view,h.localDB]

lemma twin_loadAccount (a : Bytes) :
    env.Twins ld txs' (loadAccount · a) := by
  refine .bind (.reads ?_) fun v => .bind (.onStateDB (blind_get _)) fun _ => ?_
  · intro s s' h
    rw [get_value,get_value,h.stateDB.view]
  · cases v with
    | none => exact .pure _
    | some v =>
      dsimp only
      cases env.decodeAccount v with
      | none => exact .throw _
      | some acc => exact .pure _

variable (hld : Agrees env (env.other ld txs'))

variable (txs : List Transaction) (fe : Receipt) (tx : Transaction) (i : ℕ) (re : Option Receipt)

lemma twin_processFee :
    env.Twins ld txs' (processFee · tx) := by
  refine .bind (twin_loadAccount _) fun acc => ?_
  split
  · exact .bind (.onStateDB (blind_set _)) fun _ => .pure _
  · exact .pure _

include hld

lemma twin_checkOwn : env.Twins ld txs' (checkOwn · tx i) := by
  refine .bind (twin_databases _ _) fun f => ?_
  dsimp only
  split
  · exact .consult ((hld tx i).checkTx _ _)
  · exact .pure _

lemma twin_execFee : env.Twins ld txs' (execFee · tx i) := by
  refine .bind (twin_checkOwn hld tx i) fun r => ?_
  cases r with
  | error err => exact .pure _
  | ok =>
    dsimp only
    rw [(hld tx i).isFree]
    split
    · exact twin_processFee tx
    · exact .pure _

lemma twin_exec : env.Twins ld txs' (exec · tx i) := by
  unfold Env.Twins exec
  dsimp only
  split
  · exact .pure _
  · refine .bind (twin_databases _ _) fun f => ?_
    refine .bind (.consult ((hld tx i).checkTx _ _)) fun r => ?_
    cases r with
    | error err => exact .pure _
    | ok =>
      refine .bind (.consult ((hld tx i).exec _ _)) fun out => ?_
      refine .bind (.onStateDB (blind_callAll _)) fun _ => ?_
      split
      · exact .throw _
      · exact .pure _

lemma twin_execLocalSameTime (i : ℕ) : env.Twins ld txs' (execLocalSameTime · tx re i) := by
  unfold Env.Twins execLocalSameTime
  dsimp only
  rw [(hld tx i).execLocalSameTime,(hld tx i).execLocalTx]
  split
  · refine .bind (twin_databases _ _) fun f => ?_
    dsimp only
    split
    · exact .throw _
    · exact .bind (.onLocalDB _) fun _ => .pure _
  · exact .pure _

lemma twin_settle : env.Twins ld txs' (settle · fe tx i re) := by
  refine .bind (.reads ?_) fun ks => ?_
  · intro s s' h
    exact h.stateDB.keys
  · split
    · exact .pure _
    · split
      · exact .pure _
      · refine .bind (twin_execLocalSameTime hld tx re i) fun err => ?_
        cases err with
        | some err => exact .pure _
        | none =>
          refine .bind ?_ fun _ => .pure _
          unfold setKVs
          split
          · exact .onStateDB (blind_setAll _)
          · exact .pure _

lemma twin_execTxOne : env.Twins ld txs' (execTxOne · fe tx i) := by
  refine .bind twin_startTx fun _ => .bind (twin_exec hld tx i) fun r => ?_
  cases r with
  | error err => exact .pure _
  | ok re => exact twin_settle hld fe tx i re

lemma twin_execMembers (rl : Receipt) (txs : List Transaction) (done : List Receipt) (i : ℕ) :
    env.Twins ld txs' (execMembers · rl done txs i) := by
  induction txs generalizing done i with
  | nil =>
    refine .bind twin_commit fun err => ?_
    cases err <;> exact .pure _
  | cons tx txs ih =>
    refine .bind (twin_execTxOne hld packReceipt tx i) fun r => ?_
    obtain ⟨re,_ | err⟩ := r
    · exact ih _ _
    · dsimp only
      split
      · exact .pure _
      · exact .bind twin_rollback fun _ => .pure _

lemma twin_execTxGroup : env.Twins ld txs' (execTxGroup · txs i) := by
  have hc : checkTxGroup (env.other ld txs') txs = checkTxGroup env txs := rfl
  simp only [Env.Twins,execTxGroup,hc]
  split
  · exact .pure _
  · cases txs with
    | nil => exact .throw _
    | cons head ms =>
      refine .bind (twin_execFee hld head i) fun r => ?_
      cases r with
      | error err => exact .pure _
      | ok fe =>
        refine .bind twin_begin fun _ => ?_
        refine .bind (twin_execTxOne hld fe head i) fun r => ?_
        obtain ⟨re,_ | err⟩ := r
        · exact twin_execMembers hld fe ms [re] (i+1)
        · dsimp only
          split
          · exact .pure _
          · exact .bind twin_rollback fun _ => .pure _

lemma twin_execTx : env.Twins ld txs' (execTx · tx i) := by
  unfold Env.Twins execTx
  dsimp only
  split
  · refine .bind (twin_exec hld tx i) fun r => ?_
    split
    · exact .pure _
    · exact .throw _
  · split
    · split
      · exact .throw _
      · exact .pure _
    · refine .bind (twin_execFee hld tx i) fun r => ?_
      cases r with
      | error err => exact .pure _
      | ok fe =>
        refine .bind twin_begin fun _ => ?_
        refine .bind (twin_execTxOne hld fe tx i) fun r => ?_
        obtain ⟨re,_ | err⟩ := r
        · refine .bind twin_commit fun err => ?_
          cases err <;> exact .pure _
        · refine .bind twin_rollback fun _ => ?_
          split <;> exact .pure _

lemma twin_execUnit (ms : List Transaction) (i : ℕ) : env.Twins ld txs' (execUnit · tx ms i) := by
  unfold Env.Twins execUnit
  split
  · refine .bind (twin_execTx hld tx i) fun r => ?_
    cases r <;> exact .pure _
  · refine .bind (twin_execTxGroup hld (tx :: ms) i) fun r => ?_
    cases r with
    | error err => exact .pure _
    | ok rs =>
      refine .bind ?_ fun _ => .pure _
      unfold failIf
      split
      · exact .throw _
      · exact .pure _

lemma twin_execTxs (skip i : ℕ) : env.Twins ld txs' (execTxs · txs skip i) := by
  induction txs generalizing skip i with
  | nil => exact .pure _
  | cons tx rest ih =>
    cases skip with
    | succ skip => exact ih skip i
    | zero =>
      have hu : unitSize (env.other ld txs') tx rest = unitSize env tx rest := rfl
      simp only [Env.Twins,execTxs,hu]
      split
      · exact .bind (ih 0 i) fun _ => .pure _
      · refine .bind (twin_execUnit hld tx _ i) fun r => ?_
        cases r with
        | ok rs => exact .bind (ih _ _) fun _ => .pure _
        | error err =>
          dsimp only
          split
          · exact .pure _
          · exact .bind (ih _ _) fun _ => .pure _

end
end Dpos.Executor
