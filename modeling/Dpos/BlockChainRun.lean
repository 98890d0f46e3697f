import Dpos.BlockChainTwin

/-! Runs of `ProcessBlock`, and blocks that share their header hash with another block
but carry other transactions. A block is recorded under its header hash before its
body is executed; what it leaves behind decides whether the other block still gets
in. -/
namespace Dpos.BlockChain

open Proc Function State List

variable {T : Type} {s s' : State T} {su : Setup T} {k tip : ℕ} {mo : Moment T} {n : BlockNode} {d : Delivery} {h : Bytes}
  {w : World}

structure Call (T : Type) where
  broadcast : Bool
  detail : BlockDetail
  pid : Pid
  addBlock : Bool
  sequence : ℤ
  moment : Moment T

def Call.delivery (call : Call T) (id : ℕ) : Delivery := ⟨id,call.broadcast,call.detail,call.pid,call.sequence⟩

/-- A call with its number, which names the node it may lead to. -/
abbrev NumberedCall (T : Type) := Call T × ℕ

def process (su : Setup T) (s : State T) (c : NumberedCall T) : Except ChainError Outcome × State T :=
  (processBlock su c.1.moment (c.1.delivery c.2) c.1.addBlock).exec s

def step (su : Setup T) (s : State T) (c : NumberedCall T) : State T := (process su s c).2

def run (su : Setup T) (s : State T) (calls : List (NumberedCall T)) : State T := calls.foldl (step su) s

def Connects (su : Setup T) (s : State T) (c : NumberedCall T) : Prop :=
  (step su s c).hashToHeight (su.hash c.1.detail.block) = some c.1.detail.block.height

instance (su : Setup T) (s : State T) (c : NumberedCall T) : Decidable (Connects su s c) :=
  inferInstanceAs (Decidable (_ = _))

/-- A block under the header hash of `block` with another transaction list. -/
def Conflicts (su : Setup T) (block : Block) (call : Call T) : Prop :=
  call.addBlock = true ∧ su.hash call.detail.block = su.hash block ∧ call.detail.block.txs ≠ block.txs

instance (su : Setup T) (block : Block) (call : Call T) : Decidable (Conflicts su block call) :=
  inferInstanceAs (Decidable (_ ∧ _ ∧ _))

/-- The nodes that the index or the best chain refer to, and their ancestors. -/
inductive Live (s : State T) : ℕ → Prop
  | index {x : Bytes} {id : ℕ} (h : s.index x = some id) : Live s id
  | queue {id : ℕ} (h : id ∈ s.indexQueue) : Live s id
  | view {id : ℕ} (h : id ∈ s.view) : Live s id
  | viewNodes {x : ℤ} {id : ℕ} (h : s.viewNodes x = some id) : Live s id
  | parent {id p : ℕ} {node : BlockNode} (hid : Live s id) (hnode : s.nodes id = some node)
      (hp : node.parent = some p) : Live s p

/-- The call is turned away before anything is recorded. -/
def Refused (su : Setup T) (s : State T) (call : Call T) : Prop :=
  let block := call.detail.block
  call.pid ≠ .self ∧ (call.moment.closed = true ∨ s.blockExists (su.hash block) = true ∨
    (s.isKnownOrphan su (su.hash block) = true ∧ s.blockExists block.parentHash = false) ∨
    (s.isKnownOrphan su (su.hash block) = false ∧ prevHashExists s block = true ∧
      (s.index block.parentHash = none ∨ ∃ prev node, s.index block.parentHash = some prev ∧
        s.nodes prev = some node ∧ block.height ≠ node.height+1)))

/-- The call comes from the download, builds on the tip and fails to execute, under a
hash that is not in use and with room left in the index. -/
structure Withdrawn (su : Setup T) (s : State T) (call : Call T) (tip : ℕ) (node : BlockNode) : Prop where
  running : call.moment.closed = false
  download : call.pid = .download
  atTip : s.tip = some tip
  tipNode : s.nodes tip = some node
  onTip : call.detail.block.parentHash = node.hash
  tipIndexed : s.index call.detail.block.parentHash = some tip
  nextHeight : call.detail.block.height = node.height+1
  prevExists : prevHashExists s call.detail.block = true
  fails : ∃ err, call.moment.execBlock s.localDB node.statehash call.detail.block true = .error err
  room : s.indexQueue.length < indexCacheLimit
  noOrphan : s.isKnownOrphan su (su.hash call.detail.block) = false
  unindexed : s.index (su.hash call.detail.block) = none
  offChain : s.hashToHeight (su.hash call.detail.block) = none
  unused : ∀ id, Live s id → ∀ n, s.nodes id = some n → n.hash ≠ su.hash call.detail.block

def Harmless (su : Setup T) (s : State T) (call : Call T) : Prop :=
  Refused su s call ∨ ∃ tip node, Withdrawn su s call tip node

/-- Every call of the run that conflicts with the block is harmless where it comes. -/
def ConflictsHarmless (su : Setup T) (block : Block) : State T → List (NumberedCall T) → Prop
  | _,[] => True
  | s,c :: calls =>
    (Conflicts su block c.1 → Harmless su s c.1) ∧ ConflictsHarmless su block (step su s c) calls

/-- The nodes and orphans of a chain have numbers below `k`. -/
structure NumberedBelow (k : ℕ) (s : State T) : Prop where
  live : ∀ id, Live s id → id < k
  orphans : ∀ o ∈ s.orphans, o.id < k
  prevOrphans : ∀ o ∈ s.prevOrphans, o.id < k

lemma NumberedBelow.twin (hs : NumberedBelow k s) (h : Bytes) :
    Twin h k (True,{id | Live s id}) s s := by
  refine ⟨s.nodes,s.details,s.td,rfl,fun _ _ => rfl,fun _ _ => .index,fun _ => .queue,fun _ => .view,
    fun _ _ => .viewNodes,fun id hid n hnode p hp => .parent hid hnode hp,fun _ _ => ⟨rfl,rfl⟩,?_,
    hs.live,hs.orphans,hs.prevOrphans⟩
  intro hw
  exact absurd trivial hw

lemma Twin.mono {k' : ℕ} (t : Twin h k w s s')
    (hk : k ≤ k') : Twin h k' w s s' := by
  obtain ⟨ns,ds,td,he,t⟩ := t
  exact ⟨ns,ds,td,he,t.nodes_eq,t.index,t.queue,t.view,t.viewNodes,t.parent,t.store,t.unknown,
    fun id hid => (t.below id hid).trans_le hk,fun o ho => (t.orphans o ho).trans_le hk,
    fun o ho => (t.prevOrphans o ho).trans_le hk⟩

lemma TwinData.live_mem
    {ns : ℕ → Option BlockNode} {ds : Bytes → Option BlockDetail} {td : Bytes → Option ℕ}
    (t : TwinData h k w s ns ds td) {id : ℕ} (hid : Live s id) : id ∈ w.2 := by
  induction hid with
  | index hx => exact t.index _ _ hx
  | queue hid => exact t.queue _ hid
  | view hid => exact t.view _ hid
  | viewNodes hx => exact t.viewNodes _ _ hx
  | parent _ hnode hp ih => exact t.parent _ ih _ hnode _ hp

lemma checkSelf_not_self (hp : d.pid ≠ .self) (ab : Bool)
    (s : State T) : (checkSelf su d ab).exec s = (.ok (),s) := by
  unfold checkSelf
  rw [if_neg fun h => hp h.2]
  rfl

lemma process_add {c : NumberedCall T} (ha : c.1.addBlock = true)
    (hp : c.1.pid ≠ .self) (hc : c.1.moment.closed = false) :
    process su s c = (processAddBlock su c.1.moment (c.1.delivery c.2)).exec s := by
  have hs : (checkSelf su (c.1.delivery c.2) true).exec s = (.ok (),s) := checkSelf_not_self hp true s
  simp only [process,processBlock,ha,hc,exec_bind,exec_failIf,hs,Bool.false_eq_true,if_false,if_true]

lemma processAddBlock_accept
    (he : s.blockExists (su.hash d.detail.block) = false)
    (ho : s.isKnownOrphan su (su.hash d.detail.block) = false)
    (hp : prevHashExists s d.detail.block = true) {e : ChainError}
    (ha : (maybeAcceptBlock su mo d).exec s = (.error e,s')) :
    (processAddBlock su mo d).exec s = (.error e,s') := by
  simp only [processAddBlock,checkOrphan,maybeAddBestChain,exec_bind,exec_failIf,
    exec_reads,he,ho,hp,ha,Bool.false_eq_true,if_false,if_true,exec_pure]

lemma step_refused {c : NumberedCall T} (had : c.1.addBlock = true)
    (h : Refused su s c.1) : step su s c = s := by
  obtain ⟨hp,h⟩ := h
  have hd : (c.1.delivery c.2).detail = c.1.detail := rfl
  by_cases hc : c.1.moment.closed = true
  · simp [step,process,processBlock,exec_bind,exec_failIf,hc]
  rw [step,process_add had hp (by simpa using hc)]
  by_cases he : s.blockExists (su.hash c.1.detail.block) = true
  · simp [processAddBlock,exec_bind,exec_failIf,hd,he]
  have he' : s.blockExists (su.hash c.1.detail.block) = false := by simpa using he
  rcases h with h | h | ⟨ho,hpa⟩ | ⟨ho,hpr,hl⟩
  · exact absurd h hc
  · exact absurd h he
  · simp [processAddBlock,checkOrphan,exec_bind,exec_failIf,hd,he',ho,hpa]
  · have ha : ∃ e, (maybeAcceptBlock su c.1.moment (c.1.delivery c.2)).exec s = (.error e,s) := by
      rcases hl with hn | ⟨p,n,hs,hnode,hheight⟩
      · exact ⟨.errParentBlockNoExist,by simp [maybeAcceptBlock,exec_bind,hd,hn]⟩
      · refine ⟨.errBlockHeightNoMatch,?_⟩
        simp [maybeAcceptBlock,deref,exec_bind,exec_failIf,hd,hs,hnode,hheight]
    obtain ⟨e,ha⟩ := ha
    rw [processAddBlock_accept he' ho hpr ha]

lemma addNode_of_room {id : ℕ} (hr : s.indexQueue.length < indexCacheLimit) :
    s.addNode id = {s with
      indexQueue := s.indexQueue ++ [id]
      index := update s.index (s.nodeHash id) (some id)} := by
  unfold addNode expireNode
  split
  · rfl
  · rename_i delnode queue hq
    rw [if_neg]
    simp only [length_append,length_singleton]
    omega

lemma connectBestChain_download_fails {id : ℕ}
    {new : BlockNode} {d : BlockDetail} {err : ExecError} (hc : mo.closed = false)
    (ht : s.tip = some tip) (hnode : s.nodes tip = some n)
    (hp : d.block.parentHash = n.hash) (hn : s.nodes id = some new) (hpi : new.pid = .download)
    (he : mo.execBlock s.localDB n.statehash d.block true = .error err) :
    (connectBestChain su mo id d).exec s = (.error (.exec err),s.delNode new.hash) := by
  have htn : (tipNode : M T BlockNode).exec s = (.ok n,s) := by simp [tipNode,deref,exec_bind,ht,hnode]
  simp [connectBestChain,connectBlock,runBlock,execFailed,deref,exec_bind,exec_failIf,htn,hp,hc,hn,hpi,he]

lemma dbMaybeStoreBlock_exec (su : Setup T) (s : State T) (d : BlockDetail) :
    (∃ e, (dbMaybeStoreBlock su d).exec s = (.error e,s)) ∨ ∃ v, (dbMaybeStoreBlock su d).exec s =
        (.ok (),s.storeBlock (su.hash d.block) d v) := by
  by_cases hheight : d.block.height = 0
  · right
    exact ⟨_,by simp [dbMaybeStoreBlock,parentTd,hheight]; rfl⟩
  · cases ht : s.td d.block.parentHash with
    | none =>
      left
      exact ⟨.errHashNotExist,by simp [dbMaybeStoreBlock,parentTd,exec_bind,hheight,ht]⟩
    | some v =>
      right
      exact ⟨_,by simp [dbMaybeStoreBlock,parentTd,exec_bind,hheight,ht]; rfl⟩

/-- Taking a new node into the index and out again leaves the index as it was. -/
theorem delNode_addNode {id : ℕ} (hnode : s.nodes id = some n)
    (hr : s.indexQueue.length < indexCacheLimit) (hid : id ∉ s.indexQueue) (hi : s.index n.hash = none) :
    (s.addNode id).delNode n.hash = s.dropParent id := by
  have hh : s.nodeHash id = n.hash := by simp [nodeHash,hnode]
  have hq : (s.indexQueue ++ [id]).erase id = s.indexQueue := by
    rw [erase_append_right _ hid]
    simp
  have hu : update s.index n.hash none = s.index := by rw [← hi,update_eq_self]
  rw [addNode_of_room hr,hh]
  simp only [delNode,update_self,update_idem,hq,hu]
  rfl

/-- The block is stored and indexed, and the index forgets it again. -/
theorem step_withdrawn {c : NumberedCall T} {node : BlockNode}
    (had : c.1.addBlock = true) (h : Withdrawn su s c.1 tip node) (hf : ¬Live s c.2) :
    ∃ nodes ds td, step su s c = s.over nodes ds td ∧ (∀ id, id ≠ c.2 → nodes id = s.nodes id) ∧
      ∀ x, x ≠ su.hash c.1.detail.block → ds x = s.details x ∧ td x = s.td x := by
  obtain ⟨call,id⟩ := c
  dsimp only at h had hf ⊢
  set x := su.hash call.detail.block with hx
  have hei : s.blockExists x = false := by simp [blockExists,haveBlock,hx,h.unindexed,h.offChain]
  obtain ⟨err,hfa⟩ := h.fails
  have hp : call.pid ≠ .self := by simp [h.download]
  rw [step,process_add had hp h.running]
  have ht : tip ≠ id := fun he => hf (he ▸ .view (mem_of_mem_head? h.atTip))
  have ha : ∃ e s', (maybeAcceptBlock su call.moment (call.delivery id)).exec s = (.error e,s') ∧
      ∃ nodes ds td, s' = s.over nodes ds td ∧ (∀ j, j ≠ id → nodes j = s.nodes j) ∧
        ∀ y, y ≠ x → ds y = s.details y ∧ td y = s.td y := by
    have hd : (call.delivery id).detail = call.detail := rfl
    have hl := h.tipIndexed
    rcases dbMaybeStoreBlock_exec su s call.detail with ⟨e,hst⟩ | ⟨v,hst⟩
    · refine ⟨e,s,?_,s.nodes,s.details,s.td,rfl,fun _ _ => rfl,fun _ _ => ⟨rfl,rfl⟩⟩
      simp [maybeAcceptBlock,deref,exec_bind,exec_failIf,hd,hl,h.tipNode,h.nextHeight,hst]
    · let new := newBlockNode su (call.delivery id) tip
      let s1 : State T := {s.storeBlock x call.detail v with
        nodes := update s.nodes id (some new)}
      have hn : s1.nodes id = some new := update_self ..
      have hs2 : s1.addNode id = _ := addNode_of_room h.room
      have hc : (connectBestChain su call.moment id call.detail).exec (s1.addNode id) =
          (.error (.exec err),(s1.addNode id).delNode new.hash) := by
        have hti : (s1.addNode id).tip = some tip := hs2 ▸ h.atTip
        have hnode : (s1.addNode id).nodes tip = some node := hs2 ▸ (update_of_ne ht ..).trans h.tipNode
        have hn' : (s1.addNode id).nodes id = some new := hs2 ▸ hn
        have hlocal : (s1.addNode id).localDB = s.localDB := by rw [hs2]; rfl
        exact connectBestChain_download_fails h.running hti hnode h.onTip hn' h.download
          (hlocal ▸ hfa)
      refine ⟨.exec err,(s1.addNode id).delNode new.hash,?_,?_⟩
      · simp only [maybeAcceptBlock,deref,exec_bind,exec_failIf,exec_reads,
          exec_demand_some,exec_modify,hd,hl,h.tipNode,h.nextHeight,hst,ne_eq,
          not_true_eq_false,if_false]
        exact hc
      · rw [delNode_addNode hn h.room (fun hq => hf (.queue hq)) h.unindexed]
        refine ⟨_,_,_,rfl,fun j hj => ?_,fun y hy => ?_⟩
        · simp [s1,hj]
        · simp [storeBlock,s1,hy]
  obtain ⟨e,s',ha,hs'⟩ := ha
  rw [processAddBlock_accept hei h.noOrphan h.prevExists ha]
  exact hs'

section
variable {su : Setup T} {block : Block} {k : ℕ} {w : World} {s s' : State T} {call : Call T}

section
variable (t : Twin (su.hash block) k w s s')
include t

lemma step_conflict
    (hc : Conflicts su block call) (hha : Harmless su s call) :
    ∃ w', Twin (su.hash block) (k+1) w' (step su s (call,k)) s' := by
  obtain ⟨ha,hh,_⟩ := hc
  rcases hha with hr | ⟨tip,no,hw⟩
  · rw [step_refused ha hr]
    exact ⟨w,t.mono (Nat.le_succ k)⟩
  obtain ⟨ns,ds,td,rfl,t⟩ := t
  have hf : ¬Live s k := fun hk => lt_irrefl k (t.below k (t.live_mem hk))
  obtain ⟨ns1,ds1,td1,hs,hns,hta⟩ := step_withdrawn (c:=(call,k)) ha hw hf
  have hne : ∀ id, Live s id → id ≠ k := fun id hid he => hf (he ▸ hid)
  refine ⟨(False,{id | Live s id}),ns,ds,td,by rw [hs]; rfl,?_⟩
  rw [hs]
  exact {
    nodes_eq := fun id hid => (t.nodes_eq id (t.live_mem hid)).trans (hns id (hne id hid)).symm
    index := fun _ _ hx => Live.index (s:=s) hx
    queue := fun _ hid => Live.queue (s:=s) hid
    view := fun _ hid => Live.view (s:=s) hid
    viewNodes := fun _ _ hx => Live.viewNodes (s:=s) hx
    parent := fun id hid n hn p hp => .parent hid ((hns id (hne id hid)).symm.trans hn) hp
    store := by
      intro x hx
      have hxh : x ≠ su.hash block := fun he => hx he
      obtain ⟨hd,ht⟩ := t.store x fun he => absurd he hxh
      obtain ⟨hd1,ht1⟩ := hta x (hh ▸ hxh)
      exact ⟨hd.trans hd1.symm,ht.trans ht1.symm⟩
    unknown := fun _ => ⟨hh ▸ hw.unindexed,hh ▸ hw.offChain,fun id hid n hn =>
      hh ▸ hw.unused id hid n ((hns id (hne id hid)).symm.trans hn)⟩
    below := fun id hid => Nat.lt_succ_of_lt (t.below id (t.live_mem hid))
    orphans := fun o ho => Nat.lt_succ_of_lt (t.orphans o ho)
    prevOrphans := fun o ho => Nat.lt_succ_of_lt (t.prevOrphans o ho) }

lemma step_same (hm : NotMined su call.moment (su.hash block)) :
    (∃ w', Twin (su.hash block) (k+1) w' (step su s (call,k)) (step su s' (call,k))) ∧
      (process su s (call,k)).1 = (process su s' (call,k)).1 := by
  obtain ⟨w',_,ht,he,_⟩ := processBlock_keeps hm (d:=call.delivery k) (Nat.lt_succ_self k)
    call.addBlock s s' (t.mono (Nat.le_succ k))
  exact ⟨⟨w',ht⟩,he⟩

lemma run_twin {cs : List (Call T)}
    (hh : ConflictsHarmless su block s (cs.zipIdx k))
    (hm : ∀ call ∈ cs, NotMined su call.moment (su.hash block)) :
    ∃ w', Twin (su.hash block) (k+cs.length) w' (run su s (cs.zipIdx k))
      (run su s' ((cs.zipIdx k).filter fun c => ¬Conflicts su block c.1)) := by
  induction cs generalizing k w s s' with
  | nil => exact ⟨w,t⟩
  | cons call cs ih =>
    rw [zipIdx_cons] at hh ⊢
    have hl : k+(call :: cs).length = k+1+cs.length := by
      rw [length_cons]
      omega
    have hr := fun c hc => hm c (mem_cons_of_mem call hc)
    by_cases hca : Conflicts su block call
    · obtain ⟨w',t'⟩ := step_conflict t hca (hh.1 hca)
      rw [hl,filter_cons_of_neg (by simpa using hca)]
      exact ih t' hh.2 hr
    · obtain ⟨⟨w',t'⟩,_⟩ := step_same t (hm call (by simp))
      rw [hl,filter_cons_of_pos (by simpa using hca)]
      exact ih t' hh.2 hr

end

/-- Conflicting blocks that are turned away, or come from the download on top of the
tip and fail there, do not decide whether a block gets connected. -/
theorem connects_iff_without_conflicts (hs : NumberedBelow k s) (calls : List (Call T)) (last : Call T)
    (hh : ConflictsHarmless su last.detail.block s (calls.zipIdx k))
    (hm : ∀ call ∈ last :: calls, NotMined su call.moment (su.hash last.detail.block)) :
    Connects su (run su s (calls.zipIdx k)) (last,k+calls.length) ↔
      Connects su (run su s ((calls.zipIdx k).filter fun c => ¬Conflicts su last.detail.block c.1))
        (last,k+calls.length) := by
  obtain ⟨w,t⟩ := run_twin (hs.twin (su.hash last.detail.block)) hh
    fun call hc => hm call (mem_cons_of_mem last hc)
  obtain ⟨⟨w',nodes,details,td,he,_⟩,_⟩ := step_same t (hm last (by simp))
  unfold Connects
  rw [he]
  rfl

end

lemma live_start {ld : T} {id : ℕ} (h : Live (start ld) id) : id = 0 := by
  induction h with
  | @index x id hx =>
    simp only [start,update_apply] at hx
    split_ifs at hx
    exact (Option.some.inj hx).symm
  | queue hid => simpa [start] using hid
  | view hid => simpa [start] using hid
  | @viewNodes x id hx =>
    simp only [start,update_apply] at hx
    split_ifs at hx
    exact (Option.some.inj hx).symm
  | parent _ hnode hp ih =>
    subst ih
    obtain rfl : preGenBlockNode = _ := by simpa [start] using hnode
    cases hp

lemma numberedBelow_start (ld : T) : NumberedBelow 1 (start ld) where
  live := fun id hid => by rw [live_start hid]; exact Nat.zero_lt_one
  orphans := by simp [start]
  prevOrphans := by simp [start]

def Moment.calm (execBlock : T → Bytes → Block → Bool → Except ExecError BlockDetail) : Moment T where
  closed := false
  now := 0
  walk := id
  walk_perm := fun _ => .refl _
  execBlock := execBlock
  cmpBestBlock := fun _ _ => false

/-- Only empty blocks execute, and the root of the transactions serves as the hash. -/
def emptyBlocks : Setup Unit where
  hash := Block.txHash
  calcWork := fun _ => 1
  isParaChain := false
  enableBestBlockCmp := false
  addTxs := fun _ _ => .ok ()
  delTxs := fun _ _ => .ok ()

def emptyBlocksCall (txs : List Transaction) : Call Unit where
  broadcast := false
  detail := ⟨⟨0,zeroHash,[1],[],0,0,0,[],0,none,txs⟩,[],[],[]⟩
  pid := .download
  addBlock := true
  sequence := 0
  moment := .calm fun _ _ block errReturn =>
    if block.txs = [] ∧ errReturn = true then .ok ⟨block,[],[],[]⟩ else .error (.other "")

theorem connects_after_withdrawn :
    Connects emptyBlocks (run emptyBlocks (.start ()) [(emptyBlocksCall [signedCall []],1)])
      (emptyBlocksCall [],2) := by
  refine (connects_iff_without_conflicts (numberedBelow_start ()) [emptyBlocksCall [signedCall []]]
    (emptyBlocksCall []) ⟨fun _ => .inr ⟨0,preGenBlockNode,?_⟩,trivial⟩ ?_).mpr ?_
  · refine ⟨rfl,rfl,rfl,rfl,rfl,rfl,rfl,rfl,⟨_,rfl⟩,by decide,rfl,rfl,rfl,?_⟩
    intro id hid n hn
    rw [live_start hid] at hn
    cases hn
    decide
  · intro call hc localDB prevStateHash block detail he
    rcases mem_cons.mp hc with rfl | hc
    · simp [emptyBlocksCall,Moment.calm] at he
    · rw [mem_singleton.mp hc] at he
      simp [emptyBlocksCall,Moment.calm] at he
  · have hf : ([emptyBlocksCall [signedCall []]].zipIdx 1).filter
        (fun c => ¬Conflicts emptyBlocks (emptyBlocksCall []).detail.block c.1) = [] := by
      simp [Conflicts,emptyBlocksCall,emptyBlocks]
    rw [hf]
    rfl

/-- A main chain before its forks: header hash and root leave signatures out. -/
def beforeForksConfig : Config := ⟨false,fun _ => 5⟩

def beforeForks : Setup Unit := {emptyBlocks with hash := Block.hash Crypto.framed beforeForksConfig}

def beforeForksCall (height : ℤ) (parentHash txHash : Bytes) (txs : List Transaction) : Call Unit where
  broadcast := false
  detail := ⟨⟨0,parentHash,txHash,[],height,0,0,[],0,none,txs⟩,[],[],[]⟩
  pid := .peer "a"
  addBlock := true
  sequence := 0
  moment := .calm fun _ prevStateHash block errReturn =>
    match preExecBlock Crypto.framed 1 beforeForksConfig ⟨true,[],by simp⟩ .agreeing prevStateHash
        block errReturn false true with
    | .ok (detail,_) => .ok detail
    | .error _ => .error (.other "")

def genesisCall : Call Unit := beforeForksCall 0 zeroHash zeroHash []

def signedBlockCall (signed : Bool) : Call Unit :=
  beforeForksCall 1 (beforeForks.hash genesisCall.detail.block)
    ((signedCall [1]).hash Crypto.framed)
    [if signed then signedCall [1] else {signedCall [1] with signature := none}]

/-- A peer that sends the block without its signature first keeps the block out. -/
theorem connects_depends_on_conflict :
    Conflicts beforeForks (signedBlockCall true).detail.block (signedBlockCall false) ∧
      Connects beforeForks (run beforeForks (.start ()) [(genesisCall,1)]) (signedBlockCall true,3) ∧
      ¬Connects beforeForks (run beforeForks (.start ())
        [(genesisCall,1),(signedBlockCall false,2)]) (signedBlockCall true,3) := by
  decide +kernel

end Dpos.BlockChain
