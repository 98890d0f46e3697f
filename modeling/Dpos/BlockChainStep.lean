import Dpos.BlockChainView
import Dpos.BlockChainRun

/-! What each procedure of block processing can do to the state, said once: how it may end
and in which state. -/
namespace Dpos.BlockChain

open List Proc State Prod

variable {T : Type}

def State.tdBelow (s : State T) (block : Block) : Option ℕ :=
  if block.height = 0 then some 0 else s.td block.parentHash

/-- The local database lets go of blocks, one after another. -/
def Setup.undo (su : Setup T) : T → List BlockDetail → Except String T
  | localDB,[] => .ok localDB
  | localDB,detail :: details =>
    match su.delTxs localDB detail with
    | .error text => .error text
    | .ok localDB => su.undo localDB details

def State.tipNode (s : State T) : Option BlockNode := s.tip.bind s.nodes

variable {node : BlockNode} {id : ℕ} {detail : BlockDetail}

section
variable (su : Setup T) (mo : Moment T) (s : State T) {tip : BlockNode}

@[simp] lemma exec_deref (id : ℕ) :
    (deref id : M T BlockNode).exec s = ((s.nodes id).elim (.error .nilPointer) .ok,s) := by
  rw [deref,exec_bind_ok (exec_reads _ s)]
  cases s.nodes id <;> rfl

@[simp] lemma exec_tipNode : (tipNode : M T BlockNode).exec s = (s.tipNode.elim (.error .nilPointer) .ok,s) := by
  cases ht : s.tip <;> simp [tipNode,State.tipNode,exec_bind,ht]

@[simp] lemma exec_parentTd (block : Block) :
    (parentTd block : M T ℕ).exec s = ((s.tdBelow block).elim (.error .errHashNotExist) .ok,s) := by
  rw [parentTd,tdBelow]
  split_ifs with h
  · rfl
  · rw [exec_bind_ok (exec_reads _ s)]
    cases s.td block.parentHash <;> rfl

@[simp] lemma exec_liftLocal {α : Type} (r : Except String α) :
    (liftLocal r : M T α).exec s = (r.mapError .localDB,s) := by
  cases r <;> rfl

@[simp] lemma exec_updateSelf (id : ℕ) (node : BlockNode) (b : Block) :
    (updateSelf su id node b).exec s = (.ok (),s.learn su id node b) := by
  rw [updateSelf,learn]
  split_ifs <;> rfl

def State.failed (s : State T) (node : BlockNode) (err : ExecError) : State T :=
  if node.pid = .download ∨ (isRecordFaultErr err = false ∧ node.pid = .self) then
    s.delNode node.hash
  else s

lemma exec_runBlock (node : BlockNode) (psh : Bytes) (block : Block) : (runBlock mo node psh block).exec s =
      match mo.execBlock s.localDB psh block (node.pid ≠ .self) with
      | .error err => (.error (.exec err),s.failed node err)
      | .ok detail => (.ok detail,s) := by
  rw [runBlock,exec_bind_ok (exec_reads _ s)]
  cases mo.execBlock s.localDB psh block (node.pid ≠ .self) with
  | error err =>
    have hf : (execFailed node err : M T Unit).exec s = (.ok (),s.failed node err) := by
      rw [execFailed,failed]
      split_ifs <;> rfl
    rw [exec_bind_ok hf]
    rfl
  | ok detail => rfl

def State.connected (s : State T) (su : Setup T) (id : ℕ) (node : BlockNode) (detail : BlockDetail)
    (td : ℕ) (localDB : T) : State T :=
  ((s.learn su id node detail.block).saveBlock (su.hash detail.block) detail td localDB).setTip id

lemma exec_connectBlock (hc : mo.closed = false)
    (ht : s.tipNode = some tip) (hnode : s.nodes id = some node) (hp : detail.block.parentHash = tip.hash) :
    (connectBlock su mo id detail).exec s =
      match mo.execBlock s.localDB tip.statehash detail.block (node.pid ≠ .self) with
      | .error err => (.error (.exec err),s.failed node err)
      | .ok blockdetail => match su.addTxs s.localDB blockdetail with
        | .error text => (.error (.localDB text),s.learn su id node blockdetail.block)
        | .ok localDB => match s.tdBelow detail.block with
          | none => (.error .errHashNotExist,s.learn su id node blockdetail.block)
          | some p => (.ok blockdetail,s.connected su id node blockdetail
              (su.calcWork detail.block.difficulty+p) localDB) := by
  simp only [connectBlock,exec_bind,exec_failIf,hc,exec_tipNode,ht,exec_deref,hnode,hp,exec_runBlock,
    Bool.false_eq_true,if_false,Option.elim_some,ne_eq,not_true_eq_false]
  cases mo.execBlock s.localDB tip.statehash detail.block (node.pid ≠ .self) with
  | error err => rfl
  | ok b =>
    obtain ⟨-,-,-,htd,hlocal⟩ := learn_frame s su id node b.block
    have hb : (s.learn su id node b.block).tdBelow detail.block = s.tdBelow detail.block := by
      rw [tdBelow,htd,← tdBelow]
    simp only [exec_updateSelf,exec_reads,exec_liftLocal,hlocal]
    cases su.addTxs s.localDB b with
    | error text => rfl
    | ok localDB =>
      simp only [Except.mapError,exec_parentTd,hb]
      cases s.tdBelow detail.block <;> rfl

/-- `connectBlock` refuses a block without having changed anything, or gets to its
execution. -/
theorem connectBlock_cases (id : ℕ) (detail : BlockDetail) :
    (∃ e, (connectBlock su mo id detail).exec s = (.error e,s)) ∨
    ∃ tip node, mo.closed = false ∧ s.tipNode = some tip ∧ s.nodes id = some node ∧
      detail.block.parentHash = tip.hash := by
  cases hc : mo.closed with
  | true => exact .inl ⟨.errIsClosed,by simp [connectBlock,exec_bind,hc]⟩
  | false =>
  cases ht : s.tipNode with
  | none => exact .inl ⟨.nilPointer,by simp [connectBlock,exec_bind,hc,ht]⟩
  | some tip =>
  by_cases hp : detail.block.parentHash = tip.hash
  swap
  · exact .inl ⟨.errBlockHashNoMatch,by simp [connectBlock,exec_bind,hc,ht,hp]⟩
  cases hn : s.nodes id with
  | none => exact .inl ⟨.nilPointer,by simp [connectBlock,exec_bind,hc,ht,hp,hn]⟩
  | some node => exact .inr ⟨tip,node,rfl,rfl,rfl,hp⟩

def State.disconnected (s : State T) (su : Setup T) (id : ℕ) (detail : BlockDetail) (localDB : T) :
    State T := (s.delBlock (su.hash detail.block) detail.block.height localDB).delTip id

/-- How `disconnectBlock` ends for the block at the tip: it still fails after the block was
taken back if there is no node below. -/
theorem exec_disconnectBlock (ht : s.tipNode = some tip)
    (hnode : s.nodes id = some node) (hh : node.hash = tip.hash) (detail : BlockDetail) :
    (disconnectBlock su id detail).exec s = match su.delTxs s.localDB detail with
      | .error text => (.error (.localDB text),s)
      | .ok ld => (if node.parent.isSome ∧ (s.disconnected su id detail ld).tipNode.isSome then .ok ()
          else .error .nilPointer,s.disconnected su id detail ld) := by
  cases hdel : su.delTxs s.localDB detail with
  | error text => simp [disconnectBlock,exec_bind,hnode,ht,hh,hdel,Except.mapError]
  | ok ld =>
    have ha := exec_tipNode (s.disconnected su id detail ld)
    simp only [disconnectBlock,exec_bind,exec_deref,hnode,exec_tipNode,ht,hh,exec_failIf,exec_reads,exec_liftLocal,hdel,
      Except.mapError,exec_modify,Option.elim_some,ne_eq,not_true_eq_false,if_false]
    rw [← disconnected]
    cases node.parent with
    | none => rfl
    | some p => cases hn : (s.disconnected su id detail ld).tipNode <;> simp [hn]

/-- `disconnectBlock` refuses without having changed anything, or takes the block back. -/
theorem disconnectBlock_cases (id : ℕ) (detail : BlockDetail) :
    (∃ e, (disconnectBlock su id detail).exec s = (.error e,s)) ∨
    ∃ tip node ld, s.tipNode = some tip ∧ s.nodes id = some node ∧ node.hash = tip.hash ∧
      su.delTxs s.localDB detail = .ok ld ∧ (disconnectBlock su id detail).exec s =
        (if node.parent.isSome ∧ (s.disconnected su id detail ld).tipNode.isSome then .ok ()
          else .error .nilPointer,s.disconnected su id detail ld) := by
  cases hnode : s.nodes id with
  | none => exact .inl ⟨.nilPointer,by simp [disconnectBlock,exec_bind,hnode]⟩
  | some node =>
  cases htp : s.tipNode with
  | none => exact .inl ⟨.nilPointer,by simp [disconnectBlock,exec_bind,hnode,htp]⟩
  | some tip =>
  by_cases hh : node.hash = tip.hash
  swap
  · exact .inl ⟨.errBlockHashNoMatch,by simp [disconnectBlock,exec_bind,hnode,htp,hh]⟩
  have he := exec_disconnectBlock su s htp hnode hh detail
  cases hdel : su.delTxs s.localDB detail with
  | error text =>
    rw [hdel] at he
    exact .inl ⟨.localDB text,he⟩
  | ok ld =>
    rw [hdel] at he
    exact .inr ⟨tip,node,ld,rfl,rfl,hh,rfl,he⟩

lemma loadBlocks_cases (ids : List ℕ) : (∃ e, (loadBlocks ids : M T _).exec s = (.error e,s) ∧
      ((e = .nilPointer ∧ ∃ i ∈ ids, s.nodes i = none) ∨
        e = .errHashNotExist ∧ ∃ i ∈ ids, ∃ node, s.nodes i = some node ∧ s.details node.hash = none)) ∨
    ∃ blocks, (loadBlocks ids : M T _).exec s = (.ok blocks,s) ∧ blocks.map fst = ids ∧
      ∀ b ∈ blocks, ∃ node, s.nodes b.1 = some node ∧ s.details node.hash = some b.2 := by
  induction ids with
  | nil => exact .inr ⟨[],rfl,rfl,by simp⟩
  | cons id ids ih =>
    cases hnode : s.nodes id with
    | none =>
      exact .inl ⟨.nilPointer,by simp [loadBlocks,exec_bind,hnode],.inl ⟨rfl,id,by simp,hnode⟩⟩
    | some node =>
    cases hdt : s.details node.hash with
    | none =>
      exact .inl ⟨.errHashNotExist,by simp [loadBlocks,exec_bind,hnode,hdt],.inr ⟨rfl,id,by simp,node,hnode,hdt⟩⟩
    | some detail =>
    rcases ih with ⟨e,hr,hw⟩ | ⟨blocks,hr,his,hbs⟩
    · refine .inl ⟨e,by simp [loadBlocks,exec_bind,hnode,hdt,hr,-bind_pure_comp],?_⟩
      rcases hw with ⟨he,i,hi,hn⟩ | ⟨he,i,hi,hn⟩
      · exact .inl ⟨he,i,mem_cons_of_mem id hi,hn⟩
      · exact .inr ⟨he,i,mem_cons_of_mem id hi,hn⟩
    · refine .inr ⟨(id,detail) :: blocks,by simp [loadBlocks,exec_bind,hnode,hdt,hr,-bind_pure_comp],by rw [map_cons,his],?_⟩
      exact forall_mem_cons.mpr ⟨⟨node,hnode,hdt⟩,hbs⟩

/-- The block outweighs the tip, or is as heavy and preferred. -/
def Outweighs (tip node : BlockNode) (block : Block) (tiptd blocktd : ℕ) : Prop :=
  ¬(blocktd ≤ tiptd ∧ ¬(su.enableBestBlockCmp = true ∧ blocktd = tiptd ∧ node.height = tip.height ∧
    mo.cmpBestBlock block tip.hash = true))

/-- A block beside the tip fails, stays on its branch, or leads to a reorganisation. -/
theorem connectFork_cases (id : ℕ) (tip : BlockNode) (detail : BlockDetail) :
    (∃ e, (connectFork su mo id tip detail).exec s = (.error e,s) ∧
      ((e = .errHashNotExist ∧ s.td tip.hash = none) ∨
        (e = .errParentTdNoExist ∧ s.td detail.block.parentHash = none) ∨
        e = .nilPointer ∧ (s.nodes id = none ∨ s.findFork id = none))) ∨
    ((connectFork su mo id tip detail).exec s = (.ok (none,false),s) ∧ s.findFork id ≠ none) ∨
    ∃ ti p node, s.td tip.hash = some ti ∧ s.td detail.block.parentHash = some p ∧
      s.nodes id = some node ∧ Outweighs su mo tip node detail.block ti (node.difficulty+p) ∧
      (connectFork su mo id tip detail).exec s =
        (reorganizeChain su mo (s.getReorganizeNodes id).1 (s.getReorganizeNodes id).2 >>= fun _ =>
          (pure (none,true) : M T (Option BlockDetail × Bool))).exec s := by
  cases ht : s.td tip.hash with
  | none => exact .inl ⟨.errHashNotExist,by simp [connectFork,exec_bind,ht],.inl ⟨rfl,rfl⟩⟩
  | some ti =>
  cases hp : s.td detail.block.parentHash with
  | none => exact .inl ⟨.errParentTdNoExist,by simp [connectFork,exec_bind,ht,hp],.inr (.inl ⟨rfl,rfl⟩)⟩
  | some p =>
  cases hnode : s.nodes id with
  | none => exact .inl ⟨.nilPointer,by simp [connectFork,exec_bind,ht,hp,hnode],.inr (.inr ⟨rfl,.inl rfl⟩)⟩
  | some node =>
  simp only [connectFork,exec_bind,exec_reads,ht,hp,exec_demand_some,exec_deref,hnode,Option.elim_some]
  by_cases hs : node.difficulty+p ≤ ti ∧ ¬(su.enableBestBlockCmp = true ∧
      node.difficulty+p = ti ∧ node.height = tip.height ∧
      mo.cmpBestBlock detail.block tip.hash = true)
  · rw [if_pos hs]
    cases hf : s.findFork id with
    | none => exact .inl ⟨.nilPointer,by simp [exec_bind,hf,-bind_pure_comp],.inr (.inr ⟨rfl,.inr rfl⟩)⟩
    | some fork => exact .inr (.inl ⟨by simp [exec_bind,hf,-bind_pure_comp],by simp⟩)
  · rw [if_neg hs]
    exact .inr (.inr ⟨ti,p,node,rfl,rfl,rfl,hs,by simp [exec_bind,-bind_pure_comp]⟩)

def State.accepted (s : State T) (su : Setup T) (d : Delivery) (prev td : ℕ) : State T :=
  let stored := s.storeBlock (su.hash d.detail.block) d.detail
    (su.calcWork d.detail.block.difficulty+td)
  addNode {stored with nodes := Function.update s.nodes d.id (some (newBlockNode su d prev))} d.id

/-- A block with its parent in the index is stored and goes on to `connectBestChain`. -/
theorem exec_maybeAcceptBlock {d : Delivery} {prev td : ℕ} {pn : BlockNode}
    (hp : s.index d.detail.block.parentHash = some prev) (hnode : s.nodes prev = some pn)
    (hheight : d.detail.block.height = pn.height+1) (ht : s.tdBelow d.detail.block = some td) :
    (maybeAcceptBlock su mo d).exec s =
      (connectBestChain su mo d.id d.detail).exec (s.accepted su d prev td) := by
  simp [maybeAcceptBlock,dbMaybeStoreBlock,exec_bind,hp,hnode,hheight,ht]
  rfl

/-- `maybeAcceptBlock` refuses without having changed anything, or goes on with the node. -/
theorem maybeAcceptBlock_cases (d : Delivery) : (∃ e, (maybeAcceptBlock su mo d).exec s = (.error e,s)) ∨
    ∃ prev pn td, s.index d.detail.block.parentHash = some prev ∧ s.nodes prev = some pn ∧
      d.detail.block.height = pn.height+1 ∧ s.tdBelow d.detail.block = some td ∧
      (maybeAcceptBlock su mo d).exec s =
        (connectBestChain su mo d.id d.detail).exec (s.accepted su d prev td) := by
  cases hp : s.index d.detail.block.parentHash with
  | none => exact .inl ⟨.errParentBlockNoExist,by simp [maybeAcceptBlock,exec_bind,hp]⟩
  | some prev =>
  cases hnode : s.nodes prev with
  | none => exact .inl ⟨.nilPointer,by simp [maybeAcceptBlock,exec_bind,hp,hnode]⟩
  | some pn =>
  by_cases hheight : d.detail.block.height = pn.height+1
  swap
  · exact .inl ⟨.errBlockHeightNoMatch,by simp [maybeAcceptBlock,exec_bind,hp,hnode,hheight]⟩
  cases ht : s.tdBelow d.detail.block with
  | none =>
    exact .inl ⟨.errHashNotExist,by simp [maybeAcceptBlock,dbMaybeStoreBlock,exec_bind,hp,hnode,hheight,ht]⟩
  | some td => exact .inr ⟨prev,pn,td,rfl,hnode,hheight,rfl,exec_maybeAcceptBlock su mo s hp hnode hheight ht⟩

lemma connectBestChain_cases (id : ℕ) (detail : BlockDetail) :
    (s.tipNode = none ∧ (connectBestChain su mo id detail).exec s = (.error .nilPointer,s)) ∨
    ∃ tip, s.tipNode = some tip ∧
      ((detail.block.parentHash = tip.hash ∧ (connectBestChain su mo id detail).exec s =
        (connectBlock su mo id detail >>= fun b =>
          (pure (some b,true) : M T (Option BlockDetail × Bool))).exec s) ∨
      (detail.block.parentHash ≠ tip.hash ∧
        (connectBestChain su mo id detail).exec s = (connectFork su mo id tip detail).exec s)) := by
  cases ht : s.tipNode with
  | none => exact .inl ⟨rfl,by simp [connectBestChain,exec_bind,ht]⟩
  | some tip =>
    refine .inr ⟨tip,rfl,?_⟩
    by_cases hp : detail.block.parentHash = tip.hash
    · exact .inl ⟨hp,by simp [connectBestChain,exec_bind,ht,hp]⟩
    · exact .inr ⟨hp,by simp [connectBestChain,exec_bind,ht,hp]⟩

end

/-! ### Soundness of connecting and disconnecting -/

structure State.Sound (su : Setup T) (s : State T) : Prop where
  forest : s.Forest su
  flat : s.Flat

namespace State.Sound
variable {su : Setup T} {mo : Moment T} {s : State T}

variable {t : ℕ} {bs : List (ℕ × BlockDetail)}

lemma tipNode_isSome (h : s.Sound su) (ht : s.tip = some t) :
    ∃ tip, s.tipNode = some tip ∧ s.nodes t = some tip := by
  obtain ⟨tip,htp⟩ := Option.isSome_iff_exists.mp (h.flat.held t (mem_of_mem_head? ht))
  exact ⟨tip,by rw [tipNode,ht,Option.bind_some,htp],htp⟩

lemma viewHeight_eq (ht : s.tip = some t) : s.viewHeight = s.nodeHeight t := by
  rw [viewHeight,ht]
  rfl

variable {i : ℕ} {rest : List ℕ} {f : ℕ}

section
variable (h : s.Sound su)
include h

section
variable (hs : su.Binds) (hnode : s.nodes id = some node) (ha : s.viewHeight < node.height)
include hs hnode ha

/-- A node that is found under the hash of a node above the tip is not in the view. -/
theorem not_mem_view (hi : s.index node.hash = some i) : i ∉ s.view := by
  intro hv
  obtain ⟨n,hn,hh⟩ := h.forest.index _ i hi
  have he := (h.forest.formed i n hn).height_eq hs (h.forest.formed id node hnode) hh
  have hl := h.flat.height_le h.forest hv
  rw [nodeHeight_eq hn] at hl
  omega

lemma failed (err : ExecError) : (s.failed node err).Sound su := by
  rw [State.failed]
  split_ifs
  · exact ⟨h.forest.delNode _,h.flat.delNode fun i hi => h.not_mem_view hs hnode ha hi⟩
  · exact h

end

lemma learn (hnode : s.nodes id = some node) {b : Block}
    (hp : 0 ≤ node.height) (hheight : b.height = node.height) : (s.learn su id node b).Sound su :=
  ⟨h.forest.learn hnode hp hheight,h.flat.learn hnode b⟩

lemma connected (hnode : s.nodes id = some node) (hp : 0 ≤ node.height)
    (hheight : detail.block.height = node.height) (td : ℕ) (ld : T) :
    (s.connected su id node detail td ld).Sound su := by
  have hl := h.learn hnode hp hheight
  have hsave := hl.forest.saveBlock detail td ld
  have hf : (((s.learn su id node detail.block).saveBlock (su.hash detail.block) detail td
      ld)).Flat := hl.flat.congr rfl rfl fun _ _ => ⟨rfl,rfl,rfl⟩
  refine ⟨hsave.setTip id,hf.setTip hsave ?_⟩
  change ((s.learn su id node detail.block).nodes id).isSome = true
  rw [(learn_same hnode detail.block id).2.2,hnode]
  rfl

lemma disconnected (hs : su.Binds) {tip : BlockNode}
    (htp : s.tipNode = some tip) (hnode : s.nodes id = some node) (hh : node.hash = tip.hash)
    (detail : BlockDetail) (ld : T) : (s.disconnected su id detail ld).Sound su ∧
      (s.disconnected su id detail ld).view = s.view.tail ∧ (s.disconnected su id detail ld).nodes = s.nodes ∧
      (s.disconnected su id detail ld).localDB = ld ∧ (s.disconnected su id detail ld).details = s.details ∧
      (s.disconnected su id detail ld).td = s.td := by
  have hf := h.forest.delBlock (su.hash detail.block) detail.block.height ld
  have hfl : (s.delBlock (su.hash detail.block) detail.block.height ld).Flat :=
    h.flat.congr rfl rfl fun _ _ => ⟨rfl,rfl,rfl⟩
  obtain ⟨t,ht,htn⟩ := Option.bind_eq_some_iff.mp htp
  obtain ⟨rest,hv⟩ : ∃ rest, s.view = t :: rest := by
    rw [State.tip] at ht
    exact head?_eq_some_iff.mp ht
  have hheight : s.nodeHeight id = s.nodeHeight t := by
    rw [State.nodeHeight_eq hnode,State.nodeHeight_eq htn]
    exact (h.forest.formed id node hnode).height_eq hs (h.forest.formed t tip htn) hh
  have he := hfl.delTip_eq hv hheight
  refine ⟨⟨hf.delTip id,hfl.delTip hf hv hheight⟩,?_⟩
  rw [State.disconnected,he,hv]
  exact ⟨rfl,rfl,rfl,rfl,rfl⟩

/-- A block above the tip is connected, or fails. -/
theorem connectBlock (hs : su.Binds) (hm : mo.KeepsHeight) (ht : s.tip = some t)
    (hnode : s.nodes id = some node) (hb : su.hash detail.block = node.hash)
    (ha : detail.block.parentHash = s.nodeHash t → s.viewHeight < node.height) :
    ∃ r s', (connectBlock su mo id detail).exec s = (r,s') ∧ s'.Sound su ∧
      ((∃ e, r = .error e) ∨ ∃ b td ld, r = .ok b ∧ s' = s.connected su id node b td ld) := by
  obtain ⟨tip,hti,htn⟩ := h.tipNode_isSome ht
  rcases connectBlock_cases su mo s id detail with ⟨e,he⟩ | ⟨tip',node',hc,htp,hnode',hp⟩
  · exact ⟨_,_,he,h,.inl ⟨e,rfl⟩⟩
  cases hti.symm.trans htp
  cases hnode.symm.trans hnode'
  have ha := ha (by rw [hp,State.nodeHash_eq htn])
  obtain ⟨hheight,hpo⟩ := hs.height_of_hash (h.forest.formed id node hnode) hb
  have hr := exec_connectBlock su mo s hc hti hnode hp
  cases he : mo.execBlock s.localDB tip.statehash detail.block (node.pid ≠ .self) with
  | error err =>
    rw [he] at hr
    exact ⟨_,_,hr,h.failed hs hnode ha err,.inl ⟨_,rfl⟩⟩
  | ok b =>
  have hk : b.block.height = node.height := (hm _ _ _ _ _ he).trans hheight
  rw [he] at hr
  have hl := h.learn hnode hpo hk
  dsimp only at hr
  split at hr
  · exact ⟨_,_,hr,hl,.inl ⟨_,rfl⟩⟩
  · split at hr
    · exact ⟨_,_,hr,hl,.inl ⟨_,rfl⟩⟩
    · exact ⟨_,_,hr,h.connected hnode hpo hk _ _,.inr ⟨_,_,_,rfl,rfl⟩⟩

lemma connected_frame (ht : s.tip = some t) (hnode : s.nodes id = some node)
    (hu : s.up id = some t) (detail : BlockDetail) (td : ℕ) (ld : T) :
    (s.connected su id node detail td ld).tip = some id ∧
    (∀ j, (s.connected su id node detail td ld).up j = s.up j) ∧
    ∀ j, j ≠ id → (s.connected su id node detail td ld).nodes j = s.nodes j := by
  have hf := setTip_frame ((s.learn su id node detail.block).saveBlock
    (su.hash detail.block) detail td ld) id
  have hn : (s.connected su id node detail td ld).nodes = (s.learn su id node detail.block).nodes := hf.1
  have hs := @State.learn_same T node id su s hnode detail.block
  have hv := (learn_frame s su id node detail.block).1
  refine ⟨?_,?_,?_⟩
  · have hfl : (((s.learn su id node detail.block).saveBlock (su.hash detail.block) detail td
        ld)).Flat := (h.flat.learn hnode detail.block).congr rfl rfl fun _ _ => ⟨rfl,rfl,rfl⟩
    refine hfl.tip_setTip fun _ => ?_
    change (s.learn su id node detail.block).up id = (s.learn su id node detail.block).view.head?
    rw [(hs id).1,hv,hu]
    exact ht.symm
  · intro j
    rw [← (hs j).1,up,hn]
    rfl
  · intro j hj
    rw [hn,nodes_learn]
    split_ifs
    · exact Function.update_of_ne hj _ _
    · rfl

lemma higher {l : List ℕ}
    (hchain : (i :: l).IsChain fun i j => s.up j = some i) : ∀ j ∈ l, s.nodeHeight i < s.nodeHeight j := by
  have hp := (isChain_iff_pairwise (R := fun i j => s.nodeHeight i < s.nodeHeight j)).mp
    (hchain.imp fun i j hi => by have := h.forest.graded.falls j i hi; omega)
  exact (pairwise_cons.mp hp).1

/-- A branch that grows from the tip is connected up to its end or to the block that
fails. -/
theorem connectBlocks (hsu : su.Binds) (hm : mo.KeepsHeight) (ht : s.tip = some t)
    (hchain : (t :: bs.map fst).IsChain fun i j => s.up j = some i)
    (hbs : ∀ b ∈ bs, ∃ node, s.nodes b.1 = some node ∧ su.hash b.2.block = node.hash) :
    ∃ r s', (BlockChain.connectBlocks su mo bs).exec s = (r,s') ∧ s'.Sound su := by
  induction bs generalizing s t with
  | nil => exact ⟨_,_,rfl,h⟩
  | cons b bs ih =>
    rw [map_cons] at hchain
    obtain ⟨hup,hre⟩ := isChain_cons_cons.mp hchain
    obtain ⟨node,hnode,hbl⟩ := hbs b mem_cons_self
    have hnext := h.forest.graded.falls b.1 t hup
    rw [nodeHeight_eq hnode,← viewHeight_eq ht] at hnext
    obtain ⟨r,s',he,hs',hc⟩ := h.connectBlock hsu hm ht hnode hbl fun _ => by omega
    rcases hc with ⟨e,rfl⟩ | ⟨bl,td,ld,rfl,rfl⟩
    · exact ⟨_,_,exec_bind_error he,hs'⟩
    · obtain ⟨htp,hu,hn⟩ := h.connected_frame ht hnode hup bl td ld
      -- the other nodes of the branch are higher, so they are other nodes
      have hne : ∀ j ∈ bs.map fst, j ≠ b.1 := by
        rintro j hj rfl
        exact absurd (h.higher hre _ hj) (lt_irrefl _)
      have hnext' := ih hs' htp (hre.imp fun i j hi => by rw [hu j,hi]) (by
        intro b' hb'
        rw [hn b'.1 (hne _ (mem_map_of_mem hb'))]
        exact hbs b' (mem_cons_of_mem b hb'))
      obtain ⟨r,s'',he',hs''⟩ := hnext'
      exact ⟨r,s'',by rw [BlockChain.connectBlocks,exec_bind_ok he,he'],hs''⟩

/-- Blocks are taken back one by one. All of them are only if each has a node below. -/
theorem disconnectBlocks (hsu : su.Binds) (bs : List (ℕ × BlockDetail)) :
    ∃ r s', (BlockChain.disconnectBlocks su bs).exec s = (r,s') ∧ s'.Sound su ∧
      s'.nodes = s.nodes ∧ (r = .ok () → (∀ b ∈ bs, (s.up b.1).isSome = true) ∧
        s'.view = s.view.drop bs.length) := by
  induction bs generalizing s with
  | nil => exact ⟨_,_,rfl,h,rfl,fun _ => ⟨by simp,rfl⟩⟩
  | cons b bs ih =>
    rcases disconnectBlock_cases su s b.1 b.2 with ⟨e,he⟩ | ⟨tip,node,ld,ht,hnode,hh,-,he⟩
    · exact ⟨_,_,exec_bind_error he,h,rfl,by simp⟩
    · obtain ⟨hs',hv,hn,-⟩ := h.disconnected hsu ht hnode hh b.2 ld
      split_ifs at he with hbe
      · obtain ⟨r,s'',he',hs'',hn',ho⟩ := ih hs'
        refine ⟨r,s'',?_,hs'',hn'.trans hn,fun hr => ⟨?_,?_⟩⟩
        · rw [BlockChain.disconnectBlocks,exec_bind_ok he,he']
        · intro b' hb'
          rcases mem_cons.mp hb' with rfl | hb'
          · rw [up_eq hnode]
            exact hbe.1
          · have := (ho hr).1 b' hb'
            rwa [up,hn,← up] at this
        · rw [(ho hr).2,hv,drop_tail,length_cons]
      · exact ⟨_,_,exec_bind_error he,hs',hn,by simp⟩

/-- The block at the top of the view is taken back, if the local database lets go of it. -/
theorem disconnectBlock_top (hsu : su.Binds) {below : ℕ}
    (hv : s.view = t :: below :: rest) (detail : BlockDetail) : (disconnectBlock su t detail).exec s =
      match su.delTxs s.localDB detail with
      | .error text => (.error (.localDB text),s)
      | .ok ld => (.ok (),s.disconnected su t detail ld) := by
  have ht : s.tip = some t := by rw [State.tip,hv]; rfl
  obtain ⟨tip,hti,htn⟩ := h.tipNode_isSome ht
  have he := exec_disconnectBlock su s hti htn rfl detail
  cases hdel : su.delTxs s.localDB detail with
  | error text =>
    rw [hdel] at he
    exact he
  | ok ld =>
    rw [hdel] at he
    dsimp only at he ⊢
    obtain ⟨hs',hv',-⟩ := h.disconnected hsu hti htn rfl detail ld
    have ht' : (s.disconnected su t detail ld).tip = some below := by
      rw [State.tip,hv',hv]
      rfl
    obtain ⟨n,hn,-⟩ := hs'.tipNode_isSome ht'
    have hc := h.flat.chained
    rw [hv] at hc
    have hu := (isChain_cons_cons.mp hc).1
    rw [State.up_eq htn] at hu
    rw [he,if_pos ⟨by rw [hu]; rfl,by rw [hn]; rfl⟩]

/-- Blocks at the top of the view are taken back one by one, as far as the local database
lets go of them. -/
theorem disconnectBlocks_top (hsu : su.Binds) (hv : s.view = bs.map fst ++ f :: rest) :
    ∃ s', match su.undo s.localDB (bs.map snd) with
      | .error text => (BlockChain.disconnectBlocks su bs).exec s = (.error (.localDB text),s')
      | .ok ld => (BlockChain.disconnectBlocks su bs).exec s = (.ok (),s') ∧
          s'.localDB = ld ∧ s'.details = s.details ∧ s'.td = s.td := by
  induction bs generalizing s with
  | nil => exact ⟨s,rfl,rfl,rfl,rfl⟩
  | cons b bs ih =>
    obtain ⟨be,rest',hb⟩ : ∃ be rest', bs.map fst ++ f :: rest = be :: rest' := by
      cases bs.map fst with
      | nil => exact ⟨_,_,rfl⟩
      | cons j js => exact ⟨_,_,rfl⟩
    rw [map_cons,cons_append,hb] at hv
    have he := h.disconnectBlock_top hsu hv b.2
    have ht : s.tip = some b.1 := by rw [tip,hv]; rfl
    obtain ⟨tip,hti,htn⟩ := h.tipNode_isSome ht
    rw [map_cons,Setup.undo]
    cases hdel : su.delTxs s.localDB b.2 with
    | error text =>
      rw [hdel] at he
      exact ⟨s,exec_bind_error he⟩
    | ok ld =>
      rw [hdel] at he
      obtain ⟨hs',hv',hf⟩ := h.disconnected hsu hti htn rfl b.2 ld
      rw [hv,tail_cons,← hb] at hv'
      obtain ⟨s'',hr⟩ := ih hs' hv'
      rw [hf.2.1] at hr
      refine ⟨s'',?_⟩
      dsimp only
      split at hr
      · rw [BlockChain.disconnectBlocks,exec_bind_ok he]
        exact hr
      · obtain ⟨he',hlocal,hd,htd⟩ := hr
        rw [BlockChain.disconnectBlocks,exec_bind_ok he]
        exact ⟨he',hlocal,hd.trans hf.2.2.1,htd.trans hf.2.2.2⟩

/-- The view from its tip down to the fork, and the branch from the fork up. -/
theorem reorganize_lists (hid : (s.nodes id).isSome = true) (hfo : s.findFork id = some f) :
    (∃ rest, s.view = (s.getReorganizeNodes id).1 ++ f :: rest) ∧
      (f :: (s.getReorganizeNodes id).2).IsChain (fun i j => s.up j = some i) ∧
      ∀ i ∈ (s.getReorganizeNodes id).1 ++ (s.getReorganizeNodes id).2, (s.nodes i).isSome = true := by
  have hf := hfo
  rw [h.flat.findFork_eq h.forest hid] at hf
  have hv := ((h.flat.contains_iff h.forest f).mp (find?_some hf)).1
  have hm := mem_of_find?_eq_some hf
  rw [h.flat.getReorganizeNodes_eq h.forest hid hfo]
  have hc := h.forest.graded.chained_lineage id
  rw [← h.forest.ancestors_eq hid] at hc
  refine ⟨?_,?_,?_⟩
  · rw [← h.forest.graded.takeWhile_eq_filter h.flat.chained hv]
    exact Graded.takeWhile_append_of_mem hv
  · rw [← h.forest.graded.takeWhile_eq_filter hc hm]
    obtain ⟨rest,hre⟩ := Graded.takeWhile_append_of_mem hm
    have hfr : Chained s.up ((s.ancestors id).takeWhile (· ≠ f) ++ [f]) := by
      rw [hre,append_cons] at hc
      exact hc.left_of_append
    have hr := isChain_reverse.mpr hfr
    rw [reverse_append] at hr
    exact hr
  · intro i hi
    rcases mem_append.mp hi with hi | hi
    · exact h.flat.held i (mem_of_mem_filter hi)
    · have ha := mem_of_mem_filter (mem_reverse.mp hi)
      rw [h.forest.ancestors_eq hid] at ha
      exact h.forest.isSome_of_mem_lineage hid ha

/-- Without a fork the blocks below the last one are missed before any is connected. -/
theorem disconnect_all (hsu : su.Binds) (ht : s.tip = some t) (hbs : bs.map fst = s.ancestors t) :
    ∃ e s', (BlockChain.disconnectBlocks su bs).exec s = (.error e,s') ∧ s'.Sound su := by
  obtain ⟨r,s',he,hs',-,ho⟩ := h.disconnectBlocks hsu bs
  cases r with
  | error e => exact ⟨e,s',he,hs'⟩
  | ok u =>
    exfalso
    have ha := (ho rfl).1
    have htn := h.flat.held t (mem_of_mem_head? ht)
    -- the last node of the way has nothing above it
    have hl : ∃ i ∈ s.ancestors t, s.up i = none := by
      rw [h.forest.ancestors_eq htn]
      exact h.forest.graded.exists_root t
    obtain ⟨i,hi,hn⟩ := hl
    rw [← hbs] at hi
    obtain ⟨b,hb,rfl⟩ := mem_map.mp hi
    have := ha b hb
    rw [hn] at this
    cases this

end

lemma connectBlocks_void (ht : s.tip = none) (bs : List (ℕ × BlockDetail)) :
    ∃ r, (BlockChain.connectBlocks su mo bs).exec s = (r,s) := by
  cases bs with
  | nil => exact ⟨_,rfl⟩
  | cons b bs =>
    rcases connectBlock_cases su mo s b.1 b.2 with ⟨e,he⟩ | ⟨tip,node,-,htp,-⟩
    · exact ⟨_,exec_bind_error he⟩
    · rw [tipNode,ht] at htp
      cases htp

lemma reorganizeChain_cases (s : State T) (d a : List ℕ) :
    (∃ e, (BlockChain.reorganizeChain su mo d a).exec s = (.error e,s) ∧
      ((e = .nilPointer ∧ ∃ i ∈ d ++ a, s.nodes i = none) ∨ e = .errHashNotExist ∧
        ∃ i ∈ d ++ a, ∃ node, s.nodes i = some node ∧ s.details node.hash = none)) ∨
    ∃ dbs abs, dbs.map fst = d ∧ abs.map fst = a ∧
      (∀ b ∈ dbs ++ abs, ∃ node, s.nodes b.1 = some node ∧ s.details node.hash = some b.2) ∧
      (BlockChain.reorganizeChain su mo d a).exec s = (BlockChain.disconnectBlocks su dbs >>= fun _ =>
          BlockChain.connectBlocks su mo abs).exec s := by
  rcases loadBlocks_cases s d with ⟨e,hl,hw⟩ | ⟨dbs,hl,hd,hdb⟩
  · refine .inl ⟨e,exec_bind_error hl,?_⟩
    rcases hw with ⟨he,i,hi,hn⟩ | ⟨he,i,hi,hn⟩
    · exact .inl ⟨he,i,mem_append_left _ hi,hn⟩
    · exact .inr ⟨he,i,mem_append_left _ hi,hn⟩
  rcases loadBlocks_cases s a with ⟨e,hl',hw⟩ | ⟨abs,hl',ha,hab⟩
  · refine .inl ⟨e,by rw [BlockChain.reorganizeChain,exec_bind_ok hl,exec_bind_error hl'],?_⟩
    rcases hw with ⟨he,i,hi,hn⟩ | ⟨he,i,hi,hn⟩
    · exact .inl ⟨he,i,mem_append_right _ hi,hn⟩
    · exact .inr ⟨he,i,mem_append_right _ hi,hn⟩
  · refine .inr ⟨dbs,abs,hd,ha,forall_mem_append.mpr ⟨hdb,hab⟩,?_⟩
    · rw [BlockChain.reorganizeChain,exec_bind_ok hl,exec_bind_ok hl']

lemma reorganizeChain (h : s.Sound su) (hsu : su.Binds) (hm : mo.KeepsHeight)
    (hid : (s.nodes id).isSome = true) : ∃ r s', (BlockChain.reorganizeChain su mo (s.getReorganizeNodes id).1
        (s.getReorganizeNodes id).2).exec s = (r,s') ∧ s'.Sound su := by
  rcases @reorganizeChain_cases T su mo s (s.getReorganizeNodes id).1 (s.getReorganizeNodes id).2 with
    ⟨e,he,-⟩ | ⟨dbs,abs,hde,ha,hbs,he⟩
  · exact ⟨_,_,he,h⟩
  rw [he]
  cases hf : s.findFork id with
  | none =>
    cases ht : s.tip with
    | none =>
      have hni : dbs = [] := by
        rw [← map_eq_nil_iff,hde,getReorganizeNodes,ht]
        rfl
      subst hni
      obtain ⟨r,hv⟩ := @connectBlocks_void T su mo s ht abs
      exact ⟨r,s,hv,h⟩
    | some t =>
      have hal : dbs.map fst = s.ancestors t := by
        rw [hde,getReorganizeNodes,hf,ht]
        simp
      obtain ⟨e,s',hfa,hs'⟩ := h.disconnect_all hsu ht hal
      exact ⟨_,s',exec_bind_error hfa,hs'⟩
  | some f =>
    obtain ⟨⟨rest,hvi⟩,hchain,-⟩ := h.reorganize_lists hid hf
    rw [← hde] at hvi
    rw [← ha] at hchain
    obtain ⟨r,s',hd,hs',hn,ho⟩ := h.disconnectBlocks hsu dbs
    cases r with
    | error e => exact ⟨_,_,exec_bind_error hd,hs'⟩
    | ok u =>
      have hvi' : s'.view = f :: rest := by
        rw [(ho rfl).2,hvi,drop_left']
        rw [length_map]
      have hu : ∀ i, s'.up i = s.up i := fun i => by rw [up,hn,← up]
      obtain ⟨r2,s2,hc,hs2⟩ := hs'.connectBlocks hsu hm
        (by rw [tip,hvi']; rfl) (hchain.imp fun i j hij => by rw [hu j,hij]) (by
          intro b hb
          obtain ⟨node,hnode,hdt⟩ := hbs b (mem_append_right _ hb)
          exact ⟨node,by rw [hn,hnode],h.forest.stored _ _ hdt⟩)
      exact ⟨r2,s2,by rw [exec_bind_ok hd,hc],hs2⟩

end State.Sound
end Dpos.BlockChain
