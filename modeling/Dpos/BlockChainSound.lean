import Dpos.BlockChainStep

/-! Runs of `ProcessBlock` keep the block index a forest and the best-chain view a chain in
it, as long as no node of the view falls out of the index. -/
namespace Dpos.BlockChain

open List Proc Function State Option

variable {T : Type} {su : Setup T} {mo : Moment T} {s : State T}

/-! ### Accepting a block -/

/-- What `addNode` changes beside the index: the entry that leaves it loses its parent. -/
theorem addNode_nodes (s : State T) (i : ℕ) : (s.addNode i).nodes = s.nodes ∨
      ∃ f, (s.indexQueue ++ [i]).head? = some f ∧ indexCacheLimit ≤ s.indexQueue.length ∧
        (s.addNode i).nodes = (s.dropParent f).nodes := by
  rw [addNode,expireNode]
  split
  · exact .inl rfl
  · rename_i f queue hq
    dsimp only at hq
    split_ifs with hf
    · refine .inr ⟨f,by rw [hq]; rfl,?_,rfl⟩
      simp only [length_append,length_singleton] at hf
      omega
    · exact .inl rfl

lemma addNode_frame (s : State T) (i : ℕ) :
    (s.addNode i).view = s.view ∧ (s.addNode i).viewNodes = s.viewNodes ∧
      (s.addNode i).details = s.details ∧ (s.addNode i).td = s.td ∧
      (s.addNode i).localDB = s.localDB ∧ (s.addNode i).prevOrphans = s.prevOrphans := by
  rw [addNode,expireNode]
  split
  · exact ⟨rfl,rfl,rfl,rfl,rfl,rfl⟩
  · split_ifs <;> exact ⟨rfl,rfl,rfl,rfl,rfl,rfl⟩

section Accepted
variable {d : Delivery} {prev td : ℕ} {prevNode : BlockNode}

/-- The new node is on the heap, and one that leaves the index loses its parent. -/
theorem accepted_nodes (s : State T) (su : Setup T) (d : Delivery) (prev td : ℕ) :
    (s.accepted su d prev td).nodes = Function.update s.nodes d.id (some (newBlockNode su d prev)) ∨
      ∃ f, (s.indexQueue ++ [d.id]).head? = some f ∧ indexCacheLimit ≤ s.indexQueue.length ∧
        (s.accepted su d prev td).nodes = (dropParent {s with
          nodes := Function.update s.nodes d.id (some (newBlockNode su d prev))} f).nodes :=
  addNode_nodes _ d.id

lemma accepted_node (su : Setup T) (hqe : ∀ i ∈ s.indexQueue, (s.nodes i).isSome = true)
    (hfr : s.nodes d.id = none) (prev td : ℕ) :
    (s.accepted su d prev td).nodes d.id = some (newBlockNode su d prev) := by
  rcases accepted_nodes s su d prev td with hs | ⟨front,hf,hfu,hd⟩
  · rw [hs]
    exact update_self ..
  · have hne : d.id ≠ front := by
      rintro rfl
      cases hq : s.indexQueue with
      | nil =>
        rw [hq] at hfu
        exact absurd hfu (by decide)
      | cons old rest =>
        rw [hq] at hf
        cases hf
        have := hqe _ (by rw [hq]; exact mem_cons_self)
        rw [hfr] at this
        cases this
    rw [hd,dropParent]
    dsimp only
    rw [update_of_ne hne]
    exact update_self ..

lemma accepted_frame (s : State T) (su : Setup T) (d : Delivery) (prev td : ℕ) :
    (s.accepted su d prev td).view = s.view ∧ (s.accepted su d prev td).viewNodes = s.viewNodes ∧
      (s.accepted su d prev td).localDB = s.localDB ∧
      (s.accepted su d prev td).prevOrphans = s.prevOrphans := by
  rw [accepted]
  obtain ⟨hv,hl,-,-,hk⟩ := addNode_frame _ d.id
  exact ⟨hv,hl,hk⟩

lemma accepted_other (s : State T) (su : Setup T) (prev td : ℕ) {j : ℕ} (hj : j ≠ d.id) :
    (s.accepted su d prev td).nodeHeight j = s.nodeHeight j ∧
      (s.accepted su d prev td).nodeHash j = s.nodeHash j ∧
      ((s.accepted su d prev td).nodes j).isSome = (s.nodes j).isSome := by
  rw [nodeHeight,nodeHash]
  rcases accepted_nodes s su d prev td with hs | ⟨f,-,-,hd⟩
  · rw [hs]
    rw [update_of_ne hj]
    exact ⟨rfl,rfl,rfl⟩
  · rw [hd,dropParent]
    dsimp only
    by_cases hf : j = f
    · subst hf
      rw [update_self,update_of_ne hj]
      rw [nodeHeight,nodeHash]
      cases s.nodes j <;> exact ⟨rfl,rfl,rfl⟩
    · rw [update_of_ne hf,update_of_ne hj]
      exact ⟨rfl,rfl,rfl⟩

lemma sound_accepted (h : s.Sound su) (hf : s.nodes d.id = none)
    (hpr : s.nodes prev = some prevNode) (hheight : d.detail.block.height = prevNode.height+1)
    (hs : s.Spares) (td : ℕ) : (s.accepted su d prev td).Sound su := by
  have hl := h.forest.graded.low prev
  rw [nodeHeight_eq hpr] at hl
  have hid : d.id ∉ s.view := by
    intro hm
    have := h.flat.held d.id hm
    rw [hf] at this
    cases this
  have hst := h.forest.storeBlock d.detail (su.calcWork d.detail.block.difficulty+td)
  have hfo : State.Forest su {s.storeBlock (su.hash d.detail.block) d.detail
      (su.calcWork d.detail.block.difficulty+td) with
        nodes := Function.update s.nodes d.id (some (newBlockNode su d prev))} := by
    refine hst.update d.id (newBlockNode su d prev) rfl rfl ?_ ?_ ?_ ?_ fun j hj => .inr hj
    · refine .inr ⟨?_,d.detail.block,rfl,rfl⟩
      change 0 ≤ d.detail.block.height
      omega
    · intro old hold
      cases hf.symm.trans hold
    · intro p hp
      cases hp
      exact ⟨prevNode,hpr,hheight⟩
    · intro x j hj
      obtain ⟨n,hn,hh⟩ := h.forest.index x j hj
      have hne : j ≠ d.id := by
        rintro rfl
        cases hf.symm.trans hn
      exact ⟨n,by dsimp only; rw [update_of_ne hne,hn],hh⟩
  have hfl : State.Flat {s.storeBlock (su.hash d.detail.block) d.detail
      (su.calcWork d.detail.block.difficulty+td) with
        nodes := Function.update s.nodes d.id (some (newBlockNode su d prev))} := by
    refine h.flat.congr rfl rfl fun j hj => ?_
    have hne : j ≠ d.id := fun he => hid (he ▸ hj)
    refine ⟨?_,?_,?_⟩
    · rw [up,up]
      dsimp only
      rw [update_of_ne hne]
    · rw [nodeHeight,nodeHeight]
      dsimp only
      rw [update_of_ne hne]
    · dsimp only
      rw [update_of_ne hne]
  exact ⟨hfo.addNode (update_self ..),hfl.addNode hid hs⟩

lemma accepted_above (hs : su.Binds) (h : s.Sound su) (hf : s.nodes d.id = none)
    (hpr : s.index d.detail.block.parentHash = some prev) (hp : s.nodes prev = some prevNode)
    (hheight : d.detail.block.height = prevNode.height+1) (td : ℕ) {t : ℕ} (ht : s.tip = some t)
    (hpa : d.detail.block.parentHash = s.nodeHash t) :
    (s.accepted su d prev td).viewHeight < d.detail.block.height := by
  have htp : (s.accepted su d prev td).tip = some t := by
    rw [tip,(accepted_frame s su d prev td).1]
    exact ht
  obtain ⟨tn,-,htn⟩ := h.tipNode_isSome ht
  have hne : t ≠ d.id := by
    rintro rfl
    cases hf.symm.trans htn
  -- the parent and the tip have one hash, so they have one height
  obtain ⟨n,hn,hh⟩ := h.forest.index _ prev hpr
  cases hp.symm.trans hn
  have hsa : prevNode.hash = tn.hash := by rw [hh,hpa,nodeHash_eq htn]
  have := (h.forest.formed prev prevNode hp).height_eq hs (h.forest.formed t tn htn) hsa
  rw [State.Sound.viewHeight_eq htp,(accepted_other s su prev td hne).1,nodeHeight_eq htn]
  omega

lemma connectBestChain_ends (hsu : su.Binds) (hm : mo.KeepsHeight) (h : s.Sound su)
    (hfr : s.nodes d.id = none) (hpr : s.index d.detail.block.parentHash = some prev)
    (hpn : s.nodes prev = some prevNode)
    (hheight : d.detail.block.height = prevNode.height+1) (hsp : s.Spares) (td : ℕ) :
    Ends (connectBestChain su mo d.id d.detail) (s.accepted su d prev td)
      (fun _ s' => s'.Sound su) (fun _ s' => s'.Sound su) := by
  have h' := sound_accepted h hfr hpn hheight hsp td
  have hnode := accepted_node su h.forest.queue hfr prev td
  have hv := (accepted_frame s su d prev td).1
  have htp : (s.accepted su d prev td).tip = s.tip := congrArg List.head? hv
  rcases connectBestChain_cases su mo (s.accepted su d prev td) d.id d.detail with
    ⟨hno,he⟩ | ⟨tip,hti,hca⟩
  · exact .of_error he h'
  obtain ⟨t,ht,htn⟩ := bind_eq_some_iff.mp hti
  have hne : t ≠ d.id := ne_of_fresh hfr (h.flat.held t (mem_of_mem_head? (htp.symm.trans ht)))
  rcases hca with ⟨hp,he⟩ | ⟨hp,he⟩
  · have ha : (s.accepted su d prev td).viewHeight < (newBlockNode su d prev).height := by
      refine accepted_above hsu h hfr hpr hpn hheight td (htp.symm.trans ht) ?_
      rw [hp,← State.nodeHash_eq htn,(accepted_other s su prev td hne).2.1]
    obtain ⟨r,s',hc,hs',ho⟩ := h'.connectBlock hsu hm ht hnode rfl fun _ => ha
    rcases ho with ⟨e,rfl,-⟩ | ⟨b,td',ld,rfl,-⟩
    · exact .of_error (he.trans (exec_bind_error hc)) hs'
    · exact .of_ok (he.trans (exec_bind_ok hc)) hs'
  · rcases connectFork_cases su mo (s.accepted su d prev td) d.id tip d.detail with
      ⟨e,he',-⟩ | ⟨he',-⟩ | ⟨ti,p,no,-,-,-,-,he'⟩
    · exact .of_error (he.trans he') h'
    · exact .of_ok (he.trans he') h'
    · have hid : ((s.accepted su d prev td).nodes d.id).isSome = true := by rw [hnode]; rfl
      obtain ⟨r,s',hr,hs'⟩ := h'.reorganizeChain hsu hm hid
      cases r with
      | error e => exact .of_error ((he.trans he').trans (exec_bind_error hr)) hs'
      | ok u => exact .of_ok ((he.trans he').trans (exec_bind_ok hr)) hs'

/-- **One block**: the forest and the view stay sound. -/
theorem maybeAcceptBlock_ends (hs : su.Binds) (hm : mo.KeepsHeight) (h : s.Sound su)
    (hfr : s.nodes d.id = none) (hsp : s.Spares) :
    Ends (maybeAcceptBlock su mo d) s (fun _ s' => s'.Sound su) (fun _ s' => s'.Sound su) := by
  rcases maybeAcceptBlock_cases su mo s d with ⟨e,he⟩ | ⟨prev,prevNode,td,hp,hpn,hheight,-,he⟩
  · exact .of_error he h
  · rw [Ends,he]
    exact connectBestChain_ends hs hm h hfr hp hpn hheight hsp td

end Accepted

def OrphanBlock.delivery (orphan : OrphanBlock) : Delivery :=
  ⟨orphan.id,orphan.broadcast,⟨orphan.block,[],[],[]⟩,orphan.pid,orphan.sequence⟩

/-- The blocks that `processOrphans` hands to `maybeAcceptBlock`, and the states in which
it does so. -/
def orphanAttempts (su : Setup T) (mo : Moment T) : ℕ → List Bytes → State T → List (State T × Delivery)
  | 0,_,_ => []
  | _,[],_ => []
  | fuel+1,hash :: hashes,s =>
    match s.childOrphans hash with
    | [] => orphanAttempts su mo fuel hashes s
    | orphan :: _ =>
      let s1 := s.removeOrphanBlock su orphan.block
      (s1,orphan.delivery) ::
        match (maybeAcceptBlock su mo orphan.delivery).exec s1 with
        | (.ok _,s2) => orphanAttempts su mo fuel (hash :: hashes ++ [su.hash orphan.block]) s2
        | (.error _,_) => []

/-- What a block has to pass before `maybeAcceptBlock` gets it. -/
def preAccept (su : Setup T) (mo : Moment T) (d : Delivery) : M T Unit := do
  Proc.failIf (mo.closed = true) .errIsClosed
  checkSelf su d true
  Proc.failIf (← Proc.reads (·.blockExists (su.hash d.detail.block))) .errBlockExist
  checkOrphan su d
  -- the block goes to the orphans instead
  Proc.failIf (¬(← Proc.reads fun s => prevHashExists s d.detail.block)) .errParentBlockNoExist
  Proc.failIf (← Proc.reads (·.blockExists (su.hash d.detail.block))) .errBlockExist

/-- The blocks that a call hands to `maybeAcceptBlock`: its own, and orphans that waited
for it. -/
def attempts (su : Setup T) (s : State T) (c : NumberedCall T) : List (State T × Delivery) :=
  if c.1.addBlock then
    match (preAccept su c.1.moment (c.1.delivery c.2)).exec s with
    | (.ok _,s1) =>
      (s1,c.1.delivery c.2) ::
        match (maybeAcceptBlock su c.1.moment (c.1.delivery c.2)).exec s1 with
        | (.ok _,s2) => orphanAttempts su c.1.moment (2*s2.prevOrphans.length+2)
            [su.hash c.1.detail.block] s2
        | (.error _,_) => []
    | (.error _,_) => []
  else []

/-- The state without the orphans. -/
def State.chain (s : State T) : State T := {s with orphans := [], prevOrphans := [], oldestOrphan := none}

variable {s' : State T} {s : State T}

lemma eq_of_chain (h : s'.chain = s.chain) : s' = {s with
    orphans := s'.orphans, prevOrphans := s'.prevOrphans, oldestOrphan := s'.oldestOrphan} := by
  cases s
  cases s'
  simpa [chain] using h

lemma nodes_of_chain (h : s'.chain = s.chain) : s'.nodes = s.nodes := by rw [eq_of_chain h]

lemma State.Sound.of_chain (hchain : s'.chain = s.chain) (h : s.Sound su) : s'.Sound su := by
  rw [eq_of_chain hchain]
  exact ⟨⟨h.forest.formed,h.forest.parent,h.forest.index,h.forest.queue,h.forest.stored⟩,
    h.flat.congr rfl rfl fun _ _ => ⟨rfl,rfl,rfl⟩⟩

/-! ### Before and beside -/

lemma checkSelf_cases (su : Setup T) (s : State T) (d : Delivery) (ab : Bool) :
    (checkSelf su d ab).exec s = (.ok (),s) ∨ ∃ e, (checkSelf su d ab).exec s = (.error e,s) := by
  rw [checkSelf]
  by_cases hs : 0 < d.detail.block.height ∧ d.pid = .self
  · rw [if_pos hs]
    cases ht : s.tipNode with
    | none => exact .inr ⟨.nilPointer,by simp [exec_bind,ht]⟩
    | some tip =>
      by_cases hne : (if ab then d.detail.block.parentHash else su.hash d.detail.block) = tip.hash
      · exact .inl (by simp [exec_bind,ht,hne])
      · exact .inr ⟨.errBlockHashNoMatch,by simp [exec_bind,ht,hne]⟩
  · exact .inl (by rw [if_neg hs]; rfl)

lemma checkOrphan_cases (su : Setup T) (s : State T) (d : Delivery) :
    (checkOrphan su d).exec s = (.error .errBlockExist,s) ∨
      ∃ s', (checkOrphan su d).exec s = (.ok (),s') ∧ s'.chain = s.chain ∧
        s'.prevOrphans.Sublist s.prevOrphans := by
  cases hk : s.isKnownOrphan su (su.hash d.detail.block) with
  | false => exact .inr ⟨s,by simp [checkOrphan,exec_bind,hk],rfl,.refl _⟩
  | true =>
  cases hp : s.blockExists d.detail.block.parentHash with
  | false => exact .inl (by simp [checkOrphan,exec_bind,hk,hp])
  | true =>
    refine .inr ⟨s.removeOrphanBlockByHash su (su.hash d.detail.block),by simp [checkOrphan,exec_bind,hk,hp],?_⟩
    rw [removeOrphanBlockByHash]
    split
    · exact ⟨rfl,.refl _⟩
    · exact ⟨rfl,filter_sublist⟩

lemma expireOrphan_chain (su : Setup T) (now : ℤ) (s : State T) (o : OrphanBlock) :
    (expireOrphan su now s o).chain = s.chain ∧
      (expireOrphan su now s o).prevOrphans.Sublist s.prevOrphans := by
  rw [expireOrphan]
  split_ifs
  · exact ⟨rfl,filter_sublist⟩
  · split
    · exact ⟨rfl,List.Sublist.refl _⟩
    · split_ifs <;> exact ⟨rfl,List.Sublist.refl _⟩

lemma expireOrphans_chain (su : Setup T) (now : ℤ) (os : List OrphanBlock) (s : State T) :
    (os.foldl (expireOrphan su now) s).chain = s.chain ∧
      (os.foldl (expireOrphan su now) s).prevOrphans.Sublist s.prevOrphans := by
  induction os generalizing s with
  | nil => exact ⟨rfl,List.Sublist.refl _⟩
  | cons o os ih =>
    obtain ⟨hchain,hs⟩ := expireOrphan_chain su now s o
    obtain ⟨hchain',hs'⟩ := ih (expireOrphan su now s o)
    exact ⟨hchain'.trans hchain,hs'.trans hs⟩

/-- Once all orphans were looked at, one of those that are left is the oldest. -/
theorem expireOrphans_oldest (su : Setup T) (now : ℤ) (os : List OrphanBlock) (s : State T)
    (ha : s.oldestOrphan ≠ none ∨ s.orphans ⊆ os) :
    (os.foldl (expireOrphan su now) s).oldestOrphan ≠ none ∨
      (os.foldl (expireOrphan su now) s).orphans = [] := by
  induction os generalizing s with
  | nil => exact ha.imp_right subset_nil.mp
  | cons op os ih =>
    refine ih _ ?_
    rw [expireOrphan]
    split_ifs with hold
    · refine ha.imp_right fun hs o ho => ?_
      obtain ⟨hm,hne⟩ := mem_filter.mp ho
      refine (mem_cons.mp (hs hm)).resolve_left ?_
      rintro rfl
      simp at hne
    · split
      · exact .inl (by simp)
      · rename_i oldest hol
        split_ifs
        · exact .inl (by simp)
        · exact .inl (by rw [hol]; simp)

lemma addOrphanBlock_ok (su : Setup T) (mo : Moment T) (s : State T) (d : Delivery) :
    ∃ s', (addOrphanBlock su mo d).exec s = (.ok (),s') ∧ s'.chain = s.chain ∧
      ∃ ke e, ke.Sublist s.prevOrphans ∧ s'.prevOrphans =
        ke ++ [⟨d.id,d.detail.block,e,d.broadcast,d.pid,d.sequence⟩] := by
  set s1 := (mo.walk s.orphans).foldl (expireOrphan su mo.now) s with hs1
  obtain ⟨hchain,hsb⟩ := expireOrphans_chain su mo.now (mo.walk s.orphans) s
  rw [← hs1] at hchain hsb
  obtain ⟨s2,hd,hchain2,hsb2⟩ : ∃ s2,
      (addOrphanBlock.dropOldest su (decide (maxOrphanBlocks < s1.orphans.length+1))).exec s1 =
        (.ok (),s2) ∧ s2.chain = s1.chain ∧ s2.prevOrphans.Sublist s1.prevOrphans := by
    rw [addOrphanBlock.dropOldest]
    split_ifs with hf
    · obtain ⟨oldest,ho⟩ : ∃ oldest, s1.oldestOrphan = some oldest := by
        refine ne_none_iff_exists'.mp ?_
        refine (expireOrphans_oldest su mo.now (mo.walk s.orphans) s
          (.inr (mo.walk_perm s.orphans).symm.subset)).resolve_right fun hn => ?_
        rw [← hs1] at hn
        rw [hn] at hf
        exact absurd (of_decide_eq_true hf) (by decide)
      exact ⟨{s1.removeOrphanBlock su oldest.block with oldestOrphan := none},by simp [exec_bind,ho],rfl,filter_sublist⟩
    · exact ⟨s1,rfl,rfl,List.Sublist.refl _⟩
  refine ⟨s2.insertOrphan su ⟨d.id,d.detail.block,mo.now+orphanExpirationTime,d.broadcast,d.pid,d.sequence⟩,
    ?_,hchain2.trans hchain,s2.prevOrphans,_,hsb2.trans hsb,rfl⟩
  simp only [addOrphanBlock,exec_bind,exec_modify,exec_reads,← hs1,hd]

/-- An added block is refused, goes to the orphans, or is accepted; up to there only the
orphan pool has changed. -/
theorem processBlock_cases (su : Setup T) (mo : Moment T) (s : State T) (d : Delivery) :
    ((∃ e s', (preAccept su mo d).exec s = (.error e,s')) ∧
      ((∃ e, (processBlock su mo d true).exec s = (.error e,s)) ∨
      (∃ s', (processBlock su mo d true).exec s = (.error .errBlockExist,s') ∧ s'.chain = s.chain ∧
        s'.prevOrphans.Sublist s.prevOrphans) ∨
      ∃ s', (processBlock su mo d true).exec s = (.ok ⟨none,false,true⟩,s') ∧ s'.chain = s.chain ∧
        ∃ ke ex, ke.Sublist s.prevOrphans ∧ s'.prevOrphans =
          ke ++ [⟨d.id,d.detail.block,ex,d.broadcast,d.pid,d.sequence⟩])) ∨
    ∃ s', (preAccept su mo d).exec s = (.ok (),s') ∧ s'.chain = s.chain ∧
      s'.prevOrphans.Sublist s.prevOrphans ∧
      (processBlock su mo d true).exec s = (maybeAcceptBlock su mo d >>= fun r => do
        let count ← Proc.reads (·.prevOrphans.length)
        processOrphans su mo (2*count+2) [su.hash d.detail.block]
        return (⟨r.1,r.2,false⟩ : Outcome)).exec s' := by
  rw [processBlock,preAccept,exec_bind,exec_bind,exec_failIf]
  by_cases hc : mo.closed = true
  · exact .inl ⟨by simp [hc],.inl ⟨.errIsClosed,by simp [hc]⟩⟩
  simp only [if_neg hc]
  rcases checkSelf_cases su s d true with hs | ⟨e,hs⟩
  swap
  · exact .inl ⟨by simp [exec_bind,hs],.inl ⟨e,by simp [exec_bind,hs]⟩⟩
  simp only [exec_bind,hs,if_true,processAddBlock,exec_reads,exec_failIf]
  by_cases he : s.blockExists (su.hash d.detail.block) = true
  · exact .inl ⟨by simp [he],.inl ⟨.errBlockExist,by simp [he]⟩⟩
  simp only [if_neg he]
  rcases checkOrphan_cases su s d with ho | ⟨s1,ho,hchain,hsb⟩
  · exact .inl ⟨by simp [ho],.inl ⟨.errBlockExist,by simp [ho]⟩⟩
  simp only [ho]
  by_cases hp : prevHashExists s1 d.detail.block = true
  swap
  · obtain ⟨s2,had,hchain2,ke,ex,hk,hpo⟩ := addOrphanBlock_ok su mo s1 d
    exact .inl ⟨by simp [hp],.inr (.inr ⟨s2,by simp only [if_neg hp,exec_bind,had,exec_pure],hchain2.trans hchain,ke,ex,
      hk.trans hsb,hpo⟩)⟩
  simp only [hp,if_true,not_true_eq_false,if_false,maybeAddBestChain,exec_bind,exec_reads,exec_failIf]
  by_cases ha : s1.blockExists (su.hash d.detail.block) = true
  · exact .inl ⟨by simp [ha],.inr (.inl ⟨s1,by simp [ha],hchain,hsb⟩)⟩
  exact .inr ⟨s1,by simp [ha],hchain,hsb,by simp [ha]⟩

section Rules
variable {I : State T → Prop} {E : ChainError → State T → Prop}
  (hpo : ∀ s s', s'.chain = s.chain → I s → I s') {c : NumberedCall T}
include hpo

/-- **The orphans**: what every accepted block keeps is kept. -/
theorem processOrphans_rule {f : ℕ} {hashes : List Bytes} {s : State T} (h : I s)
    (hac : ∀ a ∈ orphanAttempts su mo f hashes s, I a.1 →
      Ends (maybeAcceptBlock su mo a.2) a.1 (fun _ s' => I s') E) :
    Ends (processOrphans su mo f hashes) s (fun _ s' => I s') E := by
  induction f generalizing hashes s with
  | zero => exact .of_ok rfl h
  | succ f ih =>
    cases hashes with
    | nil => exact .of_ok rfl h
    | cons hash hashes =>
      rw [orphanAttempts] at hac
      rw [processOrphans]
      refine .exec_bind_ok (exec_reads _ s) ?_
      cases hc : s.childOrphans hash with
      | nil =>
        rw [hc] at hac
        exact ih h hac
      | cons o rest =>
        rw [hc] at hac
        refine .exec_bind_ok (exec_modify _ s) ?_
        have hf1 := hac _ mem_cons_self (hpo s _ rfl h)
        rw [Ends] at hf1
        rcases he : (maybeAcceptBlock su mo o.delivery).exec
            (s.removeOrphanBlock su o.block) with ⟨e | r,s2⟩ <;> rw [he] at hf1 <;> simp only [he] at hac
        · exact .of_error (exec_bind_error he) hf1
        · exact .exec_bind_ok he (ih hf1 fun a ha => hac a (mem_cons_of_mem _ ha))

/-- **A call**: what every accepted block keeps is kept. -/
theorem process_rule (h : I s)
    (hq : ∀ e s', s'.chain = s.chain → E e s')
    (hac : ∀ a ∈ attempts su s c, I a.1 →
      Ends (maybeAcceptBlock su c.1.moment a.2) a.1 (fun _ s' => I s') E)
    (hdel : c.1.addBlock = false → su.isParaChain = true →
      Ends (processDelParaChainBlock su c.1.detail) s (fun _ s' => I s') E) :
    Ends (processBlock su c.1.moment (c.1.delivery c.2) c.1.addBlock) s (fun _ s' => I s') E := by
  cases had : c.1.addBlock with
  | false =>
    by_cases hc : c.1.moment.closed = true
    · exact .of_error (by simp [processBlock,exec_bind,hc]) (hq .errIsClosed s rfl)
    rcases checkSelf_cases su s (c.1.delivery c.2) false with hse | ⟨e,hse⟩
    swap
    · exact .of_error (by simp [processBlock,exec_bind,hc,hse]) (hq e s rfl)
    rw [processBlock]
    refine .exec_bind_ok (a := ()) (by simp [hc]) (.exec_bind_ok hse ?_)
    rw [if_neg Bool.false_ne_true]
    split_ifs with hp
    · exact hdel had hp
    · exact .of_error rfl (hq _ _ rfl)
  | true =>
    rcases processBlock_cases su c.1.moment s (c.1.delivery c.2) with
      ⟨-,⟨e,he⟩ | ⟨s1,he,hchain,-⟩ | ⟨s1,he,hchain,-⟩⟩ | ⟨s1,hpa,hchain,-,he⟩
    · exact .of_error he (hq _ _ rfl)
    · exact .of_error he (hq _ _ hchain)
    · exact .of_ok he (hpo _ _ hchain h)
    · have h1 := hpo _ _ hchain h
      rw [attempts,if_pos had,hpa] at hac
      rw [Ends,he]
      have hf1 := hac _ mem_cons_self h1
      rw [Ends] at hf1
      rcases hacc : (maybeAcceptBlock su c.1.moment (c.1.delivery c.2)).exec s1 with ⟨e | r,s2⟩
      · rw [hacc] at hf1
        exact Ends.of_error (exec_bind_error hacc) hf1
      · rw [hacc] at hf1
        refine Ends.exec_bind_ok hacc (.exec_bind_ok (exec_reads _ s2) ?_)
        refine .bind (processOrphans_rule hpo hf1 fun a ha => hac a ?_) fun _ s' hs' => .of_ok rfl hs'
        dsimp only
        rw [hacc]
        exact mem_cons_of_mem _ ha

end Rules

/-! ### Numbers of nodes -/

/-- Which nodes there are, and the orphans. -/
def State.census (s : State T) : (ℕ → Bool) × List OrphanBlock := (fun i => (s.nodes i).isSome,s.prevOrphans)

lemma census_dropParent (s : State T) (i : ℕ) : (s.dropParent i).census = s.census := by
  refine Prod.ext (funext fun j => ?_) rfl
  change ((s.dropParent i).nodes j).isSome = (s.nodes j).isSome
  rw [dropParent]
  dsimp only
  by_cases hj : j = i
  · subst hj
    rw [update_self,isSome_map]
  · rw [update_of_ne hj]

lemma census_failed (s : State T) (n : BlockNode) (err : ExecError) : (s.failed n err).census = s.census := by
  rw [failed]
  split_ifs
  · rw [delNode]
    split
    · rfl
    · exact census_dropParent s _
  · rfl

lemma census_learn {id : ℕ} {n : BlockNode} (hnode : s.nodes id = some n) (b : Block) :
    (s.learn su id n b).census = s.census := by
  refine Prod.ext (funext fun j => (learn_same hnode b j).2.2) ?_
  rw [learn]
  split_ifs
  · rw [updateNode]
    split <;> rfl
  · rfl

lemma census_setTip (s : State T) (id : ℕ) : (s.setTip id).census = s.census := by
  rw [setTip]
  split_ifs
  · rfl
  · rw [expireView]
    split
    · rfl
    · split_ifs <;> rfl

lemma census_connectBlock (id : ℕ) (de : BlockDetail) : Preserves census (connectBlock su mo id de) := by
  intro s
  rcases connectBlock_cases su mo s id de with ⟨e,he⟩ | ⟨tip,n,hc,ht,hnode,hp⟩
  · rw [he]
  · rw [exec_connectBlock su mo s hc ht hnode hp]
    split
    · exact census_failed s n _
    · split
      · exact census_learn hnode _
      · split
        · exact census_learn hnode _
        · exact (census_setTip _ id).trans (@census_learn T su s id n hnode _)

lemma census_disconnectBlock (id : ℕ) (detail : BlockDetail) :
    Preserves census (disconnectBlock su id detail) := by
  intro s
  rcases disconnectBlock_cases su s id detail with ⟨e,he⟩ | ⟨tip,n,ld,-,-,-,-,he⟩
  · rw [he]
  · rw [he]
    change (delTip _ id).census = _
    rw [delTip]
    split <;> rfl

lemma census_loadBlocks (ids : List ℕ) : Preserves census (loadBlocks ids : M T _) := by
  intro s
  rcases loadBlocks_cases s ids with ⟨e,he,-⟩ | ⟨blocks,he,-⟩ <;> rw [he]

lemma census_disconnectBlocks (bs : List (ℕ × BlockDetail)) :
    Preserves census (disconnectBlocks su bs) := by
  induction bs with
  | nil => exact .pure ()
  | cons b bs ih => exact (census_disconnectBlock b.1 b.2).bind fun _ => ih

lemma census_connectBlocks (bs : List (ℕ × BlockDetail)) : Preserves census (connectBlocks su mo bs) := by
  induction bs with
  | nil => exact .pure ()
  | cons b bs ih => exact (census_connectBlock b.1 b.2).bind fun _ => ih

lemma census_connectBestChain (id : ℕ) (detail : BlockDetail) :
    Preserves census (connectBestChain su mo id detail) := by
  intro s
  rcases connectBestChain_cases su mo s id detail with ⟨-,he⟩ | ⟨tip,-,⟨-,he⟩ | ⟨-,he⟩⟩
  · rw [he]
  · rw [he]
    exact (census_connectBlock id detail).bind (fun _ => .pure _) s
  · rw [he]
    rcases connectFork_cases su mo s id tip detail with
      ⟨e,he',-⟩ | ⟨he',-⟩ | ⟨t,p,n,-,-,-,-,he'⟩
    · rw [he']
    · rw [he']
    · rw [he']
      exact (((census_loadBlocks _).bind fun _ => (census_loadBlocks _).bind fun _ =>
        (census_disconnectBlocks _).bind fun _ => census_connectBlocks _).bind fun _ => .pure _) s

lemma census_maybeAcceptBlock (d : Delivery) (s : State T) :
    ((maybeAcceptBlock su mo d).exec s).2.prevOrphans = s.prevOrphans ∧
      ∀ j, j ≠ d.id → (((maybeAcceptBlock su mo d).exec s).2.nodes j).isSome = (s.nodes j).isSome := by
  rcases maybeAcceptBlock_cases su mo s d with ⟨e,he⟩ | ⟨prev,prevNode,td,-,-,-,-,he⟩
  · rw [he]
    exact ⟨rfl,fun _ _ => rfl⟩
  · have hc := @census_connectBestChain T su mo d.id d.detail (s.accepted su d prev td)
    rw [he]
    refine ⟨(congrArg Prod.snd hc).trans (accepted_frame s su d prev td).2.2.2,fun j hj => ?_⟩
    exact (congrFun (congrArg Prod.fst hc) j).trans (accepted_other s su prev td hj).2.2

lemma census_delete (mo : Moment T) (d : Delivery) : Preserves census (processBlock su mo d false) := by
  refine (Preserves.failIf _ _).bind fun _ => .bind ?_ fun _ => ?_
  · intro s
    rcases checkSelf_cases su s d false with hs | ⟨e,hs⟩ <;> rw [hs]
  · rw [if_neg Bool.false_ne_true]
    split_ifs
    · refine .bind (.reads _) fun _ => .bind (.demand _ _) fun t => .bind ?_ fun _ =>
        .bind (.failIf _ _) fun _ => .bind (census_disconnectBlock _ _) fun _ => .bind ?_ fun _ => .pure _
      · intro s
        rw [exec_deref]
      · refine .modify fun s => ?_
        rw [delNode]
        split
        · rfl
        · exact census_dropParent s _
    · exact .throw _

/-- The numbers from `k` on are free, and so are those of the orphans. -/
structure Fresh (k : ℕ) (s : State T) : Prop where
  nodes : ∀ i, k ≤ i → s.nodes i = none
  orphans : ∀ o ∈ s.prevOrphans, o.id < k ∧ s.nodes o.id = none
  distinct : (s.prevOrphans.map (·.id)).Nodup

namespace Fresh
variable {k : ℕ}

lemma mono (h : Fresh k s) : Fresh (k+1) s :=
  ⟨fun i hi => h.nodes i (Nat.le_of_succ_le hi),
    fun o ho => ⟨(h.orphans o ho).1.trans (Nat.lt_succ_self k),(h.orphans o ho).2⟩,h.distinct⟩

lemma of_sublist (h : Fresh k s) (hn : s'.nodes = s.nodes) (hs : s'.prevOrphans.Sublist s.prevOrphans) :
    Fresh k s' where
  nodes := by
    rw [hn]
    exact h.nodes
  orphans := by
    rw [hn]
    exact fun o ho => h.orphans o (hs.subset ho)
  distinct := (hs.map _).nodup h.distinct

lemma maybeAcceptBlock (h : Fresh k s) {d : Delivery} (hd : d.id < k)
    (hf : ∀ o ∈ s.prevOrphans, o.id ≠ d.id) : Fresh k ((maybeAcceptBlock su mo d).exec s).2 := by
  obtain ⟨hos,hns⟩ := @census_maybeAcceptBlock T su mo d s
  have hno : ∀ j, j ≠ d.id → s.nodes j = none →
      ((BlockChain.maybeAcceptBlock su mo d).exec s).2.nodes j = none := by
    intro j hj hn
    have := hns j hj
    rw [hn] at this
    exact isNone_iff_eq_none.mp (by rw [← not_isSome,this]; rfl)
  refine ⟨fun i hi => hno i (by omega) (h.nodes i hi),?_,?_⟩
  · rw [hos]
    exact fun o ho => ⟨(h.orphans o ho).1,hno _ (hf o ho) (h.orphans o ho).2⟩
  · rw [hos]
    exact h.distinct

lemma removeOrphanBlock (h : Fresh k s) {hash : Bytes} {op : OrphanBlock}
    {rest : List OrphanBlock} (hc : s.childOrphans hash = op :: rest) :
    Fresh k (s.removeOrphanBlock su op.block) ∧ op.id < k ∧ s.nodes op.id = none ∧
      ∀ o ∈ (s.removeOrphanBlock su op.block).prevOrphans, o.id ≠ op.id := by
  have hm : op ∈ s.prevOrphans := by
    have : op ∈ s.childOrphans hash := by rw [hc]; exact mem_cons_self
    exact mem_of_mem_filter this
  refine ⟨h.of_sublist rfl filter_sublist,(h.orphans _ hm).1,(h.orphans _ hm).2,?_⟩
  intro o ho he
  obtain ⟨hi,hk⟩ := mem_filter.mp ho
  obtain rfl := inj_on_of_nodup_map h.distinct hi hm he
  simp at hk

lemma orphanAttempts {f : ℕ} {hashes : List Bytes} (h : Fresh k s) :
    Fresh k ((processOrphans su mo f hashes).exec s).2 ∧
      ∀ a ∈ orphanAttempts su mo f hashes s, a.1.nodes a.2.id = none := by
  induction f generalizing hashes s with
  | zero => exact ⟨h,by simp [BlockChain.orphanAttempts]⟩
  | succ f ih =>
    cases hashes with
    | nil => exact ⟨h,by simp [BlockChain.orphanAttempts]⟩
    | cons hash hashes =>
      rw [processOrphans,BlockChain.orphanAttempts,exec_bind_ok (exec_reads _ s)]
      cases hc : s.childOrphans hash with
      | nil => exact ih h
      | cons o rest =>
        obtain ⟨h1,hlt,hn,hf⟩ := @removeOrphanBlock T su s k h _ _ _ hc
        have h2 := @maybeAcceptBlock T su mo _ k h1 o.delivery hlt hf
        dsimp only
        rw [exec_bind_ok (exec_modify _ s),← OrphanBlock.delivery]
        rcases he : (BlockChain.maybeAcceptBlock su mo o.delivery).exec
            (s.removeOrphanBlock su o.block) with ⟨e | r,s2⟩
        · rw [he] at h2
          rw [exec_bind_error he]
          refine ⟨h2,fun a ha => ?_⟩
          rw [mem_singleton.mp ha]
          exact hn
        · rw [he] at h2
          rw [exec_bind_ok he]
          obtain ⟨h3,hat⟩ := @ih s2 (hash :: hashes ++ [su.hash o.block]) h2
          exact ⟨h3,forall_mem_cons.mpr ⟨hn,hat⟩⟩

lemma of_census (h : Fresh k s) (hs : s'.census = s.census) : Fresh k s' := by
  have hno : ∀ j, s.nodes j = none → s'.nodes j = none := by
    intro j hn
    have hj : (s'.nodes j).isSome = (s.nodes j).isSome := congrFun (congrArg Prod.fst hs) j
    rw [hn] at hj
    exact isNone_iff_eq_none.mp (by rw [← not_isSome,hj]; rfl)
  have hos : s'.prevOrphans = s.prevOrphans := congrArg Prod.snd hs
  refine ⟨fun i hi => hno i (h.nodes i hi),?_,?_⟩
  · rw [hos]
    exact fun o ho => ⟨(h.orphans o ho).1,hno _ (h.orphans o ho).2⟩
  · rw [hos]
    exact h.distinct

lemma addOrphan (h : Fresh k s) (hn : s'.nodes = s.nodes) {ke : List OrphanBlock}
    {op : OrphanBlock} (hs : ke.Sublist s.prevOrphans) (hid : op.id = k)
    (hos : s'.prevOrphans = ke ++ [op]) : Fresh (k+1) s' := by
  refine ⟨fun i hi => by rw [hn]; exact h.nodes i (Nat.le_of_succ_le hi),?_,?_⟩
  · rw [hn,hos]
    intro o ho
    rcases mem_append.mp ho with ho | ho
    · exact h.mono.orphans o (hs.subset ho)
    · rw [mem_singleton.mp ho,hid]
      exact ⟨Nat.lt_succ_self k,h.nodes k le_rfl⟩
  · rw [hos,map_append]
    refine nodup_append.mpr ⟨(hs.map _).nodup h.distinct,by simp,?_⟩
    intro i hi j hj
    obtain ⟨o,ho,rfl⟩ := mem_map.mp hi
    have hlt := (h.orphans o (hs.subset ho)).1
    have hk : j = op.id := mem_singleton.mp hj
    omega

lemma process (h : Fresh k s) (c : Call T) :
    Fresh (k+1) (step su s (c,k)) ∧ ∀ a ∈ attempts su s (c,k), a.1.nodes a.2.id = none := by
  rw [attempts,step,BlockChain.process]
  cases had : c.addBlock with
  | false => exact ⟨(h.of_census (census_delete c.moment (c.delivery k) s)).mono,by simp⟩
  | true =>
    rcases processBlock_cases su c.moment s (c.delivery k) with
      ⟨⟨e,s',hp⟩,⟨e',he⟩ | ⟨s1,he,hchain,hs⟩ | ⟨s1,he,hchain,ke,ex,hs,hos⟩⟩ |
        ⟨s1,hp,hchain,hs,he⟩
    · rw [he,hp]
      exact ⟨h.mono,by simp⟩
    · rw [he,hp]
      exact ⟨(h.of_sublist (nodes_of_chain hchain) hs).mono,by simp⟩
    · rw [he,hp]
      exact ⟨h.addOrphan (nodes_of_chain hchain) hs rfl hos,by simp⟩
    · rw [he,hp,if_pos rfl]
      have h1 := h.of_sublist (nodes_of_chain hchain) hs
      have hf1 : s1.nodes (c.delivery k).id = none := h1.nodes k le_rfl
      have h2 : Fresh (k+1) ((BlockChain.maybeAcceptBlock su c.moment (c.delivery k)).exec s1).2 := by
        refine h1.mono.maybeAcceptBlock (Nat.lt_succ_self k) fun o ho => ?_
        exact (h1.orphans o ho).1.ne
      dsimp only
      rcases hac : (BlockChain.maybeAcceptBlock su c.moment (c.delivery k)).exec s1 with ⟨e | r,s2⟩
      · rw [hac] at h2
        rw [exec_bind_error hac]
        refine ⟨h2,fun a ha => ?_⟩
        rw [mem_singleton.mp ha]
        exact hf1
      · rw [hac] at h2
        rw [exec_bind_ok hac,exec_bind_ok (exec_reads _ s2),exec_bind_pure]
        obtain ⟨h3,hat⟩ := @orphanAttempts T su c.moment s2 (k+1) (2*s2.prevOrphans.length+2)
          [su.hash c.detail.block] h2
        exact ⟨h3,forall_mem_cons.mpr ⟨hf1,hat⟩⟩

end Fresh
end Dpos.BlockChain
