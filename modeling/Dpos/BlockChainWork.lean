import Dpos.BlockChainFork

/-! Total difficulties: what the block store says about the weight of the blocks agrees with
the blocks, and a call that does not stop in the middle of a reorganisation does not make
the tip lighter. -/
namespace Dpos.BlockChain

open List Function State Function Option Prod

variable {T : Type} {su : Setup T} {mo : Moment T} {s : State T} {diff : Bytes → ℤ}

/-- The header hash tells blocks with different parents apart as well. -/
structure Setup.Links (su : Setup T) : Prop extends su.Binds where
  parentHash : ∀ b b', su.hash b = su.hash b' → b.parentHash = b'.parentHash

lemma Setup.links_of_ideal {c : Crypto} {cfg : Config} (hc : c.Ideal)
    (hs : su.hash = Block.hash c cfg) : su.Links where
  toBinds := Setup.binds_of_ideal hc hs
  parentHash := by
    intro b b' h
    rw [hs] at h
    exact (Block.hash_inj hc h).2.2

/-- A block has the difficulty that goes with its hash. -/
def Rated (su : Setup T) (diff : Bytes → ℤ) (block : Block) : Prop := block.difficulty = diff (su.hash block)

/-- Execution keeps the place and the difficulty of a block, and of a block of others its
hash. -/
structure Moment.Keeps (su : Setup T) (mo : Moment T) : Prop where
  height : mo.KeepsHeight
  parentHash : ∀ localDB prevStateHash block errReturn detail,
    mo.execBlock localDB prevStateHash block errReturn = .ok detail → detail.block.parentHash = block.parentHash
  difficulty : ∀ localDB prevStateHash block errReturn detail,
    mo.execBlock localDB prevStateHash block errReturn = .ok detail → detail.block.difficulty = block.difficulty
  hash : ∀ localDB prevStateHash block detail,
    mo.execBlock localDB prevStateHash block true = .ok detail → su.hash detail.block = su.hash block

/-- Execution returns a block with the difficulty that goes with its hash. -/
def Moment.Rates (su : Setup T) (diff : Bytes → ℤ) (mo : Moment T) : Prop :=
  ∀ localDB prevStateHash block errReturn detail,
    mo.execBlock localDB prevStateHash block errReturn = .ok detail →
      Rated su diff block → Rated su diff detail.block

def State.tipTd (s : State T) : Option ℕ := s.tip.bind fun t => s.td (s.nodeHash t)

/-- Each stored block has its total difficulty, which is its own on top of that of its
parent, and there is no other total difficulty. -/
structure Weighed (su : Setup T) (diff : Bytes → ℤ) (s : State T) : Prop where
  weight : ∀ h detail, s.details h = some detail → ∃ t, s.tdBelow detail.block = some t ∧
    s.td h = some (su.calcWork detail.block.difficulty+t)
  stored : ∀ h t, s.td h = some t → ∃ detail, s.details h = some detail
  rated : ∀ h detail, s.details h = some detail → detail.block.difficulty = diff h

variable {s' : State T} {id j : ℕ}

lemma Weighed.congr (w : Weighed su diff s) (hd : s'.details = s.details)
    (ht : s'.td = s.td) : Weighed su diff s' := by
  refine ⟨?_,?_,?_⟩
  · intro h detail
    rw [tdBelow,ht,hd,← tdBelow]
    exact w.weight h detail
  · rw [ht,hd]
    exact w.stored
  · rw [hd]
    exact w.rated

lemma tdBelow_congr {b b' : Block} (hheight : b'.height = b.height)
    (hp : b'.parentHash = b.parentHash) : s.tdBelow b' = s.tdBelow b := by
  rw [tdBelow,tdBelow,hheight,hp]

lemma Weighed.td_zeroHash (w : Weighed su diff s) (hs : su.Binds) (f : s.Forest su) : s.td zeroHash = none := by
  cases ht : s.td zeroHash with
  | none => rfl
  | some t =>
    obtain ⟨detail,hd⟩ := w.stored _ _ ht
    exact absurd (f.stored _ _ hd) (hs.ne_zeroHash _)

lemma Weighed.write (w : Weighed su diff s) (hs : su.Links) (f : s.Forest su)
    (detail : BlockDetail) {t : ℕ} (hbe : s.tdBelow detail.block = some t) (hr : Rated su diff detail.block)
    (hds : s'.details = update s.details (su.hash detail.block) (some detail))
    (htd : s'.td = update s.td (su.hash detail.block) (some (su.calcWork detail.block.difficulty+t))) :
    Weighed su diff s' ∧ ∀ h v, s.td h = some v → s'.td h = some v := by
  have hg : ∀ h v, s.td h = some v → s'.td h = some v := by
    intro h v hv
    by_cases hh : h = su.hash detail.block
    swap
    · rw [htd,update_of_ne hh]
      exact hv
    -- the block was stored before, with the same parent and difficulty
    subst hh
    obtain ⟨old,hold⟩ := w.stored _ _ hv
    have hha := f.stored _ _ hold
    obtain ⟨t',ht',htd'⟩ := w.weight _ _ hold
    have hsa : s.tdBelow old.block = s.tdBelow detail.block :=
      tdBelow_congr (hs.height _ _ hha) (hs.parentHash _ _ hha)
    rw [hsa,hbe] at ht'
    cases ht'
    have hdf : old.block.difficulty = detail.block.difficulty := (w.rated _ _ hold).trans hr.symm
    rw [hdf] at htd'
    rw [htd,update_self,← htd',hv]
  have hg' : ∀ b t, s.tdBelow b = some t → s'.tdBelow b = some t := by
    intro b t hb
    rw [tdBelow] at hb ⊢
    split_ifs at hb ⊢
    · exact hb
    · exact hg _ _ hb
  refine ⟨⟨?_,?_,?_⟩,hg⟩
  · intro h d hd
    rw [hds,update_apply] at hd
    split_ifs at hd with hh
    · cases hd
      exact ⟨t,hg' _ _ hbe,by rw [htd,hh,update_self]⟩
    · obtain ⟨t',ht',htd'⟩ := w.weight h d hd
      exact ⟨t',hg' _ _ ht',hg _ _ htd'⟩
  · intro h v hv
    rw [htd,update_apply] at hv
    rw [hds,update_apply]
    split_ifs at hv ⊢
    · exact ⟨_,rfl⟩
    · exact w.stored h v hv
  · intro h d hd
    rw [hds,update_apply] at hd
    split_ifs at hd with hh
    · cases hd
      rw [hh]
      exact hr
    · exact w.rated h d hd

/-- The block of a node names the node's parent as its parent. -/
def Linked (su : Setup T) (s : State T) : Prop :=
  ∀ i p, s.up i = some p → ∀ b, su.hash b = s.nodeHash i → b.parentHash = s.nodeHash p

lemma Linked.of_up (l : Linked su s) (hu : ∀ i p, s'.up i = some p → s.up i = some p)
    (hh : ∀ i p, s'.up i = some p → s'.nodeHash i = s.nodeHash i ∧ s'.nodeHash p = s.nodeHash p) :
    Linked su s' := by
  intro i p hp b hb
  obtain ⟨hi,hpp⟩ := hh i p hp
  rw [hpp]
  exact l i p (hu i p hp) b (hb.trans hi)

lemma up_dropParent (s : State T) (i j : ℕ) : (s.dropParent i).up j = if j = i then none else s.up j := by
  rw [up,dropParent]
  dsimp only
  rw [update_apply]
  split_ifs with hj
  · subst hj
    cases s.nodes j <;> rfl
  · rfl

lemma Linked.dropParent (l : Linked su s) (i : ℕ) : Linked su (s.dropParent i) := by
  refine l.of_up (fun j p hp => ?_) fun j p _ =>
    ⟨nodeHash_dropParent s i j,nodeHash_dropParent s i p⟩
  rw [up_dropParent] at hp
  split_ifs at hp
  exact hp

lemma Linked.of_nodes (l : Linked su s) (hn : s'.nodes = s.nodes) : Linked su s' := by
  refine l.of_up (fun i p hp => ?_) fun i p _ => ?_
  · rw [up,hn] at hp
    exact hp
  · rw [nodeHash,nodeHash,nodeHash,nodeHash,hn]
    exact ⟨rfl,rfl⟩

lemma up_of_addNode {i p : ℕ} (hp : (s.addNode i).up j = some p) : s.up j = some p := by
  rcases addNode_nodes s i with hs | ⟨f,-,-,hd⟩
  · rw [up,hs] at hp
    exact hp
  · rw [up,hd,← up,up_dropParent] at hp
    split_ifs at hp
    exact hp

lemma Linked.addNode (l : Linked su s) (i : ℕ) : Linked su (s.addNode i) := by
  rcases addNode_nodes s i with hs | ⟨f,-,-,hd⟩
  · exact l.of_nodes hs
  · exact (l.dropParent f).of_nodes hd

lemma Linked.failed (l : Linked su s) (node : BlockNode) (err : ExecError) : Linked su (s.failed node err) := by
  rw [State.failed]
  split_ifs
  · rw [State.delNode]
    split
    · exact l
    · exact (l.dropParent _).of_nodes rfl
  · exact l

lemma nodeHash_learn_of_ne (s : State T) (su : Setup T) (node : BlockNode) (b : Block) (hj : j ≠ id) :
    (s.learn su id node b).nodeHash j = s.nodeHash j := by
  rw [nodeHash,nodeHash,nodes_learn]
  split_ifs
  · rw [update_of_ne hj]
  · rfl

/-- The node of an executed block still names its parent; no other node names it, or it
keeps its hash. -/
theorem Linked.learn (l : Linked su s) (hsu : su.Links) {node : BlockNode} {bl bl' : Block}
    (hnode : s.nodes id = some node) (hbl : su.hash bl = node.hash)
    (hpa : bl'.parentHash = bl.parentHash) (hc : (∀ j, s.up j ≠ some id) ∨ su.hash bl' = node.hash) :
    Linked su (s.learn su id node bl') := by
  intro i p hp b hb
  rw [(learn_same hnode bl' i).1] at hp
  have hse : (s.learn su id node bl').nodeHash id = su.hash bl' ∨
      (s.learn su id node bl').nodeHash id = node.hash := by
    rw [nodeHash,nodes_learn]
    split_ifs
    · rw [update_self]
      exact .inl rfl
    · rw [hnode]
      exact .inr rfl
  have hk : su.hash bl' = node.hash → (s.learn su id node bl').nodeHash id = s.nodeHash id := by
    intro hs
    rw [nodeHash_eq hnode]
    rcases hse with h | h
    · rw [h,hs]
    · exact h
  have hp' : (s.learn su id node bl').nodeHash p = s.nodeHash p := by
    by_cases he : p = id
    · subst he
      rcases hc with hn | hs
      · exact absurd hp (hn i)
      · exact hk hs
    · exact nodeHash_learn_of_ne s su node bl' he
  rw [hp']
  by_cases he : i = id
  · subst he
    rcases hse with h | h
    · rw [h] at hb
      rw [hsu.parentHash _ _ hb,hpa]
      exact l i p hp bl (by rw [hbl,nodeHash_eq hnode])
    · exact l i p hp b (by rw [hb,h,nodeHash_eq hnode])
  · exact l i p hp b (by rw [hb,nodeHash_learn_of_ne s su node bl' he])

section
variable {d : Delivery} {pr td : ℕ}

lemma accepted_tables (s : State T) (su : Setup T) (d : Delivery) (pr td : ℕ) :
    (s.accepted su d pr td).details = update s.details (su.hash d.detail.block)
      (some ⟨d.detail.block,d.detail.receipts,[],[]⟩) ∧
    (s.accepted su d pr td).td = update s.td (su.hash d.detail.block)
      (some (su.calcWork d.detail.block.difficulty+td)) := by
  rw [accepted]
  obtain ⟨-,-,hd,ht,-⟩ := addNode_frame _ d.id
  exact ⟨hd,ht⟩

lemma Weighed.accepted (w : Weighed su diff s) (hs : su.Links) (h : s.Sound su)
    (hb : s.tdBelow d.detail.block = some td) (hr : Rated su diff d.detail.block) (pr : ℕ) :
    Weighed su diff (s.accepted su d pr td) ∧
      ∀ x v, s.td x = some v → (s.accepted su d pr td).td x = some v := by
  obtain ⟨hd,ht⟩ := accepted_tables s su d pr td
  exact w.write hs h.forest ⟨d.detail.block,d.detail.receipts,[],[]⟩ hb hr hd ht

lemma Linked.accepted (l : Linked su s) (hs : su.Links) (h : s.Sound su)
    (hf : s.nodes d.id = none) (hpr : s.index d.detail.block.parentHash = some pr) (td : ℕ) :
    Linked su (s.accepted su d pr td) := by
  refine Linked.addNode (fun i p hp b hb => ?_) d.id
  have hh : ∀ j, j ≠ d.id → update s.nodes d.id (some (newBlockNode su d pr)) j = s.nodes j :=
    fun j hj => update_of_ne hj ..
  rw [up] at hp
  rw [nodeHash] at hb ⊢
  dsimp only at hp hb ⊢
  obtain ⟨pn,hpn,hph⟩ := h.forest.index _ pr hpr
  have hpe : pr ≠ d.id := ne_of_fresh hf (by rw [hpn]; rfl)
  by_cases hi : i = d.id
  · subst hi
    rw [update_self] at hp hb
    obtain rfl : pr = p := some.inj hp
    rw [hh pr hpe,hpn]
    exact (hs.parentHash _ _ hb).trans hph.symm
  · rw [hh i hi,← up] at hp
    rw [hh i hi,← nodeHash] at hb
    obtain ⟨node,hnode,hpa⟩ := exists_of_up hp
    obtain ⟨pn',hpn',-⟩ := h.forest.parent i node p hnode hpa
    rw [hh p (ne_of_fresh hf (by rw [hpn']; rfl)),← nodeHash]
    exact l i p hp b hb

lemma accepted_no_child (h : s.Sound su) (hf : s.nodes d.id = none) (hp : (s.nodes pr).isSome = true)
    (td j : ℕ) : (s.accepted su d pr td).up j ≠ some d.id := by
  intro hj
  have hne : pr ≠ d.id := ne_of_fresh hf hp
  have hu := up_of_addNode hj
  rw [up] at hu
  dsimp only at hu
  rw [update_apply] at hu
  split_ifs at hu
  · exact hne (some.inj hu)
  · rw [← up] at hu
    obtain ⟨node,hnode,hpa⟩ := exists_of_up hu
    obtain ⟨pn,hpn,-⟩ := h.forest.parent j node d.id hnode hpa
    rw [hf] at hpn
    cases hpn

end

def NotLighter (s s' : State T) : Prop := ∀ v, s.tipTd = some v → ∃ v', s'.tipTd = some v' ∧ v ≤ v'

lemma NotLighter.trans {s'' : State T} (h : NotLighter s s') (h' : NotLighter s' s'') : NotLighter s s'' := by
  intro v hv
  obtain ⟨v',hv',hl⟩ := h v hv
  obtain ⟨v'',hv'',hl'⟩ := h' v' hv'
  exact ⟨v'',hv'',hl.trans hl'⟩

lemma NotLighter.of_tip (htp : s'.tip = s.tip) (hh : ∀ t, s.tip = some t → s'.nodeHash t = s.nodeHash t)
    (hg : ∀ h v, s.td h = some v → s'.td h = some v) : NotLighter s s' := by
  intro v hv
  rw [tipTd] at hv
  obtain ⟨t,ht,htd⟩ := bind_eq_some_iff.mp hv
  refine ⟨v,?_,le_rfl⟩
  rw [tipTd,htp,ht,bind_some,hh t ht]
  exact hg _ _ htd

lemma failed_frame (s : State T) (node : BlockNode) (err : ExecError) :
    (s.failed node err).tip = s.tip ∧ (s.failed node err).details = s.details ∧
      (s.failed node err).td = s.td ∧ ∀ j, (s.failed node err).nodeHash j = s.nodeHash j := by
  rw [failed]
  split_ifs
  · rw [delNode]
    split
    · exact ⟨rfl,rfl,rfl,fun _ => rfl⟩
    · exact ⟨rfl,rfl,rfl,nodeHash_dropParent s _⟩
  · exact ⟨rfl,rfl,rfl,fun _ => rfl⟩

section
variable {id : ℕ} {n : BlockNode} {de b : BlockDetail} {ptd : ℕ}

lemma connected_tables (s : State T) (su : Setup T) (id : ℕ) (n : BlockNode) (de : BlockDetail)
    (td : ℕ) (localDB : T) :
    (s.connected su id n de td localDB).details = update s.details (su.hash de.block)
      (some ⟨de.block,de.receipts,[],[]⟩) ∧
    (s.connected su id n de td localDB).td = update s.td (su.hash de.block) (some td) ∧
    (s.connected su id n de td localDB).nodes = (s.learn su id n de.block).nodes ∧
    (s.connected su id n de td localDB).localDB = localDB := by
  obtain ⟨-,-,hd,ht,-⟩ := learn_frame s su id n de.block
  obtain ⟨hn,-,-,hd',ht',hlocal⟩ := setTip_frame ((s.learn su id n
    de.block).saveBlock (su.hash de.block) de td localDB) id
  refine ⟨hd'.trans ?_,ht'.trans ?_,hn,hlocal⟩
  · change update (s.learn su id n de.block).details _ _ = _
    rw [hd]
  · change update (s.learn su id n de.block).td _ _ = _
    rw [ht]

lemma Weighed.connected (w : Weighed su diff s) (hs : su.Links) (f : s.Forest su)
    (hheight : b.block.height = de.block.height) (hp : b.block.parentHash = de.block.parentHash)
    (hdi : b.block.difficulty = de.block.difficulty)
    (hr : Rated su diff b.block) (hb : s.tdBelow de.block = some ptd)
    (id : ℕ) (n : BlockNode) (ld : T) : Weighed su diff (s.connected su id n b
        (su.calcWork de.block.difficulty+ptd) ld) ∧ ∀ h v, s.td h = some v → (s.connected su id n b
        (su.calcWork de.block.difficulty+ptd) ld).td h = some v := by
  obtain ⟨hd,ht,-⟩ := connected_tables s su id n b
    (su.calcWork de.block.difficulty+ptd) ld
  rw [← tdBelow_congr hheight hp] at hb
  rw [← hdi] at hd ht ⊢
  exact w.write hs f ⟨b.block,b.receipts,[],[]⟩ hb hr hd ht

lemma nodeHash_connected (hnode : s.nodes id = some n)
    (hh : n.pid ≠ .self → su.hash b.block = n.hash) (td : ℕ) (ld : T) :
    (s.connected su id n b td ld).nodeHash id = su.hash b.block := by
  rw [nodeHash,(connected_tables s su id n b td ld).2.2.1,nodes_learn]
  split_ifs with hs
  · rw [update_self]
    rfl
  · rw [hnode]
    exact (hh hs).symm

lemma nodeHash_connected_of_ne {j : ℕ} (hj : j ≠ id) (td : ℕ) (ld : T) :
    (s.connected su id n b td ld).nodeHash j = s.nodeHash j := by
  rw [← nodeHash_learn_of_ne s su n b.block hj,nodeHash,(connected_tables s su id n b td ld).2.2.1]
  rfl

/-- A block that does not name the tip as its parent does not get past `setTip`. -/
theorem tip_connected {t : ℕ} (h : s.Sound su) (ht : s.tip = some t) (hnode : s.nodes id = some n)
    (b : BlockDetail) (td : ℕ) (ld : T) :
    (s.connected su id n b td ld).tip = if s.up id = some t then some id else some t := by
  split_ifs with hu
  · exact (h.connected_frame ht hnode hu b td ld).1
  · have hv := (learn_frame s su id n b.block).1
    have htp : (s.learn su id n b.block).tip = some t := by rw [tip,hv,← tip,ht]
    rw [connected,setTip,if_pos]
    · exact htp
    · constructor
      · intro hn
        change (s.learn su id n b.block).view = [] at hn
        rw [tip,hn] at htp
        cases htp
      · change (s.learn su id n b.block).up id ≠ (s.learn su id n b.block).tip
        rw [(learn_same hnode b.block id).1,htp]
        exact hu

end

variable {t id : ℕ} {node : BlockNode} {detail : BlockDetail} {blocks : List (ℕ × BlockDetail)}

/-- **A block on top of the tip** becomes the tip with more total difficulty, or the tip
stays. -/
theorem connectBlock_weighs (hs : su.Links) (hm : mo.Keeps su) (hra : mo.Rates su diff)
    (h : s.Sound su) (w : Weighed su diff s) (l : Linked su s)
    (ht : s.tip = some t) (hnode : s.nodes id = some node)
    (hb : su.hash detail.block = node.hash) (hr : Rated su diff detail.block)
    (ha : detail.block.parentHash = s.nodeHash t → s.viewHeight < node.height) (hc : ∀ j, s.up j ≠ some id) :
    Ends (connectBlock su mo id detail) s (fun _ s' => Weighed su diff s' ∧ Linked su s' ∧ NotLighter s s')
      (fun _ s' => Weighed su diff s' ∧ Linked su s' ∧ NotLighter s s' ∧ s'.tip = s.tip) := by
  obtain ⟨tip,hti,htn⟩ := h.tipNode_isSome ht
  rcases connectBlock_cases su mo s id detail with ⟨e,he⟩ | ⟨tip',node',hcl,htp,hnode',hp⟩
  · exact .of_error he ⟨w,l,.of_tip rfl (fun _ _ => rfl) fun _ _ h => h,rfl⟩
  cases hti.symm.trans htp
  cases hnode.symm.trans hnode'
  have ha := ha (by rw [hp,nodeHash_eq htn])
  have hne : t ≠ id := by
    rintro rfl
    rw [State.Sound.viewHeight_eq ht,nodeHeight_eq hnode] at ha
    exact lt_irrefl _ ha
  have hrs := exec_connectBlock su mo s hcl hti hnode hp
  cases he : mo.execBlock s.localDB tip.statehash detail.block (node.pid ≠ .self) with
  | error err =>
    rw [he] at hrs
    obtain ⟨htp',hd,htd,hh⟩ := failed_frame s node err
    exact .of_error hrs ⟨w.congr hd htd,l.failed node err,
      .of_tip htp' (fun j _ => hh j) fun x v hv => by rw [htd,hv],htp'⟩
  | ok bl =>
  rw [he] at hrs
  dsimp only at hrs
  obtain ⟨hvi,-,hd,htd,-⟩ := learn_frame s su id node bl.block
  have hp' := hm.parentHash _ _ _ _ _ he
  have hl : Linked su (s.learn su id node bl.block) := l.learn hs hnode hb hp' (.inl hc)
  have hst : NotLighter s (s.learn su id node bl.block) := by
    refine .of_tip (congrArg head? hvi) (fun j hj => ?_) fun x v hv => by rw [htd,hv]
    cases ht.symm.trans hj
    exact nodeHash_learn_of_ne s su node bl.block hne
  split at hrs
  · exact .of_error hrs ⟨w.congr hd htd,hl,hst,congrArg head? hvi⟩
  rename_i localDB hlocal
  split at hrs
  · exact .of_error hrs ⟨w.congr hd htd,hl,hst,congrArg head? hvi⟩
  rename_i ptd hbe
  obtain ⟨hw',hg⟩ := w.connected hs h.forest (hm.height _ _ _ _ _ he) hp'
    (hm.difficulty _ _ _ _ _ he) (hra _ _ _ _ _ he hr) hbe id node localDB
  refine .of_ok hrs ⟨hw',hl.of_nodes (connected_tables ..).2.2.1,?_⟩
  have htp' := tip_connected h ht hnode bl
    (su.calcWork detail.block.difficulty+ptd) localDB
  split_ifs at htp' with hu
  swap
  · refine .of_tip (htp'.trans ht.symm) (fun j hj => ?_) hg
    cases ht.symm.trans hj
    exact nodeHash_connected_of_ne hne _ _
  -- the new tip weighs as much as the old one and its own difficulty
  intro v hv
  rw [tipTd,ht,bind_some,nodeHash_eq htn] at hv
  have hps : detail.block.height ≠ 0 := by
    intro hze
    have hheight := hs.height_of_hash (h.forest.formed id node hnode) hb
    rw [State.Sound.viewHeight_eq ht,nodeHeight_eq htn] at ha
    rcases h.forest.formed t tip htn with ⟨hz,-⟩ | ⟨hpo,-⟩
    · rw [hz,w.td_zeroHash hs.toBinds h.forest] at hv
      cases hv
    · omega
  rw [tdBelow,if_neg hps,hp,hv] at hbe
  obtain rfl := some.inj hbe
  refine ⟨su.calcWork detail.block.difficulty+v,?_,Nat.le_add_left ..⟩
  rw [tipTd,htp',bind_some,nodeHash_connected hnode,(connected_tables ..).2.1,update_self]
  intro hpe
  rw [← hb]
  exact hm.hash _ _ _ _ (by rw [← he,decide_eq_true hpe])

/-! ### Changing the branch -/

/-- The nodes of a list, with their blocks as they are stored. -/
def State.branch (s : State T) (ids : List ℕ) : List (BlockNode × BlockDetail) :=
  ids.filterMap fun i => (s.nodes i).bind fun node => (s.details node.hash).map (node,·)

/-- Blocks execute one after another under the hashes of their nodes, and the local database
takes them. -/
def redoes (su : Setup T) (mo : Moment T) : T → Bytes → List (BlockNode × BlockDetail) → Bool
  | _,_,[] => true
  | localDB,prevStateHash,(node,detail) :: rest =>
    match mo.execBlock localDB prevStateHash detail.block (node.pid ≠ .self) with
    | .error _ => false
    | .ok blockdetail =>
      match su.addTxs localDB blockdetail with
      | .error _ => false
      | .ok localDB => su.hash blockdetail.block = node.hash &&
          redoes su mo localDB (if node.pid = .self then blockdetail.block.stateHash else node.statehash) rest

lemma redoes_cons {ld : T} {psh : Bytes} {rest : List (BlockNode × BlockDetail)}
    (h : redoes su mo ld psh ((node,detail) :: rest) = true) :
    ∃ bl ld', mo.execBlock ld psh detail.block (node.pid ≠ .self) =
        .ok bl ∧ su.addTxs ld bl = .ok ld' ∧
      su.hash bl.block = node.hash ∧ redoes su mo ld'
        (if node.pid = .self then bl.block.stateHash else node.statehash) rest = true := by
  rw [redoes] at h
  split at h
  · cases h
  rename_i bl he
  split at h
  · cases h
  rename_i ld' ha
  rw [Bool.and_eq_true,decide_eq_true_eq] at h
  exact ⟨bl,ld',he,ha,h.1,h.2⟩

lemma branch_cons (hnode : s.nodes id = some node) (hd : s.details node.hash = some detail) (ids : List ℕ) :
    s.branch (id :: ids) = (node,detail) :: s.branch ids := by
  rw [branch,filterMap_cons_some (b := (node,detail)),← branch]
  rw [hnode,bind_some,hd]
  rfl

lemma nodes_connected {bl : BlockDetail}
    (hnode : s.nodes id = some node) (hh : su.hash bl.block = node.hash) (td : ℕ) (ld : T) :
    (s.connected su id node bl td ld).nodes id = some {node with
      statehash := if node.pid = .self then bl.block.stateHash else node.statehash} := by
  rw [(connected_tables s su id node bl td ld).2.2.1,nodes_learn]
  split_ifs with hs
  · rw [update_self,hh]
  · exact hnode

/-- **A branch that executes** is connected up to its end, and no total difficulty changes. -/
theorem connectBlocks_redo (hsu : su.Links) (hm : mo.Keeps su) (hra : mo.Rates su diff)
    (hcl : mo.closed = false) {tip : BlockNode} (h : s.Sound su)
    (w : Weighed su diff s) (l : Linked su s) (ht : s.tip = some t) (htn : s.nodes t = some tip)
    (hchain : (t :: blocks.map fst).IsChain fun i j => s.up j = some i)
    (hbs : ∀ b ∈ blocks, ∃ node, s.nodes b.1 = some node ∧ s.details node.hash = some b.2)
    (hrd : redoes su mo s.localDB tip.statehash (s.branch (blocks.map fst)) = true) :
    ∃ s', (connectBlocks su mo blocks).exec s = (.ok (),s') ∧ s'.Sound su ∧ Weighed su diff s' ∧
      Linked su s' ∧ s'.td = s.td ∧ (∀ j, s'.nodeHash j = s.nodeHash j) ∧
      s'.tip = some ((t :: blocks.map fst).getLast (cons_ne_nil _ _)) := by
  induction blocks generalizing s t tip with
  | nil => exact ⟨s,rfl,h,w,l,rfl,fun _ => rfl,ht⟩
  | cons b blocks ih =>
    rw [map_cons] at hchain hrd
    obtain ⟨hup,hre⟩ := isChain_cons_cons.mp hchain
    obtain ⟨node,hnode,hdt⟩ := hbs b mem_cons_self
    rw [branch_cons hnode hdt] at hrd
    obtain ⟨bl,ld,hex,ha,hsa,hrd⟩ := redoes_cons hrd
    have hh := h.forest.stored _ _ hdt
    have hr : Rated su diff b.2.block := by rw [Rated,hh]; exact w.rated _ _ hdt
    obtain ⟨hheight,hp⟩ := hsu.height_of_hash (h.forest.formed b.1 node hnode) hh
    have hpa : b.2.block.parentHash = tip.hash := by
      rw [l b.1 t hup b.2.block (by rw [hh,State.nodeHash_eq hnode]),State.nodeHash_eq htn]
    obtain ⟨ptd,hbe,htd⟩ := w.weight _ _ hdt
    have hti : s.tipNode = some tip := by rw [State.tipNode,ht,bind_some,htn]
    have hc := exec_connectBlock su mo s hcl hti hnode hpa
    rw [hex] at hc
    dsimp only at hc
    rw [ha] at hc
    rw [hbe] at hc
    dsimp only at hc
    -- the state with the first block on top
    have h1 := h.connected hnode hp ((hm.height _ _ _ _ _ hex).trans hheight)
      (su.calcWork b.2.block.difficulty+ptd) ld
    have w1 := (w.connected hsu h.forest (hm.height _ _ _ _ _ hex) (hm.parentHash _ _ _ _ _ hex)
      (hm.difficulty _ _ _ _ _ hex) (hra _ _ _ _ _ hex hr) hbe b.1 node ld).1
    obtain ⟨hds1,htd1,hns1,hlocal1⟩ := connected_tables s su b.1 node bl
      (su.calcWork b.2.block.difficulty+ptd) ld
    have l1 := (l.learn hsu hnode hh (hm.parentHash _ _ _ _ _ hex) (.inr hsa)).of_nodes hns1
    obtain ⟨htp1,hu1,hold1⟩ := h.connected_frame ht hnode hup bl
      (su.calcWork b.2.block.difficulty+ptd) ld
    have hnode1 := nodes_connected hnode hsa (su.calcWork b.2.block.difficulty+ptd) ld
    generalize s.connected su b.1 node bl (su.calcWork b.2.block.difficulty+ptd) ld = s1 at *
    have hk : s1.td = s.td := by rw [htd1,hsa,← htd,update_eq_self]
    have hhs : ∀ j, s1.nodeHash j = s.nodeHash j := by
      intro j
      by_cases hj : j = b.1
      · subst hj
        rw [State.nodeHash_eq hnode1,State.nodeHash_eq hnode]
      · rw [State.nodeHash,hold1 j hj,← State.nodeHash]
    -- the rest of the branch is higher, so nothing of it has changed
    have hre1 : ∀ b' ∈ blocks, ∃ node, s.nodes b'.1 = some node ∧ s1.nodes b'.1 = some node ∧
        s.details node.hash = some b'.2 ∧ s1.details node.hash = some b'.2 := by
      intro b' hb'
      obtain ⟨node',hnode',hdt'⟩ := hbs b' (mem_cons_of_mem b hb')
      have hlt := h.higher hre b'.1 (mem_map_of_mem hb')
      have hne : b'.1 ≠ b.1 := by
        intro he
        rw [he] at hlt
        exact lt_irrefl _ hlt
      have hnh : node'.hash ≠ su.hash bl.block := by
        intro he
        rw [State.nodeHeight_eq hnode,State.nodeHeight_eq hnode'] at hlt
        have := (h.forest.formed b'.1 node' hnode').height_eq hsu.toBinds (h.forest.formed b.1 node hnode)
          (he.trans hsa)
        omega
      refine ⟨node',hnode',(hold1 _ hne).trans hnode',hdt',?_⟩
      rw [hds1,update_of_ne hnh]
      exact hdt'
    have hbr : s1.branch (blocks.map fst) = s.branch (blocks.map fst) := by
      refine filterMap_congr fun j hj => ?_
      obtain ⟨b',hb',rfl⟩ := mem_map.mp hj
      obtain ⟨node',hn,hn1,hd,hd1⟩ := hre1 b' hb'
      rw [hn,hn1,bind_some,bind_some,hd,hd1]
    have hnext := ih h1 w1 l1 htp1 hnode1 (hre.imp fun i j hi => by rw [hu1 j,hi]) (fun b' hb' => by
      obtain ⟨node',-,hn1,-,hd1⟩ := hre1 b' hb'
      exact ⟨node',hn1,hd1⟩) (by rw [hlocal1,hbr]; exact hrd)
    obtain ⟨s',hex',hs',hw',hl',htd',hh',htp'⟩ := hnext
    refine ⟨s',?_,hs',hw',hl',htd'.trans hk,fun j => (hh' j).trans (hhs j),?_⟩
    · rw [connectBlocks,Proc.exec_bind_ok hc,hex']
    · rw [htp',map_cons,getLast_cons_cons]

lemma branch_map_snd (hbs : ∀ b ∈ blocks, ∃ node, s.nodes b.1 = some node ∧ s.details node.hash = some b.2) :
    (s.branch (blocks.map fst)).map snd = blocks.map snd := by
  induction blocks with
  | nil => rfl
  | cons b blocks ih =>
    obtain ⟨node,hnode,hd⟩ := hbs b mem_cons_self
    rw [map_cons,branch_cons hnode hd,map_cons,map_cons,ih fun b' hb' => hbs b' (mem_cons_of_mem b hb')]

lemma getLast_attach (f : s.Forest su) {fo : ℕ} (hid : (s.nodes id).isSome = true)
    (hf : s.findFork id = some fo) : (fo :: (s.getReorganizeNodes id).2).getLast (cons_ne_nil _ _) = id := by
  obtain ⟨rest,hr⟩ : ∃ rest, s.ancestors id = id :: rest := by
    rw [f.ancestors_eq hid,f.graded.lineage_eq]
    exact ⟨_,rfl⟩
  have ha : (s.getReorganizeNodes id).2 =
      ((id :: rest).takeWhile fun n => some n ≠ some fo).reverse := by
    rw [getReorganizeNodes,hf,hr]
  by_cases he : id = fo
  · have hn : (s.getReorganizeNodes id).2 = [] := by
      rw [ha,takeWhile_cons_of_neg (by simp [he])]
      rfl
    subst he
    simp [hn]
  · have hc : (s.getReorganizeNodes id).2 =
        (rest.takeWhile fun n => some n ≠ some fo).reverse ++ [id] := by
      rw [ha,takeWhile_cons_of_pos (by simp [he]),reverse_cons]
    simp [hc]

/-- The blocks above the fork can be taken back, and those of the branch execute one after
another on what is left. -/
def Carries (su : Setup T) (mo : Moment T) (s : State T) (id : ℕ) : Prop :=
  mo.closed = false ∧ ∃ fork ∈ s.findFork id,
    (match su.undo s.localDB ((s.branch (s.getReorganizeNodes id).1).map snd) with
    | .error _ => false
    | .ok localDB => redoes su mo localDB ((s.nodes fork).elim [] (·.statehash))
        (s.branch (s.getReorganizeNodes id).2)) = true

/-- **A reorganisation** to a branch that executes ends at the branch, or a node has no block and
nothing happens. -/
theorem reorganizeChain_carried (hsu : su.Links) (hm : mo.Keeps su) (hra : mo.Rates su diff)
    (h : s.Sound su) (w : Weighed su diff s) (l : Linked su s) (hid : (s.nodes id).isSome = true)
    (hca : Carries su mo s id) :
    (∃ e, (reorganizeChain su mo (s.getReorganizeNodes id).1 (s.getReorganizeNodes id).2).exec s =
        (.error e,s) ∧ ∃ i ∈ (s.getReorganizeNodes id).1 ++ (s.getReorganizeNodes id).2,
          s.details (s.nodeHash i) = none) ∨
    ∃ s', (reorganizeChain su mo (s.getReorganizeNodes id).1 (s.getReorganizeNodes id).2).exec s =
        (.ok (),s') ∧ Weighed su diff s' ∧ Linked su s' ∧ s'.td = s.td ∧ s'.tip = some id ∧
      ∀ j, s'.nodeHash j = s.nodeHash j := by
  obtain ⟨hcl,fork,hf,hr⟩ := hca
  obtain ⟨⟨rest,hv⟩,hchain,hh⟩ := h.reorganize_lists hid hf
  have hls := getLast_attach h.forest hid hf
  rcases @State.Sound.reorganizeChain_cases T su mo s (s.getReorganizeNodes id).1
    (s.getReorganizeNodes id).2 with ⟨e,he,hwh⟩ | ⟨detachBlocks,attachBlocks,hde,hat,hbs,he⟩
  · refine .inl ⟨e,he,?_⟩
    rcases hwh with ⟨-,i,hi,hno⟩ | ⟨-,i,hi,node,hnode,hno⟩
    · have hso := hh i hi
      rw [hno] at hso
      cases hso
    · exact ⟨i,hi,by rw [nodeHash_eq hnode,hno]⟩
  rw [← hde] at hv hr
  rw [← hat] at hchain hr
  have hd : ∀ b ∈ detachBlocks, ∃ node, s.nodes b.1 = some node ∧ s.details node.hash = some b.2 :=
    fun b hb => hbs b (mem_append_left _ hb)
  have ha : ∀ b ∈ attachBlocks, ∃ node, s.nodes b.1 = some node ∧ s.details node.hash = some b.2 :=
    fun b hb => hbs b (mem_append_right _ hb)
  rw [branch_map_snd hd] at hr
  obtain ⟨s1,hto⟩ := h.disconnectBlocks_top hsu.toBinds hv
  obtain ⟨r,s1',hdi,hs1,hn1,ho⟩ := h.disconnectBlocks hsu.toBinds detachBlocks
  split at hr
  · cases hr
  rename_i localDB hu
  rw [hu] at hto
  obtain ⟨hdi',hlocal1,hds1,htd1⟩ := hto
  obtain ⟨rfl,rfl⟩ := Prod.mk.inj (hdi.symm.trans hdi')
  have hv1 : s1'.view = fork :: rest := by
    rw [(ho rfl).2,hv,drop_left']
    rw [length_map]
  have ht1 : s1'.tip = some fork := by rw [tip,hv1]; rfl
  obtain ⟨tip,-,htn⟩ := hs1.tipNode_isSome ht1
  have hnode : s.nodes fork = some tip := by rw [← hn1]; exact htn
  have hbr : s1'.branch (attachBlocks.map fst) = s.branch (attachBlocks.map fst) := by
    rw [branch,branch,hn1,hds1]
  obtain ⟨s2,hc,-,hw2,hl2,htd2,hha2,htp2⟩ := connectBlocks_redo hsu hm hra hcl hs1
    (w.congr hds1 htd1) (l.of_nodes hn1) ht1 htn
    (hchain.imp fun i j hij => by rw [up,hn1]; exact hij)
    (by rw [hn1,hds1]; exact ha) (by
      rw [hnode] at hr
      rw [hlocal1,hbr]
      exact hr)
  refine .inr ⟨s2,?_,hw2,hl2,htd2.trans htd1,?_,fun j => (hha2 j).trans ?_⟩
  · rw [he,Proc.exec_bind_ok hdi,hc]
  · rw [htp2,← hls]
    simp only [hat]
  · rw [nodeHash,nodeHash,hn1]

end Dpos.BlockChain
