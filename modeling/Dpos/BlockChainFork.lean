import Dpos.BlockChainSound

/-! The best-chain view over whole runs. An index that drops nodes of the view breaks it. -/
namespace Dpos.BlockChain

open List Function State Proc

variable {T : Type} {su : Setup T} {mo : Moment T} {s : State T} {k : ℕ} {P : State T → NumberedCall T → Prop}
  {cs : List (Call T)} {c : Call T}

lemma delete_ends (hsu : su.Binds) (h : s.Sound su) (de : BlockDetail) :
    Ends (processDelParaChainBlock su de) s (fun _ s' => s'.Sound su) (fun _ s' => s'.Sound su) := by
  rw [processDelParaChainBlock]
  refine .exec_bind_ok (exec_reads _ s) ?_
  cases hv : s.view with
  | nil =>
    have ht : s.tip = none := by rw [State.tip,hv]; rfl
    rw [ht]
    exact .of_error (exec_bind_error (exec_demand_none _ s)) h
  | cons t rest =>
  have ht : s.tip = some t := by rw [State.tip,hv]; rfl
  rw [ht]
  refine .exec_bind_ok (exec_demand_some _ t s) ?_
  obtain ⟨tip,htp,htn⟩ := h.tipNode_isSome ht
  have hd := exec_deref s t
  rw [htn] at hd
  refine .exec_bind_ok hd ?_
  have hma := exec_failIf (su.hash de.block ≠ tip.hash) ChainError.errBlockHashNoMatch s
  by_cases hha : su.hash de.block = tip.hash
  swap
  · rw [if_pos hha] at hma
    exact .of_error (exec_bind_error hma) h
  rw [if_neg (not_not.mpr hha)] at hma
  refine .exec_bind_ok hma ?_
  rcases disconnectBlock_cases su s t de with ⟨e,he⟩ | ⟨tip',node,localDB,hti',hnode,hsa,-,he⟩
  · exact .of_error (exec_bind_error he) h
  obtain ⟨hs',hv',hns,-⟩ := h.disconnected hsu hti' hnode hsa de localDB
  rw [hv,tail_cons] at hv'
  have hc := h.flat.chained
  rw [hv] at hc
  by_cases hg : node.parent.isSome = true ∧ (s.disconnected su t de localDB).tipNode.isSome = true
  swap
  · rw [if_neg hg] at he
    exact .of_error (exec_bind_error he) hs'
  rw [if_pos hg] at he
  refine .exec_bind_ok he (.exec_bind_ok (exec_modify _ _) (.of_ok rfl ⟨hs'.forest.delNode _,?_⟩))
  -- what is found under the hash of the old tip is as high, so it is not in the view
  refine hs'.flat.delNode fun i hi hme => ?_
  obtain ⟨n,hn,hh⟩ := hs'.forest.index _ i hi
  rw [hns] at hn
  have heq := (h.forest.formed i n hn).height_eq hsu (h.forest.formed t tip htn) (hh.trans hha)
  have hlt := (pairwise_cons.mp (h.forest.graded.pairwise_of_chained hc)).1 i (hv' ▸ hme)
  rw [State.nodeHeight_eq hn,State.nodeHeight_eq htn] at hlt
  omega

def Along (su : Setup T) (P : State T → NumberedCall T → Prop) : State T → List (NumberedCall T) → Prop
  | _,[] => True
  | s,c :: calls => P s c ∧ Along su P (step su s c) calls

/-- **A run** keeps what each of its calls keeps. -/
theorem run_rule {I : ℕ → State T → Prop}
    (hs : ∀ k s, ∀ c ∈ cs, I k s → P s (c,k) → I (k+1) (step su s (c,k)))
    (h : I k s) (hc : Along su P s (cs.zipIdx k)) (n : ℕ) :
    I (k+min n cs.length) (run su s ((cs.take n).zipIdx k)) := by
  induction cs generalizing k s n with
  | nil => simpa [run] using h
  | cons c cs ih =>
    cases n with
    | zero => simpa [run] using h
    | succ n =>
      rw [zipIdx_cons] at hc
      have hnext := ih (fun k s c' hca' => hs k s c' (mem_cons_of_mem c hca'))
        (hs k s c mem_cons_self h hc.1) hc.2 n
      rw [take_succ_cons,zipIdx_cons,run,foldl_cons,← run,length_cons]
      have hl : k+min (n+1) (cs.length+1) = k+1+min n cs.length := by omega
      rw [hl]
      exact hnext

instance decidableAlong {P : State T → NumberedCall T → Prop} [∀ s c, Decidable (P s c)] :
    ∀ s calls, Decidable (Along su P s calls)
  | _,[] => .isTrue trivial
  | s,c :: calls => @instDecidableAnd (P s c) _ _ (decidableAlong (step su s c) calls)

lemma sound_start (su : Setup T) (ld : T) : (start ld).Sound su := by
  have hnode : ∀ i no, (start ld).nodes i = some no → i = 0 ∧ no = preGenBlockNode := by
    intro i no hi
    simp only [start,update_apply] at hi
    split_ifs at hi with h0
    exact ⟨h0,(Option.some.inj hi).symm⟩
  refine ⟨⟨?_,?_,?_,?_,?_⟩,⟨isChain_singleton 0,?_,?_,?_⟩⟩
  · intro i no hi
    rw [(hnode i no hi).2]
    exact .inl ⟨rfl,rfl⟩
  · intro i no p hi hp
    rw [(hnode i no hi).2] at hp
    cases hp
  · intro h i hi
    simp only [start,update_apply] at hi
    split_ifs at hi with hz
    cases hi
    exact ⟨preGenBlockNode,rfl,hz.symm⟩
  · intro i hi
    rw [mem_singleton.mp hi]
    rfl
  · intro h de hd
    cases hd
  · intro i hi
    rw [mem_singleton.mp hi]
    rfl
  · intro h i
    simp only [start,update_apply,mem_singleton]
    constructor
    · intro hi
      split_ifs at hi with hh
      cases hi
      exact ⟨rfl,hh.symm⟩
    · rintro ⟨rfl,rfl⟩
      rfl
  · exact Nat.one_le_iff_ne_zero.mpr (by decide)

lemma fresh_start (ld : T) : Fresh 1 (start ld) where
  nodes := by
    intro i hi
    have hne : i ≠ 0 := Nat.ne_of_gt hi
    simp [start,hne]
  orphans := by simp [start]
  distinct := nodup_nil

/-- No node of the view falls out of the index. -/
def Shelters (su : Setup T) (s : State T) (c : NumberedCall T) : Prop := ∀ a ∈ attempts su s c, a.1.Spares

lemma sound_step (hsu : su.Binds) {cl : Call T} (hmo : cl.moment.KeepsHeight) (h : s.Sound su)
    (hfr : Fresh k s) (hsh : Shelters su s (cl,k)) : (step su s (cl,k)).Sound su := by
  have he : Ends (processBlock su cl.moment (cl.delivery k) cl.addBlock) s
      (fun _ s' => s'.Sound su) (fun _ s' => s'.Sound su) := by
    refine process_rule (c := (cl,k)) (fun s s' hchain hs => hs.of_chain hchain) h
      (fun e s' hchain => h.of_chain hchain) (fun a ha hs => ?_) fun _ _ => delete_ends hsu h cl.detail
    exact maybeAcceptBlock_ends hsu hmo hs ((hfr.process cl).2 a ha) (hsh a ha)
  exact he.elim (fun _ _ h => h) fun _ _ h => h

/-- The view as it is meant: linked nodes of bounded number, and forks and lists for a
reorganisation that fit to it. `contains` leaves out the node before the genesis block. -/
structure BestChain (s : State T) : Prop where
  linked : s.view.IsChain fun i j => ∃ node, s.nodes i = some node ∧ node.parent = some j ∧
    node.height = s.nodeHeight j+1
  bounded : s.view.length ≤ blockNodeCacheLimit
  contains : ∀ i, s.contains i = true ↔ i ∈ s.view ∧ 0 ≤ s.nodeHeight i
  fork : ∀ h i, s.index h = some i → ∀ a ∈ s.ancestors i, s.contains a = true →
    ∃ fork ∈ s.ancestors i, s.findFork i = some fork ∧ s.contains fork = true ∧
      (∀ b ∈ s.ancestors i, s.contains b = true → s.nodeHeight b ≤ s.nodeHeight fork) ∧
      (s.getReorganizeNodes i).1 = s.view.filter (s.nodeHeight fork < s.nodeHeight ·) ∧
      (s.getReorganizeNodes i).2 = ((s.ancestors i).filter (s.nodeHeight fork < s.nodeHeight ·)).reverse ∧
      (s.getReorganizeNodes i).2.Pairwise fun m n => s.nodeHeight m < s.nodeHeight n

lemma State.Sound.bestChain (h : s.Sound su) : BestChain s where
  linked := by
    refine h.flat.chained.imp fun i j hij => ?_
    obtain ⟨no,hnode,hp⟩ := exists_of_up hij
    have hf := h.forest.graded.falls i j hij
    rw [nodeHeight_eq hnode] at hf
    exact ⟨no,hnode,hp,hf⟩
  bounded := h.flat.bounded
  contains := h.flat.contains_iff h.forest
  fork := by
    intro x i hi a ha hc
    obtain ⟨no,hnode,-⟩ := h.forest.index x i hi
    have hs : (s.nodes i).isSome = true := by rw [hnode]; rfl
    obtain ⟨fork,hme,hfk,hfc,hmx⟩ := h.flat.findFork_spec h.forest hs ha hc
    have hl := h.flat.getReorganizeNodes_eq h.forest hs hfk
    refine ⟨fork,hme,hfk,hfc,hmx,by rw [hl],by rw [hl],?_⟩
    rw [hl,pairwise_reverse,h.forest.ancestors_eq hs]
    exact (h.forest.graded.pairwise_of_chained (h.forest.graded.chained_lineage i)).filter _

/-- **The view stays a chain of the best nodes**, in each state of a run in which no node of
the view falls out of the index. -/
theorem run_bestChain (hsu : su.Binds) (h : s.Sound su) (hfr : Fresh k s) (calls : List (Call T))
    (hmo : ∀ call ∈ calls, call.moment.KeepsHeight) (hs : Along su (Shelters su) s (calls.zipIdx k)) (n : ℕ) :
    BestChain (run su s ((calls.take n).zipIdx k)) := by
  have hrun := run_rule (I := fun k s => s.Sound su ∧ Fresh k s)
    (fun k s call hc hI hP => ⟨sound_step hsu (hmo call hc) hI.1 hI.2 hP,(hI.2.process call).1⟩)
    ⟨h,hfr⟩ hs n
  exact hrun.1.bestChain

/-- A block of a peer, told from others by its time. -/
def peerCall (executes : Block → Bool) (height : ℤ) (parentHash : Bytes) (blockTime : ℤ) : Call Unit where
  broadcast := false
  detail := ⟨⟨0,parentHash,[],[],height,blockTime,0,[],0,none,[]⟩,[],[],[]⟩
  pid := .peer "a"
  addBlock := true
  sequence := 0
  moment := .calm fun _ _ block _ =>
    if executes block then .ok ⟨block,[],[],[]⟩ else .error (.other "")

section
variable (es : Block → Bool) (he : ℤ) (ph : Bytes) (bt : ℤ)

lemma execBlock_peerCall {ld : Unit} {psh : Bytes} {block : Block} {er : Bool}
    {de : BlockDetail} (h : (peerCall es he ph bt).moment.execBlock ld
      psh block er = .ok de) : de.block = block := by
  simp only [peerCall,Moment.calm] at h
  split_ifs at h
  rw [← Except.ok.inj h]

lemma keepsHeight_peerCall : (peerCall es he ph bt).moment.KeepsHeight :=
  fun _ _ _ _ _ h => congrArg Block.height (execBlock_peerCall _ _ _ _ h)

end

lemma binds_beforeForks : beforeForks.Binds := Setup.binds_of_ideal Crypto.framed_ideal rfl

/-- The first block of a chain, and the hash of it. -/
def rootCall : Call Unit := peerCall (fun _ => true) 0 zeroHash 0
def rootHash : Bytes := beforeForks.hash rootCall.detail.block

/-- A chain of two blocks, and another block on the first one. -/
def forkCalls : List (Call Unit) :=
  [rootCall,peerCall (fun _ => true) 1 rootHash 0,peerCall (fun _ => true) 1 rootHash 1]

lemma keepsHeight_forkCalls : ∀ c ∈ forkCalls, c.moment.KeepsHeight := by
  simp only [forkCalls,forall_mem_cons,not_mem_nil,false_implies,implies_true,and_true]
  exact ⟨keepsHeight_peerCall _ _ _ _,keepsHeight_peerCall _ _ _ _,keepsHeight_peerCall _ _ _ _⟩

instance (su : Setup T) (s : State T) (c : NumberedCall T) : Decidable (Shelters su s c) :=
  inferInstanceAs (Decidable (∀ a ∈ attempts su s c, a.1.Spares))

theorem run_bestChain_fork : BestChain (run beforeForks (.start ()) ((forkCalls.take 3).zipIdx 1)) :=
  run_bestChain binds_beforeForks (sound_start _ ()) (fresh_start ()) forkCalls keepsHeight_forkCalls
    (by decide +kernel) 3

/-! ### An index full of blocks that failed -/

lemma addNode_of_full {id f : ℕ} {q : List ℕ} (hq : s.indexQueue = f :: q)
    (hf : indexCacheLimit ≤ s.indexQueue.length) : s.addNode id = {s.dropParent f with
      indexQueue := q ++ [id]
      index := update (update s.index (s.nodeHash id) (some id)) (s.nodeHash f) none} := by
  rw [addNode,expireNode]
  rw [hq,cons_append]
  dsimp only
  rw [if_pos]
  · rfl
  · rw [hq,length_cons] at hf
    simp only [length_cons,length_append,length_nil]
    omega

/-- A block of a peer that fails on top of the tip stays in the index. -/
theorem step_peer_fails {na text : String} {t td : ℕ} {tip : BlockNode}
    (had : c.addBlock = true) (hc : c.moment.closed = false) (hp : c.pid = .peer na)
    (hfa : ∀ ld psh, c.moment.execBlock ld psh c.detail.block true =
      .error (.other text)) (he : s.blockExists (su.hash c.detail.block) = false) (ho : s.orphans = [])
    (hpa : s.index c.detail.block.parentHash = some t)
    (hpo : c.detail.block.height ≠ 0) (ht : s.tip = some t) (hnode : s.nodes t = some tip)
    (hha : tip.hash = c.detail.block.parentHash) (hheight : c.detail.block.height = tip.height+1)
    (htd : s.tdBelow c.detail.block = some td) (hf : s.nodes k = none)
    (hq : ∀ i ∈ s.indexQueue, (s.nodes i).isSome = true) :
    step su s (c,k) = s.accepted su (c.delivery k) t td := by
  have hne : t ≠ k := by
    rintro rfl
    cases hf.symm.trans hnode
  set s1 := s.accepted su (c.delivery k) t td with hs1
  have hn : s1.nodes k = some (newBlockNode su (c.delivery k) t) := accepted_node su hq hf t td
  obtain ⟨tip1,ht1,hha1⟩ : ∃ tip1, s1.tipNode = some tip1 ∧ tip1.hash = tip.hash := by
    obtain ⟨-,hh,hso⟩ := accepted_other (d := c.delivery k) s su t td hne
    rw [hnode] at hso
    obtain ⟨tip1,ht1⟩ := Option.isSome_iff_exists.mp hso
    refine ⟨tip1,?_,?_⟩
    · rw [State.tipNode,State.tip,hs1,(accepted_frame s su _ t td).1,← State.tip,ht]
      exact ht1
    · rw [State.nodeHash_eq ht1,State.nodeHash_eq hnode] at hh
      exact hh
  have hcn : (connectBlock su c.moment k c.detail).exec s1 = (.error (.exec (.other text)),s1) := by
    rw [exec_connectBlock su c.moment s1 hc ht1 hn (hha.symm.trans hha1.symm)]
    have hpe : decide ((newBlockNode su (c.delivery k) t).pid ≠ .self) = true := by
      rw [newBlockNode,Call.delivery,hp]
      rfl
    rw [hpe,hfa]
    dsimp only
    rw [State.failed,newBlockNode,Call.delivery,hp,if_neg (by simp)]
  have ha : (maybeAcceptBlock su c.moment (c.delivery k)).exec s =
      (.error (.exec (.other text)),s1) := by
    rw [exec_maybeAcceptBlock su c.moment s hpa hnode hheight htd]
    rcases connectBestChain_cases su c.moment s1 k c.detail with ⟨hno,-⟩ |
      ⟨tip',ht',⟨-,hex⟩ | ⟨hot,-⟩⟩
    · cases ht1.symm.trans hno
    · exact hex.trans (exec_bind_error hcn)
    · cases ht1.symm.trans ht'
      exact absurd (hha.symm.trans hha1.symm) hot
  rw [step,process_add had (by rw [hp]; simp) hc,
    processAddBlock_accept he (by rw [State.isKnownOrphan,ho]; rfl) ?_ ha]
  change prevHashExists s c.detail.block = true
  rw [prevHashExists,if_neg hpo,State.blockExists,State.haveBlock,hpa]
  rfl

/-- The blocks of a peer on top of the first block, none of which executes. -/
def floodCall (i : ℕ) : Call Unit := peerCall (fun _ => false) 1 rootHash i
def floodCalls (n : ℕ) : List (Call Unit) := rootCall :: (range n).map floodCall

def floodHash (i : ℕ) : Bytes := beforeForks.hash (floodCall i).detail.block

lemma floodHash_injective : Function.Injective floodHash := by
  intro i j h
  have hh := Crypto.framed_ideal.encodeHeader_injective (Crypto.framed_ideal.sha256_injective h)
  exact Int.ofNat_inj.mp (congrArg Header.blockTime hh)

lemma floodHash_ne_rootHash (i : ℕ) : floodHash i ≠ rootHash := by
  intro h
  exact one_ne_zero (α := ℤ) (binds_beforeForks.height _ _ h)

/-- The first block and `n` failed ones were there: the oldest nodes have left the index, but
not the first block yet. -/
structure Flooded (n : ℕ) (s : State Unit) : Prop where
  view : s.view = [1,0]
  root : s.nodes 1 = some (newBlockNode beforeForks (rootCall.delivery 1) 0)
  below : s.nodes 0 = some preGenBlockNode
  queue : s.indexQueue = range' (n+2-indexCacheLimit) (n+2-(n+2-indexCacheLimit))
  rootIndex : s.index rootHash = some 1
  rootTd : s.td rootHash = some 1
  unknown : ∀ i, n ≤ i → s.index (floodHash i) = none ∧ s.hashToHeight (floodHash i) = none
  queued : ∀ i, i < n+2 → (s.nodes i).isSome = true
  free : ∀ i, n+2 ≤ i → s.nodes i = none
  orphans : s.orphans = []

lemma step_root : let s := step beforeForks (.start ()) (rootCall,1)
    s.nodes = update (update (fun _ => none) 0 (some preGenBlockNode)) 1
      (some (newBlockNode beforeForks (rootCall.delivery 1) 0)) ∧
    s.index = update (update (fun _ => none) zeroHash (some 0)) rootHash (some 1) ∧
    s.hashToHeight = update (fun _ => none) rootHash (some 0) := ⟨rfl,rfl,rfl⟩

lemma flooded_root : Flooded 0 (step beforeForks (.start ()) (rootCall,1)) where
  view := rfl
  root := rfl
  below := rfl
  queue := rfl
  rootIndex := by rw [step_root.2.1,update_self]
  rootTd := by decide +kernel
  unknown := by
    intro i _
    have hz : floodHash i ≠ zeroHash := binds_beforeForks.ne_zeroHash _
    rw [step_root.2.1,step_root.2.2,update_of_ne (floodHash_ne_rootHash i),
      update_of_ne hz,update_of_ne (floodHash_ne_rootHash i)]
    exact ⟨rfl,rfl⟩
  queued := by
    intro i hi
    rw [step_root.1]
    interval_cases i <;> rfl
  free := by
    intro i hi
    rw [step_root.1,update_of_ne (by omega),update_of_ne (by omega)]
  orphans := rfl

variable {n j : ℕ} {d : Delivery}

lemma Flooded.step_eq {s : State Unit} (h : Flooded n s) :
    step beforeForks s (floodCall n,n+2) = s.accepted beforeForks ((floodCall n).delivery (n+2)) 1 1 := by
  refine @step_peer_fails Unit beforeForks s (n+2) (floodCall n) "a" "" 1 1 _ rfl rfl rfl (fun _ _ => rfl) ?_ h.orphans h.rootIndex
    (one_ne_zero (α := ℤ)) ?_ h.root rfl rfl ?_ (h.free _ le_rfl) ?_
  · rw [blockExists,haveBlock]
    rw [← floodHash,(h.unknown n le_rfl).1,(h.unknown n le_rfl).2]
    simp
  · rw [tip,h.view]
    rfl
  · exact h.rootTd
  · intro i hi
    rw [h.queue,mem_range'_1] at hi
    exact h.queued i (by omega)

/-- The node of the next failed block, and the state with it on the heap. -/
def floodNode (n : ℕ) : BlockNode := newBlockNode beforeForks ((floodCall n).delivery (n+2)) 1

def floodState (n : ℕ) (s : State Unit) : State Unit :=
  {s.storeBlock (floodHash n) (floodCall n).detail 2 with
    nodes := update s.nodes (n+2) (some (floodNode n))}

lemma nodeHash_floodState (n : ℕ) (s : State Unit) : (floodState n s).nodeHash (n+2) = floodHash n := by
  have hnode : (floodState n s).nodes (n+2) = some (floodNode n) := update_self ..
  rw [nodeHash_eq hnode]
  rfl

lemma Flooded.next {s s' : State Unit} (h : Flooded n s)
    (hs : s'.view = s.view ∧ s'.hashToHeight = s.hashToHeight ∧ s'.orphans = s.orphans ∧ s'.td = update s.td (floodHash n) (some 2))
    (hn : s'.nodes = update s.nodes (n+2) (some (floodNode n)))
    (hq : s'.indexQueue = range' (n+3-indexCacheLimit) (n+3-(n+3-indexCacheLimit)))
    (hix : ∀ x, x ≠ zeroHash → s'.index x = update s.index (floodHash n) (some (n+2)) x) :
    Flooded (n+1) s' := by
  obtain ⟨hv,hh,ho,ht⟩ := hs
  have hr : rootHash ≠ floodHash n := (floodHash_ne_rootHash n).symm
  have hold : ∀ i, i ≠ n+2 → s'.nodes i = s.nodes i := by
    intro i hi
    rw [hn,update_of_ne hi]
  refine ⟨hv.trans h.view,(hold 1 (by omega)).trans h.root,(hold 0 (by omega)).trans h.below,hq,
    ?_,?_,?_,?_,?_,ho.trans h.orphans⟩
  · rw [hix rootHash (binds_beforeForks.ne_zeroHash _),update_of_ne hr]
    exact h.rootIndex
  · rw [ht,update_of_ne hr]
    exact h.rootTd
  · intro i hi
    have hne : floodHash i ≠ floodHash n := by
      intro he
      have := floodHash_injective he
      omega
    rw [hix (floodHash i) (binds_beforeForks.ne_zeroHash _),update_of_ne hne,hh]
    exact h.unknown i (by omega)
  · intro i hi
    by_cases he : i = n+2
    · rw [hn,he,update_self]
      rfl
    · rw [hold i he]
      exact h.queued i (by omega)
  · intro i hi
    rw [hold i (by omega)]
    exact h.free i (by omega)

/-- One more failed block, which takes the place of the oldest node if the index is full. -/
theorem Flooded.step {s : State Unit} (h : Flooded n s) (hn : n+2 ≤ indexCacheLimit) :
    Flooded (n+1) (step beforeForks s (floodCall n,n+2)) := by
  have hst : BlockChain.step beforeForks s (floodCall n,n+2) = (floodState n s).addNode (n+2) := h.step_eq
  have he : n+2-indexCacheLimit = 0 := by omega
  have hq : (floodState n s).indexQueue = range' 0 (n+2) := by
    have hq := h.queue
    rw [he] at hq
    exact hq
  rw [hst]
  rcases hn.lt_or_eq with hr | hf
  · have hl : (floodState n s).indexQueue.length < indexCacheLimit := by
      rw [hq,length_range']
      exact hr
    rw [addNode_of_room hl,nodeHash_floodState]
    refine h.next ⟨rfl,rfl,rfl,rfl⟩ rfl ?_ fun x _ => rfl
    have he' : n+3-indexCacheLimit = 0 := by omega
    have hs : range' 0 (n+3) = range' 0 (n+2) ++ [0+(n+2)] := range'_1_concat
    rw [hq,he',Nat.sub_zero,hs,Nat.zero_add]
  · have hc : (floodState n s).indexQueue = 0 :: range' 1 (n+1) := by rw [hq,range'_succ]
    have hl : indexCacheLimit ≤ (floodState n s).indexQueue.length := by
      rw [hq,length_range']
      exact hf.ge
    have hnode : (floodState n s).nodes 0 = some preGenBlockNode := by
      change update s.nodes (n+2) (some (floodNode n)) 0 = _
      rw [update_of_ne (by omega)]
      exact h.below
    rw [addNode_of_full hc hl,nodeHash_floodState,nodeHash_eq hnode]
    refine h.next ⟨rfl,rfl,rfl,rfl⟩ ?_ ?_ fun x hx => update_of_ne hx ..
    · -- the node before the genesis block has no parent to lose
      have hk : some preGenBlockNode = (floodState n s).nodes 0 := hnode.symm
      rw [dropParent,hnode]
      change update (floodState n s).nodes 0 (some preGenBlockNode) = (floodState n s).nodes
      rw [hk,update_eq_self]
    · have ho : n+3-indexCacheLimit = 1 := by omega
      have hs : range' 1 (n+2) = range' 1 (n+1) ++ [1+(n+1)] := range'_1_concat
      rw [ho,show n+3-1 = n+2 from rfl,hs,Nat.add_comm 1 (n+1)]

lemma Flooded.root_dropped {s : State Unit} (h : Flooded n s) (hn : n+1 = indexCacheLimit) :
    (BlockChain.step beforeForks s (floodCall n,n+2)).view = [1,0] ∧
      (BlockChain.step beforeForks s (floodCall n,n+2)).up 1 = none := by
  have hs : BlockChain.step beforeForks s (floodCall n,n+2) = (floodState n s).addNode (n+2) := h.step_eq
  have ho : n+2-indexCacheLimit = 1 := by omega
  have hq : (floodState n s).indexQueue = range' 1 (n+1) := by
    have hq := h.queue
    rw [ho] at hq
    exact hq
  have hc : (floodState n s).indexQueue = 1 :: range' 2 n := by rw [hq,range'_succ]
  have hl : indexCacheLimit ≤ (floodState n s).indexQueue.length := by
    rw [hq,length_range']
    exact hn.ge
  rw [hs,addNode_of_full hc hl]
  refine ⟨h.view,?_⟩
  rw [up,dropParent]
  dsimp only
  rw [update_self]
  cases (floodState n s).nodes 1 <;> rfl

lemma run_floodCalls_succ (n : ℕ) : run beforeForks (.start ()) ((floodCalls (n+1)).zipIdx 1) =
    step beforeForks (run beforeForks (.start ()) ((floodCalls n).zipIdx 1)) (floodCall n,n+2) := by
  rw [floodCalls,range_succ,map_append,← cons_append,← floodCalls,zipIdx_append,run,foldl_append,← run]
  have hl : 1+(floodCalls n).length = n+2 := by
    rw [floodCalls,length_cons,length_map,length_range]
    omega
  rw [hl]
  rfl

lemma flooded_run (hn : n+1 ≤ indexCacheLimit) :
    Flooded n (run beforeForks (.start ()) ((floodCalls n).zipIdx 1)) := by
  induction n with
  | zero => exact flooded_root
  | succ n ih =>
    rw [run_floodCalls_succ]
    exact (ih (by omega)).step hn

/-- 102400 blocks on top of the first one, none of which executes, make the index drop it:
the view goes on to name it, but its pointer to the node below is gone. -/
theorem run_cuts_view : ¬BestChain (run beforeForks (.start ()) ((floodCalls 102400).zipIdx 1)) := by
  intro h
  rw [run_floodCalls_succ 102399] at h
  obtain ⟨hv,hu⟩ := (flooded_run (n := 102399) le_rfl).root_dropped rfl
  have hl := h.linked
  rw [hv] at hl
  obtain ⟨node,hnode,hp,-⟩ := (isChain_cons_cons.mp hl).1
  rw [up_eq hnode,hp] at hu
  cases hu

lemma Along.get
    (h : Along su P s (cs.zipIdx k)) (hn : cs[n]? = some c) :
    P (run su s ((cs.take n).zipIdx k)) (c,k+n) := by
  induction cs generalizing k s n with
  | nil => simp at hn
  | cons first cs ih =>
    rw [zipIdx_cons] at h
    cases n with
    | zero =>
      cases hn
      exact h.1
    | succ n =>
      have hnext := ih h.2 (by simpa using hn)
      rw [take_succ_cons,zipIdx_cons,run,foldl_cons,← run]
      have hk : k+(n+1) = k+1+n := by omega
      rw [hk]
      exact hnext

end Dpos.BlockChain
