import Dpos.BlockChainWork

/-! The tip over runs of `ProcessBlock`: calls whose reorganisations go through do not make it
lighter, and leave it alone when they fail. -/
namespace Dpos.BlockChain
open State

variable {T : Type} {su : Setup T} {mo : Moment T} {s s' : State T} {diff : Bytes → ℤ} {k : ℕ}

structure Upright (su : Setup T) (diff : Bytes → ℤ) (s : State T) : Prop where
  sound : s.Sound su
  weighed : Weighed su diff s
  linked : Linked su s

lemma Upright.of_chain (hchain : s'.chain = s.chain) (u : Upright su diff s) :
    Upright su diff s' := by
  refine ⟨u.sound.of_chain hchain,?_,u.linked.of_nodes (nodes_of_chain hchain)⟩
  rw [eq_of_chain hchain]
  exact u.weighed.congr rfl rfl

lemma NotLighter.of_chain (hchain : s'.chain = s.chain) : NotLighter s s' := by
  rw [eq_of_chain hchain]
  exact .of_tip rfl (fun _ _ => rfl) fun _ _ h => h

/-- A block beside the tip that outweighs it has a branch that can take the place of the
chain. -/
def Bears (su : Setup T) (mo : Moment T) (s : State T) (d : Delivery) : Prop :=
  ∀ prev ∈ s.index d.detail.block.parentHash, ∀ td ∈ s.tdBelow d.detail.block,
    ∀ tip ∈ (s.accepted su d prev td).tipNode, ∀ tiptd ∈ (s.accepted su d prev td).td tip.hash,
      d.detail.block.parentHash ≠ tip.hash →
      Outweighs su mo tip (newBlockNode su d prev) d.detail.block tiptd
        (su.calcWork d.detail.block.difficulty+td) →
      Carries su mo (s.accepted su d prev td) d.id

section
variable {d : Delivery} {prev td : ℕ} {prevNode : BlockNode}

/-- The total difficulty that `connectBestChain` gives a block beside the tip is the one it is
stored with. -/
theorem parenttd_eq (hsu : su.Links) (u : Upright su diff s)
    (hpr : s.index d.detail.block.parentHash = some prev) (hpn : s.nodes prev = some prevNode)
    (hheight : d.detail.block.height = prevNode.height+1) (hb : s.tdBelow d.detail.block = some td)
    (hr : Rated su diff d.detail.block) (h1 : (s.accepted su d prev td).Sound su) {p : ℕ}
    (hp : (s.accepted su d prev td).td d.detail.block.parentHash = some p) : p = td := by
  obtain ⟨w1,hg⟩ := u.weighed.accepted hsu u.sound hb hr prev
  rw [tdBelow] at hb
  split_ifs at hb with hze
  · -- before the genesis block there is none
    exfalso
    obtain ⟨n,hn,hh⟩ := u.sound.forest.index _ prev hpr
    cases hpn.symm.trans hn
    rcases u.sound.forest.formed prev prevNode hpn with ⟨hz,-⟩ | ⟨hpo,-⟩
    · rw [← hh,hz,w1.td_zeroHash hsu.toBinds h1.forest] at hp
      cases hp
    · omega
  · exact Option.some.inj (hp.symm.trans (hg _ _ hb))

/-- The block gets through: on top of the tip it executes, beside it there are a fork and the blocks
of both branches. -/
def Passes (su : Setup T) (mo : Moment T) (s : State T) (d : Delivery) : Prop :=
  ∃ prev ∈ s.index d.detail.block.parentHash, ∃ prevNode ∈ s.nodes prev,
    d.detail.block.height = prevNode.height+1 ∧ ∃ td ∈ s.tdBelow d.detail.block,
    ∃ tip ∈ (s.accepted su d prev td).tipNode,
      if d.detail.block.parentHash = tip.hash then
        mo.closed = false ∧ redoes su mo s.localDB tip.statehash [(newBlockNode su d prev,d.detail)] = true
      else
        (s.accepted su d prev td).td tip.hash ≠ none ∧
        (s.accepted su d prev td).td d.detail.block.parentHash ≠ none ∧
        (s.accepted su d prev td).findFork d.id ≠ none ∧
        ∀ i ∈ ((s.accepted su d prev td).getReorganizeNodes d.id).1 ++
            ((s.accepted su d prev td).getReorganizeNodes d.id).2,
          (s.accepted su d prev td).details ((s.accepted su d prev td).nodeHash i) ≠ none

variable (hsu : su.Links) (hmo : mo.Keeps su) (hra : mo.Rates su diff)
  (u : Upright su diff s) (hfr : s.nodes d.id = none) (hs : s.Spares)
  (hr : Rated su diff d.detail.block) (hbe : Bears su mo s d)
include hsu hmo hra u hfr hs hr hbe

/-- **One block**: the tip does not get lighter, and stays if the block fails. -/
theorem accept_weighs : Ends (maybeAcceptBlock su mo d) s (fun _ s' => Upright su diff s' ∧ NotLighter s s')
      (fun _ s' => Upright su diff s' ∧ NotLighter s s' ∧ s'.tip = s.tip) := by
  have hso := maybeAcceptBlock_ends hsu.toBinds hmo.height u.sound hfr hs
  suffices hw : Ends (maybeAcceptBlock su mo d) s
      (fun _ s' => Weighed su diff s' ∧ Linked su s' ∧ NotLighter s s')
      (fun _ s' => Weighed su diff s' ∧ Linked su s' ∧ NotLighter s s' ∧ s'.tip = s.tip) by
    exact (hso.and hw).mono (fun _ _ h => ⟨⟨h.1,h.2.1,h.2.2.1⟩,h.2.2.2⟩)
      fun _ _ h => ⟨⟨h.1,h.2.1,h.2.2.1⟩,h.2.2.2⟩
  rcases maybeAcceptBlock_cases su mo s d with ⟨e,he⟩ |
    ⟨prev,prevNode,td,hpr,hpn,hheight,hb,he⟩
  · exact .of_error he ⟨u.weighed,u.linked,.of_tip rfl (fun _ _ => rfl) fun _ _ h => h,rfl⟩
  refine .of_exec he ?_
  obtain ⟨w1,hg⟩ := u.weighed.accepted hsu u.sound hb hr prev
  have l1 := u.linked.accepted hsu u.sound hfr hpr td
  have h1 := sound_accepted u.sound hfr hpn hheight hs td
  have hnode := accepted_node su u.sound.forest.queue hfr prev td
  have htp : (s.accepted su d prev td).tip = s.tip := congrArg List.head? (accepted_frame s su d prev td).1
  have hold : ∀ t, s.tip = some t → t ≠ d.id :=
    fun t ht => ne_of_fresh hfr (u.sound.flat.held t (List.mem_of_mem_head? ht))
  have hf1 : NotLighter s (s.accepted su d prev td) :=
    .of_tip htp (fun t ht => (accepted_other s su prev td (hold t ht)).2.1) hg
  rcases connectBestChain_cases su mo (s.accepted su d prev td) d.id d.detail with
    ⟨hn,he'⟩ | ⟨tip,hti,⟨hp,he'⟩ | ⟨hp,he'⟩⟩
  · exact .of_error he' ⟨w1,l1,hf1,htp⟩
  · obtain ⟨t,ht,htn⟩ := Option.bind_eq_some_iff.mp hti
    have hha : d.detail.block.parentHash = s.nodeHash t := by
      rw [hp,← nodeHash_eq htn]
      exact (accepted_other s su prev td (hold t (htp.symm.trans ht))).2.1
    have hc := connectBlock_weighs hsu hmo hra h1 w1 l1 ht hnode rfl hr
      (fun _ => accepted_above hsu.toBinds u.sound hfr hpr hpn hheight td (htp.symm.trans ht) hha)
      (accepted_no_child u.sound hfr (by rw [hpn]; rfl) td)
    refine .of_exec he' (.bind (hc.mono (fun _ _ h => h) fun _ _ h =>
      ⟨h.1,h.2.1,hf1.trans h.2.2.1,h.2.2.2.trans htp⟩) fun _ _ h => .of_ok rfl ?_)
    exact ⟨h.1,h.2.1,hf1.trans h.2.2⟩
  · refine .of_exec he' ?_
    rcases connectFork_cases su mo (s.accepted su d prev td) d.id tip d.detail with
      ⟨e,hfo,-⟩ | ⟨hfo,-⟩ | ⟨ti,p,n,htip,hpa,hnode',ho,hfo⟩
    · exact .of_error hfo ⟨w1,l1,hf1,htp⟩
    · exact .of_ok hfo ⟨w1,l1,hf1⟩
    cases hnode.symm.trans hnode'
    obtain rfl := parenttd_eq hsu u hpr hpn hheight hb hr h1 hpa
    have hcr := hbe prev hpr p hb tip hti ti htip hp ho
    refine .of_exec hfo ?_
    rcases reorganizeChain_carried hsu hmo hra h1 w1 l1 (by rw [hnode]; rfl) hcr with
      ⟨e,hre,-⟩ | ⟨s2,hre,w2,l2,htd2,htp2,hha2⟩
    · exact .of_error (Proc.exec_bind_error hre) ⟨w1,l1,hf1,htp⟩
    · refine .of_ok (Proc.exec_bind_ok hre) ⟨w2,l2,hf1.trans fun v hv => ?_⟩
      -- the block has outweighed the tip
      obtain ⟨t,ht,htn⟩ := Option.bind_eq_some_iff.mp hti
      rw [tipTd,ht,Option.bind_some,nodeHash_eq htn,htip] at hv
      cases hv
      refine ⟨su.calcWork d.detail.block.difficulty+p,?_,?_⟩
      · rw [tipTd,htp2,Option.bind_some,hha2,htd2,nodeHash_eq hnode,
          (accepted_tables s su d prev p).2]
        exact Function.update_self ..
      · rw [Outweighs] at ho
        by_contra hlt
        exact ho ⟨(not_le.mp hlt).le,fun hcm => (not_le.mp hlt).ne hcm.2.1⟩

/-- Such a block does not fail. -/
theorem accept_passes (hp : Passes su mo s d) :
    Ends (maybeAcceptBlock su mo d) s (fun _ _ => True) (fun _ _ => False) := by
  obtain ⟨prev,hpr,prevNode,hpn,hheight,td,hb,tip,ht,hp⟩ := hp
  obtain ⟨w1,hg⟩ := u.weighed.accepted hsu u.sound hb hr prev
  have l1 := u.linked.accepted hsu u.sound hfr hpr td
  have h1 := sound_accepted u.sound hfr hpn hheight hs td
  have hnode := accepted_node su u.sound.forest.queue hfr prev td
  refine .of_exec (exec_maybeAcceptBlock su mo s hpr hpn hheight hb) ?_
  rcases connectBestChain_cases su mo (s.accepted su d prev td) d.id d.detail with
    ⟨hn,-⟩ | ⟨tip',ht',⟨hpar,he⟩ | ⟨hpar,he⟩⟩
  · cases ht.symm.trans hn
  · cases ht.symm.trans ht'
    rw [if_pos hpar] at hp
    obtain ⟨b,ld,hbl,ha,-,-⟩ := redoes_cons hp.2
    have hc := exec_connectBlock su mo (s.accepted su d prev td) hp.1 ht hnode hpar
    have hb1 : (s.accepted su d prev td).tdBelow d.detail.block = some td := by
      rw [tdBelow] at hb ⊢
      split_ifs at hb ⊢
      · exact hb
      · exact hg _ _ hb
    rw [(accepted_frame s su d prev td).2.2.1,hbl] at hc
    dsimp only at hc
    rw [ha] at hc
    rw [hb1] at hc
    exact .of_ok (he.trans (Proc.exec_bind_ok hc)) trivial
  · cases ht.symm.trans ht'
    rw [if_neg hpar] at hp
    obtain ⟨htp,hpt,hf,hst⟩ := hp
    refine .of_exec he ?_
    rcases connectFork_cases su mo (s.accepted su d prev td) d.id tip d.detail with
      ⟨e,-,⟨-,hn⟩ | ⟨-,hn⟩ | ⟨-,hn | hn⟩⟩ | ⟨he',-⟩ |
      ⟨tiptd,parenttd,node,htp,hpa,hnode',ho,he'⟩
    · exact absurd hn htp
    · exact absurd hn hpt
    · cases hnode.symm.trans hn
    · exact absurd hn hf
    · exact .of_ok he' trivial
    cases hnode.symm.trans hnode'
    obtain rfl := parenttd_eq hsu u hpr hpn hheight hb hr h1 hpa
    have hcr := hbe prev hpr parenttd hb tip ht tiptd htp hpar ho
    rcases reorganizeChain_carried hsu hmo hra h1 w1 l1 (by rw [hnode]; rfl) hcr with
      ⟨e,-,i,hi,hn⟩ | ⟨s2,hre,-⟩
    · exact absurd hn (hst i hi)
    · exact .of_ok (he'.trans (Proc.exec_bind_ok hre)) trivial

end

/-- A call of a run: no tip is deleted, what the blocks of the call need is there, and once the
tip has changed the further blocks get through. -/
def Steady (su : Setup T) (diff : Bytes → ℤ) (s : State T) (c : NumberedCall T) : Prop :=
  (c.1.addBlock = false → su.isParaChain = false) ∧
    ∀ a ∈ attempts su s c, a.1.Spares ∧ Rated su diff a.2.detail.block ∧ Bears su c.1.moment a.1 a.2 ∧
      (a.1.tip = s.tip ∨ Passes su c.1.moment a.1 a.2)

/-- **A call** does not make the tip lighter, and leaves it if it fails. -/
theorem process_weighs (hsu : su.Links) {ca : Call T} (hmo : ca.moment.Keeps su)
    (hra : ca.moment.Rates su diff) (u : Upright su diff s) (hfr : Fresh k s)
    (hst : Steady su diff s (ca,k)) : Ends (processBlock su ca.moment (ca.delivery k) ca.addBlock) s
      (fun _ s' => Upright su diff s' ∧ NotLighter s s')
      (fun _ s' => (Upright su diff s' ∧ NotLighter s s') ∧ s'.tip = s.tip) := by
  have hse : NotLighter s s := .of_tip rfl (fun _ _ => rfl) fun _ _ h => h
  refine process_rule (c := (ca,k)) (I := fun s' => Upright su diff s' ∧ NotLighter s s')
    (fun s1 s2 hchain hI => ⟨hI.1.of_chain hchain,hI.2.trans (.of_chain hchain)⟩) ⟨u,hse⟩ ?_ ?_ ?_
  · intro e s' hchain
    exact ⟨⟨u.of_chain hchain,.of_chain hchain⟩,by rw [eq_of_chain hchain]; rfl⟩
  · rintro a ha ⟨ua,hl⟩
    obtain ⟨hs,hr,hbe,ht⟩ := hst.2 a ha
    have hf := (hfr.process ca).2 a ha
    have hw := accept_weighs hsu hmo hra ua hf hs hr hbe
    rcases ht with ht | hps
    · exact hw.mono (fun _ _ h => ⟨h.1,hl.trans h.2⟩)
        fun _ _ h => ⟨⟨h.1,hl.trans h.2.1⟩,h.2.2.trans ht⟩
    · have ho := accept_passes hsu hmo hra ua hf hs hr hbe hps
      exact (hw.and ho).mono (fun _ _ h => ⟨h.1.1,hl.trans h.1.2⟩) fun _ _ h => h.2.elim
  · intro had hp
    rw [hst.1 had] at hp
    cases hp

/-- **The tip never gets lighter, and a call that fails leaves it as it was**, for each call of
a run in which all are steady. -/
theorem run_weighs (hsu : su.Links) (u : Upright su diff s) (hfr : Fresh k s) (calls : List (Call T))
    (hmo : ∀ call ∈ calls, call.moment.Keeps su ∧ call.moment.Rates su diff)
    (hst : Along su (Steady su diff) s (calls.zipIdx k)) (n : ℕ) (call : Call T) (hc : calls[n]? = some call) :
    NotLighter (run su s ((calls.take n).zipIdx k)) (step su (run su s ((calls.take n).zipIdx k)) (call,k+n)) ∧
    ∀ e, (process su (run su s ((calls.take n).zipIdx k)) (call,k+n)).1 = .error e →
      (step su (run su s ((calls.take n).zipIdx k)) (call,k+n)).tip =
        (run su s ((calls.take n).zipIdx k)).tip := by
  have hrun := run_rule (I := fun k s => Upright su diff s ∧ Fresh k s)
    (fun k s call hc hI hP => ⟨(process_weighs hsu (hmo call hc).1 (hmo call hc).2 hI.1 hI.2 hP).elim
      (fun _ _ h => h.1) (fun _ _ h => h.1.1),(hI.2.process call).1⟩) ⟨u,hfr⟩ hst n
  have hl : n < calls.length := (List.getElem?_eq_some_iff.mp hc).1
  rw [min_eq_left hl.le] at hrun
  obtain ⟨hk,hra⟩ := hmo call (List.mem_of_getElem? hc)
  have hen := process_weighs hsu hk hra hrun.1 hrun.2 (hst.get hc)
  refine ⟨hen.elim (fun _ _ h => h.2) fun _ _ h => h.1.2,fun e he => ?_⟩
  rw [Ends] at hen
  rw [process] at he
  rw [step,process]
  rcases hex : (processBlock su call.moment (call.delivery (k+n)) call.addBlock).exec
      (run su s ((calls.take n).zipIdx k)) with ⟨e' | r,s'⟩
  · rw [hex] at hen
    exact hen.2
  · rw [hex] at he
    cases he

lemma upright_start (su : Setup T) (diff : Bytes → ℤ) (ld : T) : Upright su diff (start ld) where
  sound := sound_start su ld
  weighed := by
    refine ⟨?_,?_,?_⟩
    · intro h de hd
      cases hd
    · intro h t ht
      cases ht
    · intro h de hd
      cases hd
  linked := by
    intro i p hp
    obtain ⟨n,hnode,hpa⟩ := exists_of_up hp
    simp only [start,Function.update_apply] at hnode
    split_ifs at hnode
    rw [← Option.some.inj hnode] at hpa
    cases hpa

instance (su : Setup T) (mo : Moment T) (tip node : BlockNode) (block : Block) (tiptd blocktd : ℕ) :
    Decidable (Outweighs su mo tip node block tiptd blocktd) :=
  inferInstanceAs (Decidable (¬(_ ∧ ¬(_ ∧ _ ∧ _ ∧ _))))

instance (su : Setup T) (mo : Moment T) (s : State T) (id : ℕ) : Decidable (Carries su mo s id) :=
  inferInstanceAs (Decidable (_ ∧ ∃ fork ∈ s.findFork id, _ = true))

instance (su : Setup T) (mo : Moment T) (s : State T) (d : Delivery) : Decidable (Bears su mo s d) :=
  inferInstanceAs (Decidable (∀ prev ∈ s.index d.detail.block.parentHash, ∀ td ∈ s.tdBelow d.detail.block,
    ∀ tip ∈ (s.accepted su d prev td).tipNode, ∀ tiptd ∈ (s.accepted su d prev td).td tip.hash,
      _ → _ → Carries su mo (s.accepted su d prev td) d.id))

instance (su : Setup T) (mo : Moment T) (s : State T) (d : Delivery) : Decidable (Passes su mo s d) := by
  unfold Passes
  exact inferInstance

instance (su : Setup T) (diff : Bytes → ℤ) (block : Block) : Decidable (Rated su diff block) :=
  inferInstanceAs (Decidable (_ = _))

instance (su : Setup T) (diff : Bytes → ℤ) (s : State T) (c : NumberedCall T) :
    Decidable (Steady su diff s c) :=
  inferInstanceAs (Decidable ((_ → _) ∧ ∀ a ∈ attempts su s c, a.1.Spares ∧
    Rated su diff a.2.detail.block ∧ Bears su c.1.moment a.1 a.2 ∧
      (a.1.tip = s.tip ∨ Passes su c.1.moment a.1 a.2)))

lemma links_beforeForks : beforeForks.Links := Setup.links_of_ideal Crypto.framed_ideal rfl

def branchHash : Bytes := beforeForks.hash (peerCall (fun _ => true) 1 rootHash 1).detail.block
def branchCalls : List (Call Unit) := forkCalls ++ [peerCall (fun _ => true) 2 branchHash 0]

variable (diff : Bytes → ℤ) (executes : Block → Bool) (height : ℤ) (parentHash : Bytes) (blockTime : ℤ)

lemma keeps_peerCall : (peerCall executes height parentHash blockTime).moment.Keeps beforeForks where
  height := keepsHeight_peerCall executes height parentHash blockTime
  parentHash := fun _ _ _ _ _ h => congrArg Block.parentHash (execBlock_peerCall _ _ _ _ h)
  difficulty := fun _ _ _ _ _ h => congrArg Block.difficulty (execBlock_peerCall _ _ _ _ h)
  hash := fun _ _ _ _ h => congrArg beforeForks.hash (execBlock_peerCall _ _ _ _ h)

lemma rates_peerCall : (peerCall executes height parentHash blockTime).moment.Rates beforeForks diff := by
  intro ld psh b er de h hr
  rw [execBlock_peerCall _ _ _ _ h]
  exact hr

lemma keeps_branchCalls : ∀ c ∈ branchCalls, c.moment.Keeps beforeForks ∧ c.moment.Rates beforeForks diff := by
  intro c hc
  simp only [branchCalls,forkCalls,rootCall,List.cons_append,List.nil_append,List.mem_cons,List.not_mem_nil,
    or_false] at hc
  rcases hc with rfl | rfl | rfl | rfl <;>
    exact ⟨keeps_peerCall _ _ _ _,rates_peerCall _ _ _ _ _⟩

/-- The heavier branch takes over. -/
theorem run_weighs_branch : NotLighter (run beforeForks (.start ()) ((branchCalls.take 3).zipIdx 1))
      (step beforeForks (run beforeForks (.start ()) ((branchCalls.take 3).zipIdx 1))
        (peerCall (fun _ => true) 2 branchHash 0,1+3)) :=
  (run_weighs links_beforeForks (upright_start beforeForks (fun _ => 0) ()) (fresh_start ())
    branchCalls (keeps_branchCalls _) (by decide +kernel) 3 _ rfl).1

/-- The first block of the heavier branch does not execute: the call fails, the chain has been
taken back to the fork and is lighter than before. -/
theorem run_loses_tip : let s := run beforeForks (.start ()) (forkCalls.zipIdx 1)
    let c : NumberedCall Unit := (peerCall (fun block => block.blockTime ≠ 1) 2 branchHash 0,4)
    (process beforeForks s c).1 = .error (.exec (.other "")) ∧
      s.tip = some 2 ∧ (step beforeForks s c).tip = some 1 ∧
      s.tipTd = some 2 ∧ (step beforeForks s c).tipTd = some 1 := by
  decide +kernel

end Dpos.BlockChain
