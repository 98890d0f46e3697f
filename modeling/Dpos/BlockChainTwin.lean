import Dpos.BlockChain
import Mathlib.Order.CompletePartialOrder

/-! Two chains that differ only in what is left behind by a block taken out of the
index again: a node nothing refers to, and table entries under a hash that neither
the index nor the main chain knows. No call of `ProcessBlock` tells them apart. -/
namespace Dpos.BlockChain

open List Function Keeps State Function

variable {h : Bytes} {k : ℕ} {w : World}

variable {T : Type}

/-- The chain over another heap and other block tables. -/
def State.over (s : State T) (nodes : ℕ → Option BlockNode) (details : Bytes → Option BlockDetail)
    (td : Bytes → Option ℕ) : State T :=
  {s with nodes := nodes, details := details, td := td}

/-- How far two chains agree: whether also on the tables under the hash in question,
and on which nodes. -/
abbrev World := Prop × Set ℕ

/-- The tables agree under `x`. -/
def Settled (h : Bytes) (w : World) (x : Bytes) : Prop := x = h → w.1

structure LiveNode (h : Bytes) (w : World) (node : BlockNode) : Prop where
  parent : ∀ p, node.parent = some p → p ∈ w.2
  settled : Settled h w node.hash

structure TwinData (h : Bytes) (k : ℕ) (w : World) (s : State T) (nodes : ℕ → Option BlockNode)
    (details : Bytes → Option BlockDetail) (td : Bytes → Option ℕ) : Prop where
  nodes_eq : ∀ id ∈ w.2, nodes id = s.nodes id
  index : ∀ x id, s.index x = some id → id ∈ w.2
  queue : ∀ id ∈ s.indexQueue, id ∈ w.2
  view : ∀ id ∈ s.view, id ∈ w.2
  viewNodes : ∀ x id, s.viewNodes x = some id → id ∈ w.2
  parent : ∀ id ∈ w.2, ∀ node, s.nodes id = some node → ∀ p, node.parent = some p → p ∈ w.2
  store : ∀ x, Settled h w x → details x = s.details x ∧ td x = s.td x
  unknown : ¬w.1 → s.index h = none ∧ s.hashToHeight h = none ∧
    ∀ id ∈ w.2, ∀ node, s.nodes id = some node → node.hash ≠ h
  below : ∀ id ∈ w.2, id < k
  orphans : ∀ o ∈ s.orphans, o.id < k
  prevOrphans : ∀ o ∈ s.prevOrphans, o.id < k

def Twin (h : Bytes) (k : ℕ) (w : World) (s s' : State T) : Prop :=
  ∃ nodes details td, s' = s.over nodes details td ∧ TwinData h k w s nodes details td

lemma Settled.mono {h x : Bytes} {w w' : World} (hs : Settled h w x) (hw : w ≤ w') :
    Settled h w' x := fun hx => hw.1 (hs hx)

variable {node : BlockNode} {id : ℕ}

lemma LiveNode.mono {h : Bytes} {w w' : World} (hn : LiveNode h w node) (hw : w ≤ w') : LiveNode h w' node :=
  ⟨fun p hp => hw.2 (hn.parent p hp),hn.settled.mono hw⟩

lemma update_none {α β : Type} [DecidableEq α] {f : α → Option β} {x y : α} (h : f y = none) : update f x none y = none := by
  rw [update_apply,h,ite_self]

namespace TwinData
variable {s : State T} {nodes : ℕ → Option BlockNode}
  {ds : Bytes → Option BlockDetail} {td : Bytes → Option ℕ}

section
variable (t : TwinData h k w s nodes ds td)
include t

lemma liveNode (hid : id ∈ w.2) (hnode : s.nodes id = some node) : LiveNode h w node := by
  refine ⟨t.parent id hid node hnode,?_⟩
  intro hh
  by_contra hw
  exact (t.unknown hw).2.2 id hid node hnode hh

lemma settled_of_index {x : Bytes} (hx : s.index x = some id) : Settled h w x := by
  rintro rfl
  by_contra hw
  rw [(t.unknown hw).1] at hx
  cases hx

lemma nodeHash_over (hid : id ∈ w.2) : (s.over nodes ds td).nodeHash id = s.nodeHash id :=
  congrArg (·.elim [] (·.hash)) (t.nodes_eq id hid)

lemma nodeHeight_over (hid : id ∈ w.2) : (s.over nodes ds td).nodeHeight id = s.nodeHeight id :=
  congrArg (·.elim (-1) (·.height)) (t.nodes_eq id hid)

lemma tip_mem (hid : s.tip = some id) : id ∈ w.2 := t.view id (mem_of_mem_head? hid)

lemma viewHeight_over : (s.over nodes ds td).viewHeight = s.viewHeight := by
  have ht : (s.over nodes ds td).tip = s.tip := rfl
  unfold viewHeight
  rw [ht]
  cases hid : s.tip with
  | none => rfl
  | some id => exact t.nodeHeight_over (t.tip_mem hid)

lemma contains_over (hid : id ∈ w.2) : (s.over nodes ds td).contains id = s.contains id := by
  unfold State.contains State.nodeByHeight
  rw [t.viewHeight_over,t.nodeHeight_over hid]
  rfl

lemma path_over (fu : ℕ) (hid : id ∈ w.2) :
    (s.over nodes ds td).path fu id = s.path fu id ∧ ∀ n ∈ s.path fu id, n ∈ w.2 := by
  induction fu generalizing id with
  | zero => simp [path]
  | succ fu ih =>
    have hnode : (s.over nodes ds td).nodes id = s.nodes id := t.nodes_eq id hid
    unfold path
    rw [hnode]
    cases hs : s.nodes id with
    | none => simp
    | some node =>
      cases hp : node.parent with
      | none => simp [hp,hid]
      | some p =>
        obtain ⟨he,hm⟩ := ih (t.parent id hid node hs p hp)
        simp only [hp,Option.elim_some,he,mem_cons,forall_eq_or_imp,true_and]
        exact ⟨hid,hm⟩

lemma ancestors_over (hid : id ∈ w.2) :
    (s.over nodes ds td).ancestors id = s.ancestors id ∧ ∀ n ∈ s.ancestors id, n ∈ w.2 := by
  unfold ancestors
  rw [t.nodeHeight_over hid]
  exact t.path_over _ hid

lemma ancestor_over (hid : id ∈ w.2) (height : ℤ) :
    (s.over nodes ds td).ancestor id height = s.ancestor id height ∧
      ∀ n, s.ancestor id height = some n → n ∈ w.2 := by
  obtain ⟨he,hm⟩ := t.ancestors_over hid
  unfold ancestor
  rw [t.nodeHeight_over hid,he]
  split_ifs with hh
  · simp
  · refine ⟨?_,fun n hn => hm n (mem_of_find?_eq_some hn)⟩
    apply find?_congr
    intro n hn
    rw [t.nodeHeight_over (hm n hn)]

lemma findFork_over (hid : id ∈ w.2) : (s.over nodes ds td).findFork id = s.findFork id := by
  have hs : ∀ n, n ∈ w.2 → ((s.over nodes ds td).ancestors n).find?
      (s.over nodes ds td).contains = (s.ancestors n).find? s.contains := by
    intro n hn
    obtain ⟨he,hme⟩ := t.ancestors_over hn
    rw [he]
    exact find?_congr fun m hm => t.contains_over (hme m hm)
  obtain ⟨ha,hme⟩ := t.ancestor_over hid s.viewHeight
  unfold findFork
  rw [t.viewHeight_over,t.nodeHeight_over hid,ha]
  split_ifs
  · cases hn : s.ancestor id s.viewHeight with
    | none => rfl
    | some n => exact hs n (hme n hn)
  · exact hs id hid

lemma getReorganizeNodes_over (hid : id ∈ w.2) :
    (s.over nodes ds td).getReorganizeNodes id = s.getReorganizeNodes id ∧
      (∀ n ∈ (s.getReorganizeNodes id).1, n ∈ w.2) ∧ ∀ n ∈ (s.getReorganizeNodes id).2, n ∈ w.2 := by
  have ht : (s.over nodes ds td).tip = s.tip := rfl
  obtain ⟨he,hm⟩ := t.ancestors_over hid
  unfold getReorganizeNodes
  rw [t.findFork_over hid,he,ht]
  cases hn : s.tip with
  | none =>
    refine ⟨rfl,by simp,fun n hn => ?_⟩
    exact hm n ((takeWhile_sublist _).subset (mem_reverse.mp hn))
  | some tip =>
    obtain ⟨he',hm'⟩ := t.ancestors_over (t.tip_mem hn)
    simp only [Option.elim_some,he',true_and]
    refine ⟨fun n hn => hm' n ((takeWhile_sublist _).subset hn),fun n hn => ?_⟩
    exact hm n ((takeWhile_sublist _).subset (mem_reverse.mp hn))

variable (x : Bytes) (de : BlockDetail) (v : ℕ)

lemma blockExists_over : (s.over nodes ds td).blockExists x = s.blockExists x := by
  unfold State.blockExists
  by_cases hx : Settled h w x
  · have hd : (s.over nodes ds td).details x = s.details x := (t.store x hx).1
    rw [hd]
    rfl
  · obtain ⟨rfl,hw⟩ : x = h ∧ ¬w.1 := by simpa [Settled] using hx
    have hheight : s.hashToHeight x = none := (t.unknown hw).2.1
    simp [State.over,State.haveBlock,hheight]

/-! ### Writing -/

lemma storeBlock : TwinData h k (w.1 ∨ x = h,w.2) (s.storeBlock x de v) nodes
      (update ds x (some ⟨de.block,de.receipts,[],[]⟩)) (update td x (some v)) := by
  refine {t with store := fun y hy => ?_, unknown := fun hw => t.unknown fun hw' => hw (.inl hw')}
  by_cases hyx : y = x
  · subst hyx
    simp [State.storeBlock]
  · have hs : Settled h w y := fun hyh => (hy hyh).resolve_right fun hx => hyx (hyh.trans hx.symm)
    simpa [State.storeBlock,hyx] using t.store y hs

lemma saveBlock (ld : T) : TwinData h k (w.1 ∨ x = h,w.2) (s.saveBlock x de v ld) nodes
      (update ds x (some ⟨de.block,de.receipts,[],[]⟩)) (update td x (some v)) := by
  have t' := t.storeBlock x de v
  refine {t' with unknown := fun hw => ?_}
  obtain ⟨hi,hheight,hn⟩ := t'.unknown hw
  have hx : h ≠ x := fun hx => hw (.inr hx.symm)
  refine ⟨hi,?_,hn⟩
  have : s.hashToHeight h = none := hheight
  simpa [State.saveBlock,hx] using this

lemma delBlock (height : ℤ) (ld : T) : TwinData h k w (s.delBlock x height ld) nodes ds td := by
  refine {t with unknown := fun hw => ?_}
  obtain ⟨hi,hheight,hn⟩ := t.unknown hw
  exact ⟨hi,update_none hheight,hn⟩

lemma setNode (hid : id < k) (hnode : LiveNode h w node) :
    TwinData h k (w.1,insert id w.2) {s with nodes := update s.nodes id (some node)}
      (update nodes id (some node)) ds td where
  __ := t
  nodes_eq := by
    intro j hj
    by_cases hji : j = id
    · simp [hji]
    · simpa [hji] using t.nodes_eq j (hj.resolve_left hji)
  index := fun x j hj => .inr (t.index x j hj)
  queue := fun j hj => .inr (t.queue j hj)
  view := fun j hj => .inr (t.view j hj)
  viewNodes := fun x j hj => .inr (t.viewNodes x j hj)
  parent := by
    intro j hj n hn p hp
    by_cases hji : j = id
    · obtain rfl : node = n := by simpa [hji] using hn
      exact .inr (hnode.parent p hp)
    · exact .inr (t.parent j (hj.resolve_left hji) n (by simpa [hji] using hn) p hp)
  unknown := by
    intro hw
    obtain ⟨hi,hheight,hns⟩ := t.unknown hw
    refine ⟨hi,hheight,fun j hj n hn => ?_⟩
    by_cases hji : j = id
    · obtain rfl : node = n := by simpa [hji] using hn
      exact fun hh => hw (hnode.settled hh)
    · exact hns j (hj.resolve_left hji) n (by simpa [hji] using hn)
  below := by
    rintro j (rfl | hj)
    · exact hid
    · exact t.below j hj

lemma dropParent (id : ℕ) : TwinData h k w (s.dropParent id)
      (update nodes id ((nodes id).map fun node => {node with parent := none})) ds td where
  __ := t
  nodes_eq := by
    intro j hj
    by_cases hji : j = id
    · subst hji
      simp [State.dropParent,t.nodes_eq j hj]
    · simpa [State.dropParent,hji] using t.nodes_eq j hj
  parent := by
    intro j hj n hn p hp
    by_cases hji : j = id
    · subst hji
      obtain ⟨m,_,rfl⟩ : ∃ m, s.nodes j = some m ∧ {m with parent := none} = n := by
        simpa [State.dropParent] using hn
      cases hp
    · exact t.parent j hj n (by simpa [State.dropParent,hji] using hn) p hp
  unknown := by
    intro hw
    obtain ⟨hi,hheight,hns⟩ := t.unknown hw
    refine ⟨hi,hheight,fun j hj n hn => ?_⟩
    by_cases hji : j = id
    · subst hji
      obtain ⟨m,hm,rfl⟩ : ∃ m, s.nodes j = some m ∧ {m with parent := none} = n := by
        simpa [State.dropParent] using hn
      exact hns j hj m hm
    · exact hns j hj n (by simpa [State.dropParent,hji] using hn)

/-- Other entries for the index: names in use, and none under an unknown hash. -/
theorem withIndex {index : Bytes → Option ℕ} {q : List ℕ}
    (hi : ∀ x id, index x = some id → id ∈ w.2) (hq : ∀ id ∈ q, id ∈ w.2) (hu : ¬w.1 → index h = none) :
    TwinData h k w {s with index := index, indexQueue := q} nodes ds td :=
  {t with index := hi, queue := hq, unknown := fun hw => ⟨hu hw,(t.unknown hw).2⟩}

lemma withView {view : List ℕ} {viewNodes : ℤ → Option ℕ}
    (hv : ∀ id ∈ view, id ∈ w.2) (hn : ∀ x id, viewNodes x = some id → id ∈ w.2) :
    TwinData h k w {s with view := view, viewNodes := viewNodes} nodes ds td := {t with view := hv, viewNodes := hn}

lemma withOrphans {orphans prevOrphans : List OrphanBlock}
    {ol : Option OrphanBlock} (ho : ∀ o ∈ orphans, o.id < k) (hp : ∀ o ∈ prevOrphans, o.id < k) :
    TwinData h k w {s with orphans := orphans, prevOrphans := prevOrphans, oldestOrphan := ol}
      nodes ds td := {t with orphans := ho, prevOrphans := hp}

end

end TwinData

variable {α : Type} [DecidableEq α] {f : α → Option ℕ} {S : Set ℕ} {x : α}

lemma mem_of_update_some (hf : ∀ y j, f y = some j → j ∈ S) (hid : id ∈ S) :
    ∀ y j, update f x (some id) y = some j → j ∈ S := by
  intro y j hj
  rw [update_apply] at hj
  split_ifs at hj
  · exact Option.some.inj hj ▸ hid
  · exact hf y j hj

lemma mem_of_update_none (hf : ∀ y j, f y = some j → j ∈ S) : ∀ y j, update f x none y = some j → j ∈ S := by
  intro y j hj
  rw [update_apply] at hj
  split_ifs at hj
  exact hf y j hj

namespace Twin
variable {s s' : State T}

section
variable (t : Twin h k w s s')
include t

lemma expireNode : Twin h k w s.expireNode s'.expireNode := by
  obtain ⟨nodes,details,td,rfl,t⟩ := t
  have hqu : (s.over nodes details td).indexQueue = s.indexQueue := rfl
  unfold expireNode
  rw [hqu]
  cases hq : s.indexQueue with
  | nil => exact ⟨_,_,_,rfl,t⟩
  | cons de q =>
    have hm : ∀ id ∈ de :: q, id ∈ w.2 := hq ▸ t.queue
    have hh := t.nodeHash_over (hm de (by simp))
    dsimp only
    split_ifs
    · refine ⟨_,_,_,?_,(t.dropParent de).withIndex (mem_of_update_none t.index)
        (fun id hid => hm id (by simp [hid])) fun hw => update_none (t.unknown hw).1⟩
      rw [hh]
      rfl
    · exact ⟨_,_,_,rfl,t⟩

lemma addNode (hid : id ∈ w.2) (hs : Settled h w (s.nodeHash id)) :
    Twin h k w (s.addNode id) (s'.addNode id) := by
  apply expireNode
  obtain ⟨nodes,details,td,rfl,t⟩ := t
  refine ⟨_,_,_,?_,t.withIndex (mem_of_update_some t.index hid) ?_ ?_⟩
  · rw [t.nodeHash_over hid]
    rfl
  · exact forall_mem_append.mpr ⟨t.queue,forall_mem_singleton.mpr hid⟩
  · intro hw
    have hne : h ≠ s.nodeHash id := fun he => hw (hs he.symm)
    rw [update_of_ne hne]
    exact (t.unknown hw).1

lemma updateNode (hid : id ∈ w.2) (hs : Settled h w (s.nodeHash id))
    (x : Bytes) : Twin h k w (s.updateNode x id) (s'.updateNode x id) := by
  obtain ⟨nodes,details,td,rfl,t⟩ := t
  have hi : (s.over nodes details td).index x = s.index x := rfl
  unfold updateNode
  rw [hi]
  cases hx : s.index x with
  | none => exact ⟨_,_,_,rfl,t⟩
  | some el =>
    refine ⟨_,_,_,?_,t.withIndex (mem_of_update_some (mem_of_update_none t.index) hid) ?_ ?_⟩
    · rw [t.nodeHash_over hid]
      rfl
    · intro j hj
      obtain ⟨e,he,rfl⟩ := mem_map.mp hj
      split_ifs
      · exact hid
      · exact t.queue e he
    · intro hw
      have hne : h ≠ s.nodeHash id := fun he => hw (hs he.symm)
      rw [update_of_ne hne,update_none (t.unknown hw).1]

variable (su : Setup T) (now : ℤ) (x : Bytes)

lemma delNode : Twin h k w (s.delNode x) (s'.delNode x) := by
  obtain ⟨nodes,details,td,rfl,t⟩ := t
  have hi : (s.over nodes details td).index x = s.index x := rfl
  unfold delNode
  rw [hi]
  cases hx : s.index x with
  | none => exact ⟨_,_,_,rfl,t⟩
  | some de =>
    exact ⟨_,_,_,rfl,(t.dropParent de).withIndex (mem_of_update_none t.index)
      (fun id hid => t.queue id (mem_of_mem_erase hid)) fun hw => update_none (t.unknown hw).1⟩

lemma expireView : Twin h k w s.expireView s'.expireView := by
  obtain ⟨nodes,details,td,rfl,t⟩ := t
  have hv : (s.over nodes details td).view = s.view := rfl
  unfold expireView
  rw [hv]
  cases hb : s.view.getLast? with
  | none => exact ⟨_,_,_,rfl,t⟩
  | some b =>
    have hba := t.nodeHeight_over (t.view b (mem_of_getLast? hb))
    dsimp only
    split_ifs
    · refine ⟨_,_,_,?_,t.withView (fun id hid => t.view id (dropLast_subset _ hid))
        (mem_of_update_none t.viewNodes)⟩
      rw [hba]
      rfl
    · exact ⟨_,_,_,rfl,t⟩

lemma setTip (hid : id ∈ w.2) : Twin h k w (s.setTip id) (s'.setTip id) := by
  have hco : (s'.view ≠ [] ∧ (s'.nodes id).bind (·.parent) ≠ s'.tip) ↔
      (s.view ≠ [] ∧ (s.nodes id).bind (·.parent) ≠ s.tip) := by
    obtain ⟨nodes,details,td,rfl,t⟩ := t
    have hnode : (s.over nodes details td).nodes id = s.nodes id := t.nodes_eq id hid
    rw [hnode]
    rfl
  unfold State.setTip
  by_cases hc : s.view ≠ [] ∧ (s.nodes id).bind (·.parent) ≠ s.tip
  · rw [if_pos hc,if_pos (hco.mpr hc)]
    exact t
  · rw [if_neg hc,if_neg (fun hc' => hc (hco.mp hc'))]
    apply expireView
    obtain ⟨nodes,details,td,rfl,t⟩ := t
    refine ⟨_,_,_,?_,t.withView ?_ (mem_of_update_some t.viewNodes hid)⟩
    · rw [t.nodeHeight_over hid]
      rfl
    · exact forall_mem_cons.mpr ⟨hid,t.view⟩

lemma delTip (hid : id ∈ w.2) : Twin h k w (s.delTip id) (s'.delTip id) := by
  obtain ⟨nodes,details,td,rfl,t⟩ := t
  have hmap : (s.over nodes details td).viewNodes = s.viewNodes := rfl
  unfold delTip
  rw [hmap,t.nodeHeight_over hid]
  cases he : s.viewNodes (s.nodeHeight id) with
  | none => exact ⟨_,_,_,rfl,t⟩
  | some e =>
    refine ⟨_,_,_,?_,t.withView (fun id hid => t.view id (mem_of_mem_erase hid))
      (mem_of_update_none t.viewNodes)⟩
    dsimp only
    rw [t.nodeHeight_over (t.viewNodes _ e he)]
    rfl

lemma removeOrphanBlock (block : Block) :
    Twin h k w (s.removeOrphanBlock su block) (s'.removeOrphanBlock su block) := by
  obtain ⟨nodes,details,td,rfl,t⟩ := t
  exact ⟨_,_,_,rfl,t.withOrphans (fun o ho => t.orphans o (mem_of_mem_filter ho))
    fun o ho => t.prevOrphans o (mem_of_mem_filter ho)⟩

lemma removeOrphanBlockByHash :
    Twin h k w (s.removeOrphanBlockByHash su x) (s'.removeOrphanBlockByHash su x) := by
  have ho : s'.orphans = s.orphans := by
    obtain ⟨nodes,details,td,rfl,_⟩ := t
    rfl
  unfold State.removeOrphanBlockByHash
  rw [ho]
  split
  · exact t
  · exact t.removeOrphanBlock su _

lemma withOldest (o : Option OrphanBlock) :
    Twin h k w {s with oldestOrphan := o} {s' with oldestOrphan := o} := by
  obtain ⟨nodes,details,td,rfl,t⟩ := t
  exact ⟨_,_,_,rfl,t.withOrphans t.orphans t.prevOrphans⟩

lemma expireOrphan (o : OrphanBlock) : Twin h k w (s.expireOrphan su now o) (s'.expireOrphan su now o) := by
  have hold : s'.oldestOrphan = s.oldestOrphan := by
    obtain ⟨nodes,details,td,rfl,_⟩ := t
    rfl
  unfold State.expireOrphan
  rw [hold]
  split_ifs
  · exact t.removeOrphanBlock su _
  · split
    · exact t.withOldest _
    · split_ifs
      · exact t.withOldest _
      · exact t

lemma expireOrphans (os : List OrphanBlock) : Twin h k w (os.foldl (State.expireOrphan su now) s)
      (os.foldl (State.expireOrphan su now) s') := by
  induction os generalizing s s' with
  | nil => exact t
  | cons o os ih => exact ih (t.expireOrphan su now o)

lemma insertOrphan {op : OrphanBlock}
    (hid : op.id < k) : Twin h k w (s.insertOrphan su op) (s'.insertOrphan su op) := by
  obtain ⟨nodes,details,td,rfl,t⟩ := t
  refine ⟨_,_,_,rfl,t.withOrphans ?_ ?_⟩
  · exact forall_mem_append.mpr ⟨fun o ho => t.orphans o (mem_of_mem_filter ho),forall_mem_singleton.mpr hid⟩
  · exact forall_mem_append.mpr ⟨t.prevOrphans,forall_mem_singleton.mpr hid⟩

end

end Twin

/-! ### Procedures -/

/-- The procedure does not tell the chains apart. -/
abbrev Same {α : Type} (h : Bytes) (k : ℕ) (w : World) (m : M T α) : Prop := Keeps (Twin h k) w m fun _ _ => True

section
variable {su : Setup T} {mo : Moment T}
lemma keeps_modify {g : State T → State T} {Q : World → PUnit → Prop} (hQ : Q w ⟨⟩)
    (hg : ∀ s s', Twin h k w s s' → Twin h k w (g s) (g s')) : Keeps (Twin h k) w (modify g : M T PUnit) Q :=
  modify fun s s' t => ⟨w,le_rfl,hg s s' t,hQ⟩

lemma keeps_reads {α : Type} {g : State T → α} {Q : World → α → Prop}
    (hg : ∀ s nodes details td, TwinData h k w s nodes details td → g s = g (s.over nodes details td) ∧ Q w (g s)) :
    Keeps (Twin h k) w (Proc.reads g : M T α) Q := by
  refine reads ?_
  rintro s _ ⟨nodes,details,td,rfl,t⟩
  exact hg s nodes details td t

lemma deref_keeps (hid : id ∈ w.2) : Keeps (Twin h k) w (deref id : M T BlockNode) (LiveNode h) := by
  refine .bind (P:=fun w' o => ∀ node, o = some node → LiveNode h w' node)
    (keeps_reads fun s _ _ _ t => ⟨(t.nodes_eq id hid).symm,fun node hnode => t.liveNode hid hnode⟩)
    fun w' o _ ho => demand ho

lemma tip_keeps : Keeps (Twin h k) w (Proc.reads tip : M T (Option ℕ))
      (fun w' o => ∀ id, o = some id → id ∈ w'.2) :=
  keeps_reads fun _ _ _ _ t => ⟨rfl,fun _ hid => t.tip_mem hid⟩

lemma tipNode_keeps : Keeps (Twin h k) w (tipNode : M T BlockNode) (LiveNode h) :=
  .bind tip_keeps fun _ _ _ hid => .bind (demand hid) fun _ _ _ hid => deref_keeps hid

lemma td_keeps {x : Bytes} (hx : Settled h w x) :
    Same h k w (Proc.reads (·.td x) : M T (Option ℕ)) :=
  keeps_reads fun _ _ _ _ t => ⟨(t.store x hx).2.symm,trivial⟩

variable {block : Block} {blocks : List (ℕ × BlockDetail)}

lemma parentTd_keeps (hx : Settled h w block.parentHash) :
    Same h k w (parentTd block : M T ℕ) := by
  unfold parentTd
  split_ifs
  · exact pure trivial
  · exact .bind (td_keeps hx) fun _ _ _ _ => demand fun _ _ => trivial

lemma localDB_keeps : Same h k w (Proc.reads (·.localDB) : M T T) :=
  keeps_reads fun _ _ _ _ _ => ⟨rfl,trivial⟩

lemma blockExists_keeps (x : Bytes) :
    Same h k w (Proc.reads (·.blockExists x) : M T Bool) :=
  keeps_reads fun _ _ _ _ t => ⟨(t.blockExists_over x).symm,trivial⟩

lemma liftLocal_keeps {α : Type} (r : Except String α) :
    Same h k w (liftLocal r : M T α) := by
  cases r with
  | error text => exact throw _
  | ok a => exact pure trivial

variable {detail : BlockDetail} {d : Delivery}

lemma dbMaybeStoreBlock_keeps (hx : Settled h w detail.block.parentHash) :
    Keeps (Twin h k) w (dbMaybeStoreBlock su detail) (fun w' _ => Settled h w' (su.hash detail.block)) := by
  refine .bind (parentTd_keeps hx) fun w' p _ _ => modify ?_
  rintro s _ ⟨nodes,details,td,rfl,t⟩
  exact ⟨(w'.1 ∨ su.hash detail.block = h,w'.2),⟨.inl,le_rfl⟩,⟨_,_,_,rfl,t.storeBlock _ detail _⟩,.inr⟩

lemma execFailed_keeps (node : BlockNode) (err : ExecError) :
    Same h k w (execFailed node err : M T Unit) := by
  unfold execFailed
  split_ifs
  · exact keeps_modify trivial fun s s' t => t.delNode node.hash
  · exact pure trivial

/-- The node itself does not come to a block of hash `h`. -/
def NotMined (su : Setup T) (mo : Moment T) (h : Bytes) : Prop :=
  ∀ localDB prevStateHash block detail,
    mo.execBlock localDB prevStateHash block false = .ok detail → su.hash detail.block ≠ h

lemma runBlock_keeps (hse : NotMined su mo h) (node : BlockNode) (psh : Bytes) (block : Block) :
    Keeps (Twin h k) w (runBlock mo node psh block)
      (fun _ detail => node.pid = .self → su.hash detail.block ≠ h) := by
  refine .bind localDB_keeps fun w' ld _ _ => ?_
  split
  · exact .bind (execFailed_keeps node _) fun _ _ _ _ => throw _
  · rename_i detail he
    refine pure fun hp => hse ld psh block detail ?_
    simpa [hp] using he

lemma updateSelf_keeps (hid : id ∈ w.2) (hnode : LiveNode h w node)
    (hb : node.pid = .self → su.hash block ≠ h) :
    Same h k w (updateSelf su id node block) := by
  unfold updateSelf
  split_ifs with hp
  · refine modify ?_
    rintro s _ ⟨nodes,details,td,rfl,t⟩
    have hs : Settled h w (su.hash block) := fun he => absurd he (hb hp)
    have hnode' : LiveNode h w {node with statehash := block.stateHash, hash := su.hash block} :=
      ⟨hnode.parent,hs⟩
    have t' := t.setNode (t.below id hid) hnode'
    refine ⟨(w.1,insert id w.2),⟨le_rfl,Set.subset_insert id w.2⟩,?_,trivial⟩
    refine Twin.updateNode ⟨_,_,_,rfl,t'⟩ (Set.mem_insert id w.2) ?_ node.hash
    have hs' : Settled h (w.1,insert id w.2) (su.hash block) := hs
    simpa [nodeHash] using hs'
  · exact pure trivial

lemma connectBlock_keeps (hse : NotMined su mo h) (hid : id ∈ w.2) (detail : BlockDetail) :
    Same h k w (connectBlock su mo id detail) := by
  refine .next (failIf fun _ => trivial) fun w1 _ hw1 => ?_
  refine .bind tipNode_keeps fun w2 tip hw2 ht => ?_
  refine .bind (P:=fun _ _ => detail.block.parentHash = tip.hash)
    (failIf fun hne => not_not.mp hne) fun w3 _ hw3 hp => ?_
  have hid3 : id ∈ w3.2 := hw3.2 (hw2.2 (hw1.2 hid))
  refine .bind (deref_keeps hid3) fun w4 node hw4 hnode => ?_
  refine .bind (runBlock_keeps hse node _ _) fun w5 b hw5 hb => ?_
  refine .bind (updateSelf_keeps (hw5.2 (hw4.2 hid3)) (hnode.mono hw5) hb)
    fun w6 _ hw6 _ => ?_
  refine .bind localDB_keeps fun w7 ld hw7 _ => ?_
  refine .bind (liftLocal_keeps _) fun w8 ld' hw8 _ => ?_
  have hw : w3 ≤ w8 := hw4.trans (hw5.trans (hw6.trans (hw7.trans hw8)))
  refine .bind (parentTd_keeps (hp ▸ (ht.mono (hw3.trans hw)).settled))
    fun w9 p hw9 _ => ?_
  refine .bind (P:=fun w' _ => w9 ≤ w') (modify ?_) fun w' _ _ hw' => ?_
  · rintro s _ ⟨nodes,details,td,rfl,t⟩
    have hl : w9 ≤ (w9.1 ∨ su.hash b.block = h,w9.2) := ⟨.inl,le_rfl⟩
    exact ⟨_,hl,⟨_,_,_,rfl,t.saveBlock _ _ _ ld'⟩,hl⟩
  exact .next (keeps_modify trivial fun s s' t => t.setTip (hw'.2 (hw9.2 (hw.2 hid3)))) fun _ _ _ => pure trivial

lemma disconnectBlock_keeps (hid : id ∈ w.2) (detail : BlockDetail) :
    Same h k w (disconnectBlock su id detail) := by
  refine .bind (deref_keeps hid) fun w1 node hw1 _ => ?_
  refine .bind tipNode_keeps fun w2 tip hw2 _ => ?_
  refine .next (failIf fun _ => trivial) fun w3 _ hw3 => ?_
  refine .bind localDB_keeps fun w4 ld hw4 _ => ?_
  refine .bind (liftLocal_keeps _) fun w5 ld' hw5 _ => ?_
  have hid5 : id ∈ w5.2 := hw5.2 (hw4.2 (hw3.2 (hw2.2 (hw1.2 hid))))
  refine .bind (P:=fun w' _ => id ∈ w'.2) (keeps_modify hid5 ?_) fun w6 _ _ hid6 => ?_
  · rintro s _ ⟨nodes,details,td,rfl,t⟩
    exact ⟨_,_,_,rfl,t.delBlock _ _ ld'⟩
  refine .next (keeps_modify trivial fun s s' t => t.delTip hid6) fun w7 _ _ => ?_
  refine .next (demand fun _ _ => trivial) fun w8 _ _ => ?_
  exact .bind tipNode_keeps fun _ _ _ _ => pure trivial

lemma loadBlocks_keeps {ids : List ℕ} (hi : ∀ id ∈ ids, id ∈ w.2) :
    Keeps (Twin h k) w (loadBlocks ids : M T _) (fun w' blocks => ∀ b ∈ blocks, b.1 ∈ w'.2) := by
  induction ids generalizing w with
  | nil => exact .pure (by simp)
  | cons id ids ih =>
    refine .bind (deref_keeps (hi id (by simp))) fun w1 node hw1 hnode => ?_
    refine .next (keeps_reads fun _ _ _ _ t => ⟨(t.store node.hash hnode.settled).1.symm,trivial⟩) fun w2 o hw2 => ?_
    refine .next (demand fun _ _ => trivial) fun w3 detail hw3 => ?_
    have hw : w ≤ w3 := hw1.trans (hw2.trans hw3)
    refine Keeps.bind (ih fun j hj => hw.2 (hi j (by simp [hj]))) fun w4 blocks hw4 hb => ?_
    apply Keeps.pure
    simp only [mem_cons,forall_eq_or_imp]
    exact ⟨hw4.2 (hw.2 (hi id (by simp))),hb⟩

lemma disconnectBlocks_keeps (hi : ∀ b ∈ blocks, b.1 ∈ w.2) :
    Same h k w (disconnectBlocks su blocks) := by
  induction blocks generalizing w with
  | nil => exact pure trivial
  | cons b blocks ih =>
    refine .bind (disconnectBlock_keeps (hi b (by simp)) b.2) fun w1 _ hw1 _ => ?_
    exact ih fun j hj => hw1.2 (hi j (by simp [hj]))

section
variable (hse : NotMined su mo h)
include hse

lemma connectBlocks_keeps (hi : ∀ b ∈ blocks, b.1 ∈ w.2) :
    Same h k w (connectBlocks su mo blocks) := by
  induction blocks generalizing w with
  | nil => exact pure trivial
  | cons b blocks ih =>
    refine .bind (connectBlock_keeps hse (hi b (by simp)) b.2) fun w1 _ hw1 _ => ?_
    exact ih fun j hj => hw1.2 (hi j (by simp [hj]))

lemma reorganizeChain_keeps {de a : List ℕ} (hd : ∀ id ∈ de, id ∈ w.2) (ha : ∀ id ∈ a, id ∈ w.2) :
    Same h k w (reorganizeChain su mo de a) := by
  refine .bind (loadBlocks_keeps hd) fun w1 blocks hw1 hbs => ?_
  refine .bind (loadBlocks_keeps fun id hid => hw1.2 (ha id hid)) fun w2 blocks' hw2 hbs' => ?_
  refine .bind (disconnectBlocks_keeps fun b hb => hw2.2 (hbs b hb)) fun w3 _ hw3 _ => ?_
  exact connectBlocks_keeps hse fun b hb => hw3.2 (hbs' b hb)

lemma connectFork_keeps (hid : id ∈ w.2) {tip : BlockNode}
    (ht : LiveNode h w tip) (hp : Settled h w detail.block.parentHash) :
    Same h k w (connectFork su mo id tip detail) := by
  refine .bind (td_keeps ht.settled) fun w1 _ hw1 _ => ?_
  refine .next (demand fun _ _ => trivial) fun w2 ti hw2 => ?_
  refine .bind (td_keeps (hp.mono (hw1.trans hw2))) fun w3 _ hw3 _ => ?_
  refine .next (demand fun _ _ => trivial) fun w4 p hw4 => ?_
  have hid4 : id ∈ w4.2 := hw4.2 (hw3.2 (hw2.2 (hw1.2 hid)))
  refine .bind (deref_keeps hid4) fun w5 node hw5 _ => ?_
  have hid5 : id ∈ w5.2 := hw5.2 hid4
  dsimp only
  split_ifs
  · refine .next (keeps_reads fun _ _ _ _ t => ⟨(t.findFork_over hid5).symm,trivial⟩) fun w6 _ _ => ?_
    exact .next (demand fun _ _ => trivial) fun _ _ _ => pure trivial
  · refine .bind (P:=fun w' nodes => (∀ n ∈ nodes.1, n ∈ w'.2) ∧ ∀ n ∈ nodes.2, n ∈ w'.2)
      (reads ?_) fun w6 nodes hw6 hn => ?_
    · rintro s _ ⟨nodes,details,td,rfl,t⟩
      obtain ⟨he,hm⟩ := t.getReorganizeNodes_over hid5
      exact ⟨he.symm,hm⟩
    exact .bind (reorganizeChain_keeps hse hn.1 hn.2) fun _ _ _ _ => pure trivial

lemma connectBestChain_keeps (hid : id ∈ w.2) (hp : Settled h w detail.block.parentHash) :
    Same h k w (connectBestChain su mo id detail) := by
  refine .bind tipNode_keeps fun w1 tip hw1 ht => ?_
  split_ifs
  · exact .bind (connectBlock_keeps hse (hw1.2 hid) detail) fun _ _ _ _ => pure trivial
  · exact connectFork_keeps hse (hw1.2 hid) ht (hp.mono hw1)

lemma maybeAcceptBlock_keeps (hd : d.id < k) :
    Same h k w (maybeAcceptBlock su mo d) := by
  refine .bind (P:=fun w' o => ∀ pr, o = some pr →
    pr ∈ w'.2 ∧ Settled h w' d.detail.block.parentHash) (reads ?_) fun w1 o _ ho => ?_
  · rintro s _ ⟨nodes,details,td,rfl,t⟩
    exact ⟨rfl,fun pr hpr => ⟨t.index _ pr hpr,t.settled_of_index hpr⟩⟩
  refine .bind (P:=fun w' pr => pr ∈ w'.2 ∧ Settled h w' d.detail.block.parentHash)
    (demand ho) fun w2 pr _ hpr => ?_
  refine .bind (deref_keeps hpr.1) fun w3 pn hw3 _ => ?_
  refine .next (failIf fun _ => trivial) fun w4 _ hw4 => ?_
  have hpa := hpr.2.mono (hw3.trans hw4)
  refine .bind (dbMaybeStoreBlock_keeps hpa) fun w5 _ hw5 hs => ?_
  refine .bind (P:=fun w' _ => d.id ∈ w'.2 ∧ w5 ≤ w') (modify ?_) fun w6 _ _ hw6 => ?_
  · rintro s _ ⟨nodes,details,td,rfl,t⟩
    have hl : w5 ≤ (w5.1,insert d.id w5.2) := ⟨le_rfl,Set.subset_insert d.id w5.2⟩
    have hnode : LiveNode h w5 (newBlockNode su d pr) := by
      refine ⟨?_,hs⟩
      rintro p hp
      cases hp
      exact hw5.2 (hw4.2 (hw3.2 hpr.1))
    refine ⟨_,hl,?_,Set.mem_insert d.id w5.2,hl⟩
    refine Twin.addNode ⟨_,_,_,rfl,t.setNode hd hnode⟩ (Set.mem_insert d.id w5.2) ?_
    have hst : Settled h (w5.1,insert d.id w5.2) (su.hash d.detail.block) := hs
    simpa [nodeHash,newBlockNode] using hst
  exact connectBestChain_keeps hse hw6.1 (hpa.mono (hw5.trans hw6.2))

lemma processOrphans_keeps (fu : ℕ) (hashes : List Bytes) :
    Same h k w (processOrphans su mo fu hashes) := by
  induction fu generalizing w hashes with
  | zero => exact pure trivial
  | succ fu ih =>
    cases hashes with
    | nil => exact pure trivial
    | cons hash hashes =>
      refine .bind (P:=fun _ os => ∀ o ∈ os, o.id < k) (reads ?_)
        fun w1 os _ hos => ?_
      · rintro s _ ⟨nodes,details,td,rfl,t⟩
        exact ⟨rfl,fun o ho => t.prevOrphans o (mem_of_mem_filter ho)⟩
      cases os with
      | nil => exact ih hashes
      | cons op os =>
        refine .next (keeps_modify trivial fun s s' t => t.removeOrphanBlock su op.block) fun w2 _ _ => ?_
        refine .bind (maybeAcceptBlock_keeps hse (hos op (by simp)))
          fun w3 _ _ _ => ih _

lemma maybeAddBestChain_keeps (hd : d.id < k) :
    Same h k w (maybeAddBestChain su mo d) := by
  refine .bind (blockExists_keeps _) fun w1 _ _ _ => ?_
  refine .next (failIf fun _ => trivial) fun w2 _ _ => ?_
  refine .bind (maybeAcceptBlock_keeps hse hd) fun w3 _ _ _ => ?_
  refine .next (keeps_reads fun _ _ _ _ _ => ⟨rfl,trivial⟩) fun w4 c _ => ?_
  exact .bind (processOrphans_keeps hse _ _) fun _ _ _ _ => pure trivial

end

lemma addOrphanBlock_keeps (hd : d.id < k) : Same h k w (addOrphanBlock su mo d) := by
  refine .next (keeps_modify trivial ?_) fun w1 _ _ => ?_
  · rintro s s' t
    have ho : s'.orphans = s.orphans := by
      obtain ⟨nodes,details,td,rfl,_⟩ := t
      rfl
    rw [ho]
    exact t.expireOrphans su mo.now _
  refine .next (keeps_reads fun _ _ _ _ _ => ⟨rfl,trivial⟩) fun w2 fu _ => ?_
  refine .next ?_ fun w3 _ _ => keeps_modify trivial fun s s' t => t.insertOrphan su hd
  unfold addOrphanBlock.dropOldest
  split_ifs
  · refine .next (keeps_reads fun _ _ _ _ _ => ⟨rfl,trivial⟩) fun w3 _ _ => ?_
    refine .next (demand fun _ _ => trivial) fun w4 o _ => ?_
    exact keeps_modify trivial fun s s' t => (t.removeOrphanBlock su o.block).withOldest none
  · exact pure trivial

lemma processDelParaChainBlock_keeps (detail : BlockDetail) :
    Same h k w (processDelParaChainBlock su detail) := by
  refine .bind tip_keeps fun w1 o _ ho => ?_
  refine .bind (P:=fun w' id => id ∈ w'.2) (demand ho) fun w2 ti _ ht => ?_
  refine .bind (deref_keeps ht) fun w3 tip hw3 _ => ?_
  refine .next (failIf fun _ => trivial) fun w4 _ hw4 => ?_
  refine .bind (disconnectBlock_keeps (hw4.2 (hw3.2 ht)) detail) fun w5 _ _ _ => ?_
  exact .next (keeps_modify trivial fun s s' t => t.delNode _) fun _ _ _ => pure trivial

lemma checkSelf_keeps (d : Delivery) (ab : Bool) :
    Same h k w (checkSelf su d ab) := by
  unfold checkSelf
  split
  · exact .bind tipNode_keeps fun _ _ _ _ => failIf fun _ => trivial
  · exact pure trivial

lemma checkOrphan_keeps (d : Delivery) : Same h k w (checkOrphan su d) := by
  refine .next (keeps_reads fun _ _ _ _ _ => ⟨rfl,trivial⟩) fun w1 kn _ => ?_
  split_ifs
  · refine .bind (blockExists_keeps _) fun w2 _ _ _ => ?_
    refine .next (failIf fun _ => trivial) fun w3 _ _ => ?_
    exact keeps_modify trivial fun s s' t => t.removeOrphanBlockByHash su _
  · exact pure trivial

lemma processAddBlock_keeps (hse : NotMined su mo h) (hd : d.id < k) :
    Same h k w (processAddBlock su mo d) := by
  refine .bind (blockExists_keeps _) fun w1 _ _ _ => ?_
  refine .next (failIf fun _ => trivial) fun w2 _ _ => ?_
  refine .bind (checkOrphan_keeps d) fun w3 _ _ _ => ?_
  refine .next (keeps_reads fun _ _ _ _ t => ⟨?_,trivial⟩) fun w4 exists_ _ => ?_
  · unfold prevHashExists
    rw [t.blockExists_over]
  split_ifs
  · exact maybeAddBestChain_keeps hse hd
  · exact .bind (addOrphanBlock_keeps hd) fun _ _ _ _ => pure trivial

lemma processBlock_keeps (hse : NotMined su mo h) (hd : d.id < k) (ab : Bool) :
    Same h k w (processBlock su mo d ab) := by
  refine .next (failIf fun _ => trivial) fun w1 _ _ => ?_
  refine .bind (checkSelf_keeps d ab) fun w2 _ _ _ => ?_
  split_ifs
  · exact processAddBlock_keeps hse hd
  · exact processDelParaChainBlock_keeps d.detail
  · exact throw _

end
end Dpos.BlockChain
