import Dpos.BlockChain
import Dpos.Lineage

/-! The nodes of the block index as a forest of parent pointers, and the best-chain view
as a chain in it. An entry that leaves a full index loses its parent pointer; the view
stays a chain as long as this happens to no node of the view. -/
namespace Dpos.BlockChain

open List Function Option

variable {T : Type}

/-- The header hash tells blocks of different heights apart, and none has the hash before
the genesis block. -/
structure Setup.Binds (su : Setup T) : Prop where
  height : ∀ b b', su.hash b = su.hash b' → b.height = b'.height
  ne_zeroHash : ∀ b, su.hash b ≠ zeroHash

variable {su : Setup T}

lemma Setup.binds_of_ideal {c : Crypto} {cfg : Config} (hc : c.Ideal)
    (hs : su.hash = Block.hash c cfg) : su.Binds where
  height := by
    intro b b' h
    rw [hs] at h
    exact (Block.hash_inj hc h).1
  ne_zeroHash := by
    intro b
    rw [hs,Block.hash]
    split_ifs <;> exact hc.sha256_ne_zeroHash _

def Moment.KeepsHeight (mo : Moment T) : Prop :=
  ∀ localDB prevStateHash block errReturn detail,
    mo.execBlock localDB prevStateHash block errReturn = .ok detail → detail.block.height = block.height

/-- A node stands for a block or before the genesis block. -/
def Formed (su : Setup T) (node : BlockNode) : Prop :=
  (node.hash = zeroHash ∧ node.height = -1) ∨
    (0 ≤ node.height ∧ ∃ b, su.hash b = node.hash ∧ b.height = node.height)

variable {node : BlockNode}

lemma Formed.height_eq (hs : su.Binds) {node' : BlockNode} (h : Formed su node)
    (h' : Formed su node') (he : node.hash = node'.hash) : node.height = node'.height := by
  rcases h with ⟨hz,hh⟩ | ⟨-,b,hb,hbh⟩ <;> rcases h' with ⟨hz',hh'⟩ | ⟨-,b',hb',hbh'⟩
  · rw [hh,hh']
  · exact absurd (hb'.trans (he.symm.trans hz)) (hs.ne_zeroHash b')
  · exact absurd (hb.trans (he.trans hz')) (hs.ne_zeroHash b)
  · rw [← hbh,← hbh',hs.height b b' (by rw [hb,hb',he])]

lemma Setup.Binds.height_of_hash (hs : su.Binds) {bl : Block}
    (h : Formed su node) (hh : su.hash bl = node.hash) : bl.height = node.height ∧ 0 ≤ node.height := by
  rcases h with ⟨hz,-⟩ | ⟨hp,b,hb,hbh⟩
  · exact absurd (hh.trans hz) (hs.ne_zeroHash bl)
  · exact ⟨by rw [← hbh,hs.height bl b (hh.trans hb.symm)],hp⟩

namespace State

def up (s : State T) (i : ℕ) : Option ℕ := (s.nodes i).bind (·.parent)

/-- Parent pointers lead to nodes one below, the index finds nodes under their hash, and
so does the block store. -/
structure Forest (su : Setup T) (s : State T) : Prop where
  formed : ∀ i node, s.nodes i = some node → Formed su node
  parent : ∀ i node p, s.nodes i = some node → node.parent = some p →
    ∃ pn, s.nodes p = some pn ∧ node.height = pn.height+1
  index : ∀ h i, s.index h = some i → ∃ node, s.nodes i = some node ∧ node.hash = h
  queue : ∀ i ∈ s.indexQueue, (s.nodes i).isSome = true
  stored : ∀ h detail, s.details h = some detail → su.hash detail.block = h

/-- The view is a chain of bounded length, and its lookup finds its nodes by height. -/
structure Flat (s : State T) : Prop where
  chained : Chained s.up s.view
  held : ∀ i ∈ s.view, (s.nodes i).isSome = true
  lookup : ∀ h i, s.viewNodes h = some i ↔ i ∈ s.view ∧ s.nodeHeight i = h
  bounded : s.view.length ≤ blockNodeCacheLimit

variable {i : ℕ} {s : State T}

lemma up_eq (h : s.nodes i = some node) : s.up i = node.parent := by
  rw [up,h]
  rfl

lemma nodeHeight_eq (h : s.nodes i = some node) : s.nodeHeight i = node.height := by
  rw [nodeHeight,h]
  rfl

lemma nodeHash_eq (h : s.nodes i = some node) : s.nodeHash i = node.hash := by
  rw [nodeHash,h]
  rfl

lemma ne_of_fresh {j : ℕ} (hf : s.nodes i = none) (hj : (s.nodes j).isSome = true) : j ≠ i := by
  rintro rfl
  simp [hf] at hj

lemma or_and_nodeHeight {P : Prop} {t : ℕ} {h : ℤ} (hh : ¬h = s.nodeHeight t) :
    (i = t ∨ P) ∧ s.nodeHeight i = h ↔ P ∧ s.nodeHeight i = h := by
  refine and_congr_left fun hi => or_iff_right ?_
  rintro rfl
  exact hh hi.symm

lemma exists_of_up {p : ℕ} (h : s.up i = some p) : ∃ node, s.nodes i = some node ∧ node.parent = some p := by
  rw [up] at h
  exact bind_eq_some_iff.mp h

namespace Forest
variable {su : Setup T} {s : State T}

lemma graded (f : Forest su s) : Graded s.up s.nodeHeight where
  low := by
    intro i
    rw [nodeHeight]
    cases hnode : s.nodes i with
    | none => simp
    | some node => rcases f.formed i node hnode with ⟨-,h⟩ | ⟨h,-⟩ <;> simp only [elim_some] <;> omega
  falls := by
    intro i p hp
    obtain ⟨node,hnode,hpr⟩ := exists_of_up hp
    obtain ⟨pn,hpn,hheight⟩ := f.parent i node p hnode hpr
    rw [nodeHeight_eq hnode,nodeHeight_eq hpn,hheight]

section
variable (f : Forest su s) (hi : (s.nodes i).isSome = true)
include f hi

lemma path_eq_climb {fu : ℕ} : s.path fu i = climb s.up fu i := by
  induction fu generalizing i with
  | zero => rfl
  | succ fu ih =>
    obtain ⟨node,hnode⟩ := isSome_iff_exists.mp hi
    rw [path,climb,up_eq hnode,hnode]
    cases hp : node.parent with
    | none => simp [hp]
    | some p =>
      obtain ⟨pn,hpn,-⟩ := f.parent i node p hnode hp
      simp [hp,ih (isSome_iff_exists.mpr ⟨pn,hpn⟩)]

lemma ancestors_eq : s.ancestors i = lineage s.up s.nodeHeight i := f.path_eq_climb hi

lemma isSome_of_mem_lineage {j : ℕ} (hj : j ∈ lineage s.up s.nodeHeight i) : (s.nodes j).isSome = true := by
  induction i using f.graded.induction with
  | step i ih =>
    rw [f.graded.lineage_eq] at hj
    rcases mem_cons.mp hj with rfl | hj
    · exact hi
    · cases hu : s.up i with
      | none => rw [hu] at hj; simp at hj
      | some p =>
        rw [hu] at hj
        obtain ⟨node,hnode,hp⟩ := exists_of_up hu
        obtain ⟨pn,hpn,-⟩ := f.parent i node p hnode hp
        exact ih p hu (isSome_iff_exists.mpr ⟨pn,hpn⟩) hj

end

lemma update {s' : State T} (f : Forest su s) (i : ℕ) (node : BlockNode)
    (hns : s'.nodes = Function.update s.nodes i (some node)) (hd : s'.details = s.details)
    (hf : Formed su node) (hheight : ∀ old, s.nodes i = some old → node.height = old.height)
    (hpr : ∀ p, node.parent = some p → ∃ pn, s.nodes p = some pn ∧ node.height = pn.height+1)
    (hix : ∀ h j, s'.index h = some j → ∃ n, s'.nodes j = some n ∧ n.hash = h)
    (hq : ∀ j ∈ s'.indexQueue, j = i ∨ j ∈ s.indexQueue) : Forest su s' where
  formed := by
    intro j n hn
    rw [hns,update_apply] at hn
    split_ifs at hn with hj
    · cases hn
      exact hf
    · exact f.formed j n hn
  parent := by
    intro j n p hn hp
    rw [hns,update_apply] at hn
    obtain ⟨pn,hpn,hnh⟩ : ∃ pn, s.nodes p = some pn ∧ n.height = pn.height+1 := by
      split_ifs at hn with hj
      · cases hn
        exact hpr p hp
      · exact f.parent j n p hn hp
    by_cases hpi : p = i
    · subst hpi
      exact ⟨node,by rw [hns,update_self],by rw [hnh,hheight pn hpn]⟩
    · exact ⟨pn,by rw [hns,update_of_ne hpi,hpn],hnh⟩
  index := hix
  queue := by
    intro j hj
    rw [hns,update_apply]
    split_ifs with hji
    · rfl
    · exact f.queue j ((hq j hj).resolve_left hji)
  stored := by
    rw [hd]
    exact f.stored

end Forest

namespace Flat
variable {su : Setup T} {s : State T}

section
variable (v : Flat s) (f : Forest su s)
include v f

lemma height_le (hi : i ∈ s.view) : s.nodeHeight i ≤ s.viewHeight := by
  have hp := f.graded.pairwise_of_chained v.chained
  rw [viewHeight,tip]
  cases hv : s.view with
  | nil => rw [hv] at hi; simp at hi
  | cons t rest =>
    rw [hv] at hi hp
    rcases mem_cons.mp hi with rfl | hi
    · simp
    · simpa using ((pairwise_cons.mp hp).1 i hi).le

lemma contains_iff (i : ℕ) : s.contains i = true ↔ i ∈ s.view ∧ 0 ≤ s.nodeHeight i := by
  rw [contains,nodeByHeight,decide_eq_true_eq]
  split_ifs with h
  · simp only [false_iff,not_and,not_le]
    intro hi
    have := v.height_le f hi
    omega
  · rw [v.lookup]
    constructor
    · rintro ⟨hi,-⟩
      exact ⟨hi,by omega⟩
    · rintro ⟨hi,-⟩
      exact ⟨hi,rfl⟩

section
variable (hi : (s.nodes i).isSome = true)
include hi

/-- `findFork` finds the first node of the view on the way up, although it starts at the
height of the tip. -/
theorem findFork_eq : s.findFork i = (s.ancestors i).find? s.contains := by
  rw [findFork]
  by_cases hl : s.viewHeight < s.nodeHeight i
  swap
  · simp [hl]
  rw [if_pos hl,ancestor,f.ancestors_eq hi]
  by_cases hv : s.viewHeight < 0
  · -- no node of the view has a height that can be looked up
    rw [if_pos (.inl hv)]
    refine (find?_eq_none.mpr fun a _ hc => ?_).symm
    obtain ⟨ha,hpo⟩ := (v.contains_iff f a).mp hc
    have := v.height_le f ha
    omega
  rw [if_neg (by omega)]
  cases hs : (lineage s.up s.nodeHeight i).find? fun n => s.nodeHeight n = s.viewHeight with
  | none =>
    refine (find?_eq_none.mpr fun a ha hc => ?_).symm
    obtain ⟨hm,-⟩ := (v.contains_iff f a).mp hc
    obtain ⟨b,hb,hbh,-⟩ := f.graded.exists_at_height ha (v.height_le f hm) hl.le
    exact find?_eq_none.mp hs b hb (by simpa using hbh)
  | some a =>
    -- what comes before the start is above the tip
    have ha : s.nodeHeight a = s.viewHeight := by simpa using find?_some hs
    have hm := mem_of_find?_eq_some hs
    obtain ⟨fr,hf⟩ := f.graded.suffix_of_mem hm
    have hasome := f.isSome_of_mem_lineage hi hm
    have hn : fr.find? s.contains = none := by
      rw [find?_eq_none]
      intro b hb hc
      have hle := v.height_le f ((v.contains_iff f b).mp hc).1
      have hp := f.graded.pairwise_of_chained (f.graded.chained_lineage i)
      rw [← hf] at hp
      have := (pairwise_append.mp hp).2.2 b hb a (f.graded.mem_lineage_self a)
      omega
    rw [bind_some,f.ancestors_eq hasome,← hf,find?_append,hn,none_or]

lemma findFork_spec {a : ℕ}
    (ha : a ∈ s.ancestors i) (hc : s.contains a = true) :
    ∃ fork ∈ s.ancestors i, s.findFork i = some fork ∧ s.contains fork = true ∧
      ∀ b ∈ s.ancestors i, s.contains b = true → s.nodeHeight b ≤ s.nodeHeight fork := by
  obtain ⟨fork,hf⟩ : ∃ fork, (s.ancestors i).find? s.contains = some fork :=
    isSome_iff_exists.mp (find?_isSome.mpr ⟨a,ha,hc⟩)
  refine ⟨fork,mem_of_find?_eq_some hf,by rw [v.findFork_eq f hi,hf],find?_some hf,?_⟩
  intro b hb hbc
  rw [f.ancestors_eq hi] at hb hf
  exact f.graded.height_le_of_find (f.graded.chained_lineage i) hf hb hbc

/-- The nodes to detach are those of the view above the fork, the nodes to attach those of
the other branch. -/
theorem getReorganizeNodes_eq {fo : ℕ} (hfo : s.findFork i = some fo) :
    s.getReorganizeNodes i = (s.view.filter (s.nodeHeight fo < s.nodeHeight ·),
      ((s.ancestors i).filter (s.nodeHeight fo < s.nodeHeight ·)).reverse) := by
  have hf := hfo
  rw [v.findFork_eq f hi] at hf
  have hm := mem_of_find?_eq_some hf
  have hv := ((v.contains_iff f fo).mp (find?_some hf)).1
  have hne : (fun n => decide (some n ≠ some fo)) = fun n : ℕ => decide (n ≠ fo) := by
    funext n
    simp
  rw [getReorganizeNodes,hfo,hne]
  congr 1
  · cases hl : s.view with
    | nil => rw [hl] at hv; simp at hv
    | cons t rest =>
      have hchain := v.chained
      have ht : (s.nodes t).isSome = true := v.held t (by rw [hl]; exact mem_cons_self)
      rw [hl] at hchain hv
      rw [tip,hl,head?_cons,elim_some,f.ancestors_eq ht]
      exact f.graded.takeWhile_lineage hchain hv
  · rw [f.ancestors_eq hi] at hm ⊢
    rw [f.graded.takeWhile_eq_filter (f.graded.chained_lineage i) hm]

end

end

lemma congr {s' : State T} (v : Flat s) (hv : s'.view = s.view) (hl : s'.viewNodes = s.viewNodes)
    (hs : ∀ i ∈ s.view, s'.up i = s.up i ∧ s'.nodeHeight i = s.nodeHeight i ∧
      (s'.nodes i).isSome = (s.nodes i).isSome) : Flat s' where
  chained := by
    rw [hv]
    exact v.chained.imp_of_mem_imp fun i j hi _ h => by rw [(hs i hi).1,h]
  held := by
    rw [hv]
    intro i hi
    rw [(hs i hi).2.2,v.held i hi]
  lookup := by
    intro h i
    rw [hv,hl,v.lookup]
    constructor <;> rintro ⟨hi,hh⟩ <;> refine ⟨hi,?_⟩
    · rw [(hs i hi).2.1,hh]
    · rw [← (hs i hi).2.1,hh]
  bounded := by
    rw [hv]
    exact v.bounded

end Flat

/-! ### The index -/

section
variable {su : Setup T} {s : State T}

lemma nodeHeight_dropParent (s : State T) (i j : ℕ) : (s.dropParent i).nodeHeight j = s.nodeHeight j := by
  simp only [nodeHeight,dropParent,update_apply]
  split_ifs with h
  · subst h
    cases s.nodes j <;> rfl
  · rfl

lemma nodeHash_dropParent (s : State T) (i j : ℕ) : (s.dropParent i).nodeHash j = s.nodeHash j := by
  simp only [nodeHash,dropParent,update_apply]
  split_ifs with h
  · subst h
    cases s.nodes j <;> rfl
  · rfl

lemma Forest.dropParent (f : Forest su s) (i : ℕ) : Forest su (s.dropParent i) := by
  cases hnode : s.nodes i with
  | none =>
    have hs : s.dropParent i = s := by rw [State.dropParent,hnode,map_none,← hnode,update_eq_self]
    rw [hs]
    exact f
  | some node =>
    refine f.update i {node with parent := none} ?_ rfl (f.formed i node hnode) ?_ ?_ ?_
      fun j hj => .inr hj
    · rw [State.dropParent,hnode]
      rfl
    · intro old hold
      rw [hnode] at hold
      cases hold
      rfl
    · intro p hp
      cases hp
    · intro h j hj
      obtain ⟨n,hn,hh⟩ := f.index h j hj
      by_cases hji : j = i
      · subst hji
        cases hnode.symm.trans hn
        exact ⟨{node with parent := none},by simp [State.dropParent,hnode],hh⟩
      · exact ⟨n,by simp [State.dropParent,update_of_ne hji,hn],hh⟩

lemma Flat.dropParent (v : Flat s) (hi : i ∉ s.view) : Flat (s.dropParent i) := by
  refine v.congr rfl rfl fun j hj => ?_
  have hne : j ≠ i := fun h => hi (h ▸ hj)
  have hnode : (s.dropParent i).nodes j = s.nodes j := by simp [State.dropParent,update_of_ne hne]
  exact ⟨by rw [up,up,hnode],nodeHeight_dropParent s i j,by rw [hnode]⟩

lemma Forest.of_index (f : Forest su s) {s' : State T} (hn : s'.nodes = s.nodes) (hd : s'.details = s.details)
    (hix : ∀ h i, s'.index h = some i → ∃ node, s.nodes i = some node ∧ node.hash = h)
    (hq : ∀ i ∈ s'.indexQueue, (s.nodes i).isSome = true) : Forest su s' where
  formed := by
    rw [hn]
    exact f.formed
  parent := by
    rw [hn]
    exact f.parent
  index := by
    rw [hn]
    exact hix
  queue := by
    rw [hn]
    exact hq
  stored := by
    rw [hd]
    exact f.stored

lemma Forest.forget (f : Forest su s) (hash : Bytes) {q : List ℕ} (hq : q ⊆ s.indexQueue) :
    Forest su {s with indexQueue := q, index := Function.update s.index hash none} := by
  refine f.of_index rfl rfl (fun h i hi => ?_) fun i hi => f.queue i (hq hi)
  simp only [update_apply] at hi
  split_ifs at hi
  exact f.index h i hi

/-- The entry that would leave the index is not in the view. -/
def Spares (s : State T) : Prop :=
  s.indexQueue.length < indexCacheLimit ∨ ∀ front ∈ s.indexQueue.head?, front ∉ s.view

instance (s : State T) : Decidable s.Spares := inferInstanceAs (Decidable (_ ∨ ∀ _ ∈ s.indexQueue.head?, _))

lemma Forest.addNode (f : Forest su s) (hnode : s.nodes i = some node) : Forest su (s.addNode i) := by
  have ha : Forest su {s with
      indexQueue := s.indexQueue ++ [i], index := Function.update s.index (s.nodeHash i) (some i)} := by
    refine f.of_index rfl rfl (fun h j hj => ?_) fun j hj => ?_
    · simp only [update_apply] at hj
      split_ifs at hj with hh
      · cases hj
        exact ⟨node,hnode,by rw [hh,nodeHash_eq hnode]⟩
      · exact f.index h j hj
    · rcases mem_append.mp hj with hj | hj
      · exact f.queue j hj
      · rw [mem_singleton.mp hj,hnode]
        rfl
  rw [State.addNode,expireNode]
  split
  · exact ha
  · rename_i front queue hq
    split_ifs
    · refine (ha.dropParent _).forget _ ?_
      dsimp only at hq
      rw [hq]
      exact subset_cons_self front queue
    · exact ha

lemma Flat.addNode (v : Flat s) (hi : i ∉ s.view) (hs : s.Spares) : Flat (s.addNode i) := by
  have ha : Flat {s with
      indexQueue := s.indexQueue ++ [i], index := Function.update s.index (s.nodeHash i) (some i)} :=
    v.congr rfl rfl fun _ _ => ⟨rfl,rfl,rfl⟩
  rw [State.addNode,expireNode]
  split
  · exact ha
  · rename_i front queue hq
    split_ifs with hfu
    · have hf : front ∉ s.view := by
        simp only [length_append,length_singleton] at hq hfu
        cases hold : s.indexQueue with
        | nil =>
          rw [hold] at hq
          obtain ⟨rfl,-⟩ := cons.inj hq
          exact hi
        | cons old rest =>
          rw [hold] at hq
          obtain ⟨rfl,-⟩ := cons.inj hq
          rcases hs with hr | ho
          · omega
          · exact ho _ (by rw [hold]; rfl)
      exact (Flat.dropParent ha hf).congr rfl rfl fun _ _ => ⟨rfl,rfl,rfl⟩
    · exact ha

lemma Forest.delNode (f : Forest su s) (hash : Bytes) : Forest su (s.delNode hash) := by
  rw [State.delNode]
  split
  · exact f
  · exact (f.dropParent _).forget _ (erase_subset ..)

lemma Flat.delNode (v : Flat s) {hash : Bytes} (ho : ∀ i, s.index hash = some i → i ∉ s.view) :
    Flat (s.delNode hash) := by
  rw [State.delNode]
  split
  · exact v
  · rename_i i hi
    exact (v.dropParent (ho i hi)).congr rfl rfl fun _ _ => ⟨rfl,rfl,rfl⟩

def learn (s : State T) (su : Setup T) (i : ℕ) (node : BlockNode) (block : Block) : State T :=
  if node.pid = .self then
    State.updateNode {s with
      nodes := Function.update s.nodes i
        (some {node with statehash := block.stateHash, hash := su.hash block})} node.hash i
  else s

lemma nodes_learn (s : State T) (su : Setup T) (i : ℕ) (node : BlockNode) (b : Block) :
    (s.learn su i node b).nodes = if node.pid = .self then Function.update s.nodes i
        (some {node with statehash := b.stateHash, hash := su.hash b})
      else s.nodes := by
  rw [learn]
  split_ifs
  · rw [updateNode]
    split <;> rfl
  · rfl

lemma learn_frame (s : State T) (su : Setup T) (i : ℕ) (node : BlockNode) (b : Block) :
    (s.learn su i node b).view = s.view ∧ (s.learn su i node b).viewNodes = s.viewNodes ∧
      (s.learn su i node b).details = s.details ∧ (s.learn su i node b).td = s.td ∧
      (s.learn su i node b).localDB = s.localDB := by
  rw [learn]
  split_ifs
  · rw [updateNode]
    split <;> exact ⟨rfl,rfl,rfl,rfl,rfl⟩
  · exact ⟨rfl,rfl,rfl,rfl,rfl⟩

lemma learn_same (hnode : s.nodes i = some node) (b : Block) (j : ℕ) :
    (s.learn su i node b).up j = s.up j ∧ (s.learn su i node b).nodeHeight j = s.nodeHeight j ∧
      ((s.learn su i node b).nodes j).isSome = (s.nodes j).isSome := by
  rw [up,up,nodeHeight,nodeHeight,nodes_learn]
  split_ifs
  · by_cases hj : j = i
    · subst hj
      simp [hnode]
    · simp [update_of_ne hj]
  · exact ⟨rfl,rfl,rfl⟩

lemma Flat.learn (v : Flat s) (hnode : s.nodes i = some node) (b : Block) : Flat (s.learn su i node b) := by
  obtain ⟨hv,hl,-⟩ := learn_frame s su i node b
  exact v.congr hv hl fun j _ => learn_same hnode b j

section
variable (f : Forest su s)
include f

lemma Forest.learn (hnode : s.nodes i = some node) {b : Block}
    (hpo : 0 ≤ node.height) (hheight : b.height = node.height) : Forest su (s.learn su i node b) := by
  by_cases hpd : node.pid = .self
  swap
  · rw [State.learn,if_neg hpd]
    exact f
  have hns := nodes_learn s su i node b
  rw [if_pos hpd] at hns
  refine f.update i _ hns (learn_frame s su i node b).2.2.1 (.inr ⟨hpo,b,rfl,hheight⟩)
    ?_ ?_ ?_ ?_
  · intro old hold
    cases hnode.symm.trans hold
    rfl
  · intro p hp
    exact f.parent i node p hnode hp
  · intro h j hj
    -- an entry for the node itself is under its new hash, any other is an old one
    have hc : (j = i ∧ h = su.hash b) ∨ (j ≠ i ∧ s.index h = some j) := by
      rw [State.learn,if_pos hpd,updateNode] at hj
      split at hj
      · rename_i hno
        right
        refine ⟨?_,hj⟩
        rintro rfl
        obtain ⟨n,hn,rfl⟩ := f.index h j hj
        cases hnode.symm.trans hn
        cases hj.symm.trans hno
      · rename_i elem he
        simp only [nodeHash,update_self,elim_some,update_apply] at hj
        split_ifs at hj with hnw hold
        · exact .inl ⟨(Option.some.inj hj).symm,hnw⟩
        · refine .inr ⟨?_,hj⟩
          rintro rfl
          obtain ⟨n,hn,rfl⟩ := f.index h j hj
          cases hnode.symm.trans hn
          exact hold rfl
    rw [hns]
    rcases hc with ⟨rfl,rfl⟩ | ⟨hne,hold⟩
    · exact ⟨_,update_self ..,rfl⟩
    · obtain ⟨n,hn,hh⟩ := f.index h j hold
      exact ⟨n,by rw [update_of_ne hne,hn],hh⟩
  · intro j hj
    rw [State.learn,if_pos hpd,updateNode] at hj
    split at hj
    · exact .inr hj
    · obtain ⟨old,hold,rfl⟩ := mem_map.mp hj
      split_ifs
      · exact .inl rfl
      · exact .inr hold

variable (de : BlockDetail) (i td : ℕ)

lemma Forest.storeBlock : Forest su (s.storeBlock (su.hash de.block) de td) where
  formed := f.formed
  parent := f.parent
  index := f.index
  queue := f.queue
  stored := by
    intro h d hd
    simp only [State.storeBlock,update_apply] at hd
    split_ifs at hd with hh
    · cases hd
      exact hh.symm
    · exact f.stored h d hd

lemma Forest.saveBlock (ld : T) : Forest su (s.saveBlock (su.hash de.block) de td ld) :=
  ⟨f.formed,f.parent,f.index,f.queue,(f.storeBlock de td).stored⟩

lemma Forest.delBlock (hash : Bytes) (height : ℤ) (ld : T) :
    Forest su (s.delBlock hash height ld) := ⟨f.formed,f.parent,f.index,f.queue,f.stored⟩

lemma Forest.of_view (view : List ℕ) (viewNodes : ℤ → Option ℕ) :
    Forest su {s with view := view, viewNodes := viewNodes} := ⟨f.formed,f.parent,f.index,f.queue,f.stored⟩

lemma Forest.setTip : Forest su (s.setTip i) := by
  rw [State.setTip]
  split_ifs
  · exact f
  · rw [expireView]
    split
    · exact f.of_view _ _
    · split_ifs <;> exact f.of_view _ _

lemma Forest.delTip : Forest su (s.delTip i) := by
  rw [State.delTip]
  split
  · exact f
  · exact f.of_view _ _

lemma Flat.expireView (hc : Chained s.up s.view) (hhe : ∀ i ∈ s.view, (s.nodes i).isSome = true)
    (hl : ∀ h i, s.viewNodes h = some i ↔ i ∈ s.view ∧ s.nodeHeight i = h)
    (hb : s.view.length ≤ blockNodeCacheLimit+1) : Flat s.expireView := by
  rw [State.expireView]
  rcases eq_nil_or_concat s.view with hv | ⟨fr,b,hv⟩
  · rw [hv,getLast?_nil]
    exact ⟨hc,hhe,hl,by rw [hv]; exact Nat.zero_le _⟩
  rw [concat_eq_append] at hv
  rw [hv,getLast?_concat]
  split_ifs with hf
  swap
  · exact ⟨hc,hhe,hl,by rw [hv]; omega⟩
  rw [dropLast_concat]
  rw [hv] at hc hhe hl hb
  have hp := f.graded.pairwise_of_chained hc
  exact {
    chained := hc.left_of_append
    held := fun i hi => hhe i (mem_append_left _ hi)
    lookup := by
      intro h i
      simp only [update_apply]
      split_ifs with hh
      · subst hh
        simp only [false_iff,not_and]
        intro hi
        exact ((pairwise_append.mp hp).2.2 i hi b (mem_singleton_self b)).ne'
      · rw [hl,mem_append,mem_singleton,or_comm]
        exact or_and_nodeHeight hh
    bounded := by
      rw [length_append,length_singleton] at hb
      exact Nat.le_of_succ_le_succ hb }

end

lemma view_expireView (s : State T) (hb : s.view.length ≤ blockNodeCacheLimit+1) :
    s.expireView.view = s.view.take blockNodeCacheLimit := by
  rw [State.expireView]
  split
  · rename_i hn
    rw [getLast?_eq_none_iff.mp hn]
    rfl
  · split_ifs with hf
    · have hl : s.view.length-1 = blockNodeCacheLimit := by omega
      rw [dropLast_eq_take,hl]
    · exact (take_of_length_le (by omega)).symm

lemma Flat.view_setTip (v : Flat s) (hu : s.view ≠ [] → s.up i = s.tip) :
    (s.setTip i).view = (i :: s.view).take blockNodeCacheLimit := by
  rw [State.setTip,if_neg fun h => h.2 (hu h.1),view_expireView]
  exact Nat.succ_le_succ v.bounded

lemma Flat.tip_setTip (v : Flat s) (hu : s.view ≠ [] → s.up i = s.tip) : (s.setTip i).tip = some i := by
  rw [tip,v.view_setTip hu]
  rfl

lemma setTip_frame (s : State T) (i : ℕ) : (s.setTip i).nodes = s.nodes ∧ (s.setTip i).index = s.index ∧
      (s.setTip i).indexQueue = s.indexQueue ∧ (s.setTip i).details = s.details ∧
      (s.setTip i).td = s.td ∧ (s.setTip i).localDB = s.localDB := by
  rw [State.setTip]
  split_ifs
  · exact ⟨rfl,rfl,rfl,rfl,rfl,rfl⟩
  · rw [expireView]
    split
    · exact ⟨rfl,rfl,rfl,rfl,rfl,rfl⟩
    · split_ifs <;> exact ⟨rfl,rfl,rfl,rfl,rfl,rfl⟩

lemma Flat.setTip (v : Flat s) (f : Forest su s) (hi : (s.nodes i).isSome = true) : Flat (s.setTip i) := by
  rw [State.setTip]
  split_ifs with hr
  · exact v
  have hu : s.view ≠ [] → s.up i = s.tip := by
    intro hne
    by_contra hn
    exact hr ⟨hne,hn⟩
  have hc : Chained s.up (i :: s.view) := by
    cases hv : s.view with
    | nil => exact isChain_singleton i
    | cons t rest =>
      rw [← hv]
      have ht := hu (by rw [hv]; simp)
      rw [tip,hv,head?_cons] at ht
      rw [hv]
      exact isChain_cons_cons.mpr ⟨ht,hv ▸ v.chained⟩
  have hp := pairwise_cons.mp (f.graded.pairwise_of_chained hc)
  refine Flat.expireView (f.of_view _ _) hc ?_ ?_ (Nat.succ_le_succ v.bounded)
  · exact forall_mem_cons.mpr ⟨hi,v.held⟩
  · intro h j
    simp only [update_apply,mem_cons]
    split_ifs with hh
    · subst hh
      constructor
      · intro hj
        cases hj
        exact ⟨.inl rfl,rfl⟩
      · rintro ⟨rfl | hj,hjh⟩
        · rfl
        · exact absurd hjh (hp.1 j hj).ne
    · rw [v.lookup]
      exact (or_and_nodeHeight hh).symm

variable {t : ℕ} {r : List ℕ}

lemma Flat.delTip_eq (v : Flat s) (hv : s.view = t :: r) (hheight : s.nodeHeight i = s.nodeHeight t) :
    s.delTip i = {s with view := r, viewNodes := Function.update s.viewNodes (s.nodeHeight t) none} := by
  have hf : s.viewNodes (s.nodeHeight i) = some t :=
    (v.lookup _ t).mpr ⟨by rw [hv]; exact mem_cons_self,hheight.symm⟩
  rw [State.delTip,hf]
  dsimp only
  rw [hv,erase_cons_head]

lemma Flat.delTip (v : Flat s) (f : Forest su s)
    (hv : s.view = t :: r) (hheight : s.nodeHeight i = s.nodeHeight t) : Flat (s.delTip i) := by
  have hc := v.chained
  rw [hv] at hc
  have hp := pairwise_cons.mp (f.graded.pairwise_of_chained hc)
  rw [v.delTip_eq hv hheight]
  exact {
    chained := hc.of_cons
    held := fun j hj => v.held j (by rw [hv]; exact mem_cons_of_mem t hj)
    lookup := by
      intro h j
      simp only [update_apply]
      split_ifs with hh
      · subst hh
        simp only [false_iff,not_and]
        intro hj
        exact (hp.1 j hj).ne
      · rw [v.lookup,hv,mem_cons]
        exact or_and_nodeHeight hh
    bounded := by
      have hb := v.bounded
      rw [hv,length_cons] at hb
      exact Nat.le_of_succ_le hb }

end
end State
end Dpos.BlockChain
