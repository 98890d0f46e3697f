import Dpos.MavlTree
import Dpos.LeafTreeMap

/-! Which search tree a node stands for, when some of its children are pointers
and others are records of the node database, and that rotations and rebalancing
of nodes are those of the search tree. -/
namespace Dpos.Mavl

open LeafTree

variable {D : Type}

/-- The tree of bindings behind a node. -/
abbrev Bindings := LeafTree Bytes Bytes

/-- The hash of a node without its prefix, by the bindings below it. -/
def digestOf (c : Codec D) : Bindings → D
  | .leaf k v => LeafNode.hash c ⟨k,v,0,1⟩
  | .inner k l r => c.sha256 (c.marshalInner
      ⟨digestOf c l,digestOf c r,int32 (inner k l r).height,int32 (inner k l r).size⟩)

def storedValue (config : Option TreeConfig) (v : Bytes) : Bytes :=
  match config with
  | none => v
  | some config => if config.enableMVCC then [] else v

/-- The records from `h` downwards are those of the tree. -/
def Stored (c : Codec D) (config : Option TreeConfig) (db : HashKey D → Option (StoreNode D)) :
    Bindings → HashKey D → Prop
  | .leaf k v, h => h.digest = digestOf c (.leaf k v) ∧ db h = some ⟨k,storedValue config v,none,none,0,1⟩
  | .inner k l r, h => h.digest = digestOf c (.inner k l r) ∧ (inner k l r).height < 2^31 ∧ ∃ lh rh,
      db h = some ⟨k,[],some lh,some rh,int32 (inner k l r).height,int32 (inner k l r).size⟩ ∧
      Stored c config db l lh ∧ Stored c config db r rh

/-- How nodes are to be read: the hash function, the configuration, and which
bindings count as stored under a hash. -/
structure View (D : Type) where
  codec : Codec D
  config : Option TreeConfig
  stored : Bindings → HashKey D → Prop

/-- A memoised hash is that of the bindings, and the children are then linked by their hashes; a
persisted node is stored under its hash. -/
structure HashOk (w : View D) (b : Bindings) (linked : Prop) (hash : Option (HashKey D))
    (persisted : Bool) : Prop where
  digest : ∀ h, hash = some h → h.digest = digestOf w.codec b
  stored : persisted = true → ∃ h, hash = some h ∧ w.stored b h
  linked : ∀ h, hash = some h → linked

def Linked (h : Option (HashKey D)) (n : Node D) : Prop := ∃ hk, h = some hk ∧ (n = .nil ∨ n.hash = some hk)

/-- A child is held by a pointer or, without one, by its hash. -/
def ChildOf (holds : Node D → Prop) (stored : HashKey D → Prop) (h : Option (HashKey D))
    (n : Node D) : Prop :=
  (n ≠ .nil ∧ holds n) ∨ (n = .nil ∧ ∃ hk, h = some hk ∧ stored hk)

/-- The node stands for the bindings. A leaf read from the database holds what
its record kept of the value. -/
def Holds (w : View D) : Bindings → Node D → Prop
  | .leaf k v => fun n => ∃ v' hash p, n = .mk k v' 0 1 hash none .nil none .nil p ∧
      (v' = v ∨ (p = true ∧ v' = storedValue w.config v)) ∧ HashOk w (.leaf k v) True hash p
  | .inner k l r => fun n => (inner k l r).height < 2^31 ∧ ∃ hash lh ln rh rn p,
      n = .mk k [] (int32 (inner k l r).height) (int32 (inner k l r).size)
        hash lh ln rh rn p ∧
      HashOk w (.inner k l r) (Linked lh ln ∧ Linked rh rn) hash p ∧
      ChildOf (Holds w l) (w.stored l) lh ln ∧ ChildOf (Holds w r) (w.stored r) rh rn

abbrev Child (w : View D) (b : Bindings) : Option (HashKey D) → Node D → Prop :=
  ChildOf (Holds w b) (w.stored b)

/-- What is stored can be read back through the tree's database. -/
def View.Serves (w : View D) (t : Tree D) : Prop :=
  ∀ b h, w.stored b h → ∃ n, getNode t (some h) = .ok n ∧ Holds w b n

/-- An inner node under construction: unhashed, not persisted, its height and
size perhaps out of date. -/
def Parts (w : View D) (k : Bytes) (l r : Bindings) (n : Node D) : Prop :=
  ∃ height size lh ln rh rn, n = .mk k [] height size none lh ln rh rn false ∧ height ≠ 0 ∧
    Child w l lh ln ∧ Child w r rh rn

/-- A node that stands for the bindings and was just built. -/
def Fresh (w : View D) (b : Bindings) (n : Node D) : Prop := Holds w b n ∧ n.hash = none ∧ n.persisted = false

lemma int32_size_leaf (k v : Bytes) : int32 (leaf k v).size = 1 := by
  rw [size]
  decide

variable {b : Bindings}

lemma int32_height (h : b.height < 2^31) : int32 b.height = b.height := by
  apply Word.wrap_eq_self
  constructor <;> push_cast <;> omega

variable {k : Bytes} {l r : Bindings} {f : ℕ}

lemma int32_height_ne_zero
    (h : (inner k l r).height < 2^31) : int32 (inner k l r).height ≠ 0 := by
  rw [int32_height h]
  simp only [height]
  omega

lemma height_left_lt (k : Bytes) (l r : Bindings) : l.height < (inner k l r).height := by
  simp only [height]
  omega

lemma height_right_lt (k : Bytes) (l r : Bindings) : r.height < (inner k l r).height := by
  simp only [height]
  omega

lemma exists_fuel {height : ℕ} (h : height < f) : ∃ n, f = n+1 := Nat.exists_eq_succ_of_ne_zero (by omega)

lemma exists_fuel_inner (h : (inner k l r).height < f) : ∃ n, f = n+1 ∧
    l.height < (inner k l r).height ∧ r.height < (inner k l r).height :=
  let ⟨n,hn⟩ := exists_fuel h
  ⟨n,hn,height_left_lt k l r,height_right_lt k l r⟩

section
variable {w : View D} {t : Tree D}

variable {n : Node D}

lemma Holds.ne_nil (h : Holds w b n) : n ≠ .nil := by
  cases b with
  | leaf k v => obtain ⟨v',hash,p,rfl,_⟩ := h; simp
  | inner k l r => obtain ⟨_,hash,lh,ln,rh,rn,p,rfl,_⟩ := h; simp

lemma Holds.child (h : Holds w b n) (hash : Option (HashKey D)) : Child w b hash n := Or.inl ⟨h.ne_nil,h⟩

lemma Child.exists_getNode (hw : w.Serves t) {h : Option (HashKey D)} (hc : Child w b h n) :
    ∃ m, (match n with | .nil => getNode t h | n => .ok n) = .ok m ∧ Holds w b m := by
  rcases hc with ⟨hne,hh⟩ | ⟨rfl,hk,rfl,hs⟩
  · cases n with
    | nil => exact absurd rfl hne
    | mk => exact ⟨_,rfl,hh⟩
  · exact hw b hk hs

def Kids (w : View D) (l r : Bindings) (n : Node D) : Prop :=
  ∃ key value height size hash lh ln rh rn p, n = .mk key value height size hash lh ln rh rn p ∧
    Child w l lh ln ∧ Child w r rh rn

lemma Kids.getLeftNode (hw : w.Serves t) (h : Kids w l r n) : ∃ m, n.getLeftNode t = .ok m ∧ Holds w l m := by
  obtain ⟨key,v,height,s,hash,lh,ln,rh,rn,p,rfl,hl,_⟩ := h
  obtain ⟨m,hm,hh⟩ := hl.exists_getNode hw
  cases ln <;> exact ⟨m,hm,hh⟩

lemma Kids.getRightNode (hw : w.Serves t) (h : Kids w l r n) : ∃ m, n.getRightNode t = .ok m ∧ Holds w r m := by
  obtain ⟨key,v,height,s,hash,lh,ln,rh,rn,p,rfl,_,hr⟩ := h
  obtain ⟨m,hm,hh⟩ := hr.exists_getNode hw
  cases rn <;> exact ⟨m,hm,hh⟩

lemma Holds.kids (h : Holds w (.inner k l r) n) : Kids w l r n := by
  obtain ⟨_,hash,lh,ln,rh,rn,p,rfl,_,hl,hr⟩ := h
  exact ⟨_,_,_,_,_,_,_,_,_,_,rfl,hl,hr⟩

lemma Parts.kids (h : Parts w k l r n) : Kids w l r n := by
  obtain ⟨height,s,lh,ln,rh,rn,rfl,_,hl,hr⟩ := h
  exact ⟨_,_,_,_,_,_,_,_,_,_,rfl,hl,hr⟩

lemma Holds.height_eq (h : Holds w b n) : n.height = .ok (b.height : ℤ) := by
  cases b with
  | leaf k v => obtain ⟨v',hash,p,rfl,_⟩ := h; rfl
  | inner k l r =>
    obtain ⟨hb,hash,lh,ln,rh,rn,p,rfl,_⟩ := h
    rw [Node.height,int32_height hb]

lemma Holds.size_eq (h : Holds w b n) : n.size = .ok (int32 b.size) := by
  cases b with
  | leaf k v =>
    obtain ⟨v',hash,p,rfl,_⟩ := h
    rw [int32_size_leaf]
    rfl
  | inner k l r => obtain ⟨_,hash,lh,ln,rh,rn,p,rfl,_⟩ := h; rfl

lemma Kids.calcBalance (hw : w.Serves t) (h : Kids w l r n) :
    n.calcBalance t = .ok ((l.height : ℤ) - r.height) := by
  obtain ⟨ml,hm,hl⟩ := h.getLeftNode hw
  obtain ⟨mr,hmr,hr⟩ := h.getRightNode hw
  simp only [Node.calcBalance,hm,hmr,ok_bind,hl.height_eq,hr.height_eq,pure_eq_ok]

lemma Holds.removeOrphan (h : Holds w b n) : n.removeOrphan t = .ok () := by
  have hnode : ∀ (k v : Bytes) (height s : ℤ) (hash lh rh : Option (HashKey D)) (ln rn : Node D)
      (p : Bool) (li : Prop), HashOk w b li hash p →
      (Node.mk k v height s hash lh ln rh rn p).removeOrphan t = .ok () := by
    intro k v height s hash lh rh ln rn p li ho
    cases p with
    | false => rfl
    | true =>
      obtain ⟨h,rfl,_⟩ := ho.stored rfl
      rcases hn : t.ndb with _ | ndb <;> simp [Node.removeOrphan,hn]
  cases b with
  | leaf k v => obtain ⟨v',hash,p,rfl,_,ho⟩ := h; exact hnode _ _ _ _ _ _ _ _ _ _ _ ho
  | inner k l r => obtain ⟨_,hash,lh,ln,rh,rn,p,rfl,ho,_⟩ := h; exact hnode _ _ _ _ _ _ _ _ _ _ _ ho

variable {lh rh : Option (HashKey D)} {ln rn : Node D} {l' r' : Bindings} {lk rk : Bytes}

lemma Fresh.inner (hlt : (inner k l r).height < 2^31)
    (hl : Child w l lh ln) (hr : Child w r rh rn) : Fresh w (.inner k l r) (.mk k []
      (int32 (inner k l r).height) (int32 (inner k l r).size) none lh ln rh rn false) :=
  ⟨⟨hlt,none,lh,ln,rh,rn,false,rfl,⟨by simp,by simp,by simp⟩,hl,hr⟩,rfl,rfl⟩

lemma Holds.copy (h : Holds w (.inner k l r) n) : ∃ n', n.copy = .ok n' ∧ Fresh w (.inner k l r) n' := by
  obtain ⟨hlt,hash,lh,ln,rh,rn,p,rfl,_,hl,hr⟩ := h
  refine ⟨_,?_,.inner hlt hl hr⟩
  simp only [Node.copy,if_neg (int32_height_ne_zero hlt)]

lemma Fresh.parts (h : Fresh w (.inner k l r) n) : Parts w k l r n := by
  obtain ⟨⟨hlt,hash,lh,ln,rh,rn,p,rfl,_,hl,hr⟩,hh,hp⟩ := h
  obtain rfl : hash = none := hh
  obtain rfl : p = false := hp
  exact ⟨_,_,lh,ln,rh,rn,rfl,int32_height_ne_zero hlt,hl,hr⟩

lemma Parts.copy (h : Parts w k l r n) : ∃ n', n.copy = .ok n' ∧ Parts w k l r n' := by
  obtain ⟨height,s,lh,ln,rh,rn,rfl,hz,hl,hr⟩ := h
  refine ⟨.mk k [] height s none lh ln rh rn false,?_,_,_,lh,ln,rh,rn,rfl,hz,hl,hr⟩
  simp only [Node.copy,if_neg hz]

lemma Holds.copy_parts (h : Holds w (.inner k l r) n) : ∃ n', n.copy = .ok n' ∧ Parts w k l r n' := by
  obtain ⟨n',hn',hf⟩ := h.copy
  exact ⟨n',hn',hf.parts⟩

section
variable (h : Parts w k l r n)
include h

lemma Parts.withLeft (hl : Child w l' lh ln) : Parts w k l' r (n.withLeft lh ln) := by
  obtain ⟨height,s,_,_,rh,rn,rfl,hz,_,hr⟩ := h
  exact ⟨height,s,lh,ln,rh,rn,rfl,hz,hl,hr⟩

lemma Parts.withRight (hr : Child w r' rh rn) : Parts w k l r' (n.withRight rh rn) := by
  obtain ⟨height,s,lh,ln,_,_,rfl,hz,hl,_⟩ := h
  exact ⟨height,s,lh,ln,rh,rn,rfl,hz,hl,hr⟩

lemma Parts.withNewKey (o : Option Bytes) : Parts w (o.getD k) l r (n.withNewKey o) := by
  cases o with
  | none => exact h
  | some k' =>
    obtain ⟨height,s,lh,ln,rh,rn,rfl,hz,hl,hr⟩ := h
    exact ⟨height,s,lh,ln,rh,rn,rfl,hz,hl,hr⟩

lemma Parts.leftPart : Child w l n.leftPart.1 n.leftPart.2 := by
  obtain ⟨height,s,lh,ln,rh,rn,rfl,_,hl,_⟩ := h
  exact hl

lemma Parts.rightPart : Child w r n.rightPart.1 n.rightPart.2 := by
  obtain ⟨height,s,lh,ln,rh,rn,rfl,_,_,hr⟩ := h
  exact hr

end

/-- Replacing a child by one of the same height and size needs no recalculation. -/
theorem Fresh.withLeft (h : Fresh w (.inner k l r) n) (hl : Child w l' lh ln)
    (hh : l'.height = l.height) (hs : l'.size = l.size) : Fresh w (.inner k l' r) (n.withLeft lh ln) := by
  obtain ⟨⟨hlt,hash,_,_,rh,rn,p,rfl,_,_,hr⟩,hn,hp⟩ := h
  obtain rfl : hash = none := hn
  obtain rfl : p = false := hp
  have e1 : (LeafTree.inner k l' r).height = (LeafTree.inner k l r).height := by simp only [LeafTree.height,hh]
  have e2 : (LeafTree.inner k l' r).size = (LeafTree.inner k l r).size := by simp only [LeafTree.size,hs]
  have hnode := Fresh.inner (e1 ▸ hlt) hl hr
  rwa [e1,e2] at hnode

lemma Fresh.withRight (h : Fresh w (.inner k l r) n) (hr : Child w r' rh rn)
    (hh : r'.height = r.height) (hs : r'.size = r.size) : Fresh w (.inner k l r') (n.withRight rh rn) := by
  obtain ⟨⟨hlt,hash,lh,ln,_,_,p,rfl,_,hl,_⟩,hn,hp⟩ := h
  obtain rfl : hash = none := hn
  obtain rfl : p = false := hp
  have e1 : (LeafTree.inner k l r').height = (LeafTree.inner k l r).height := by simp only [LeafTree.height,hh]
  have e2 : (LeafTree.inner k l r').size = (LeafTree.inner k l r).size := by simp only [LeafTree.size,hs]
  have hnode := Fresh.inner (e1 ▸ hlt) hl hr
  rwa [e1,e2] at hnode

lemma Parts.calcHeightAndSize (hw : w.Serves t)
    (h : Parts w k l r n) (hlt : (LeafTree.inner k l r).height < 2^31) :
    ∃ n', n.calcHeightAndSize t = .ok n' ∧ Fresh w (.inner k l r) n' := by
  obtain ⟨ml,hm,hh⟩ := h.kids.getLeftNode hw
  obtain ⟨mr,hmr,hhr⟩ := h.kids.getRightNode hw
  obtain ⟨height,size,lh,ln,rh,rn,rfl,_,hl,hr⟩ := h
  have e1 : max (l.height : ℤ) r.height + 1 = ((LeafTree.inner k l r).height : ℤ) := by simp [LeafTree.height]
  have e2 : int32 (int32 l.size + int32 r.size) = int32 (LeafTree.inner k l r).size := by
    rw [int32,int32,int32,Word.wrap_add_wrap,int32,LeafTree.size]
    rfl
  refine ⟨_,?_,.inner hlt hl hr⟩
  simp only [Node.calcHeightAndSize,hm,hmr,ok_bind,hh.height_eq,hhr.height_eq,hh.size_eq,
    hhr.size_eq,pure_eq_ok,e1,e2]

variable {a : Bindings}

lemma rotateRight_spec (hw : w.Serves t) (hc : ∃ n', n.copy = .ok n' ∧ Parts w k (.inner lk a b) r n')
    (hlt : (inner k (.inner lk a b) r).height + 1 < 2^31) :
    ∃ n', n.rotateRight t = .ok n' ∧ Fresh w (.inner lk a (.inner k b r)) n' := by
  simp only [height] at hlt
  obtain ⟨n0,hn0,h⟩ := hc
  obtain ⟨m,hm,hh⟩ := h.kids.getLeftNode hw
  obtain ⟨m',hm',hfm⟩ := hh.copy
  have hp := hfm.parts
  obtain ⟨n1,hn1,hf1⟩ := (h.withLeft hp.rightPart).calcHeightAndSize hw
    (by simp only [height]; omega)
  obtain ⟨n2,hn2,hf2⟩ := (hp.withRight (hf1.1.child n1.hash)).calcHeightAndSize hw
    (by simp only [height]; omega)
  refine ⟨n2,?_,hf2⟩
  simp only [Node.rotateRight,hn0,ok_bind,hm,hh.removeOrphan,hm',hn1,hn2]

lemma rotateLeft_spec (hw : w.Serves t) (hc : ∃ n', n.copy = .ok n' ∧ Parts w k l (.inner rk a b) n')
    (hlt : (inner k l (.inner rk a b)).height + 1 < 2^31) :
    ∃ n', n.rotateLeft t = .ok n' ∧ Fresh w (.inner rk (.inner k l a) b) n' := by
  simp only [height] at hlt
  obtain ⟨n0,hn0,h⟩ := hc
  obtain ⟨m,hm,hh⟩ := h.kids.getRightNode hw
  obtain ⟨m',hm',hfm⟩ := hh.copy
  have hp := hfm.parts
  obtain ⟨n1,hn1,hf1⟩ := (h.withRight hp.leftPart).calcHeightAndSize hw
    (by simp only [height]; omega)
  obtain ⟨n2,hn2,hf2⟩ := (hp.withLeft (hf1.1.child n1.hash)).calcHeightAndSize hw
    (by simp only [height]; omega)
  refine ⟨n2,?_,hf2⟩
  simp only [Node.rotateLeft,hn0,ok_bind,hm,hh.removeOrphan,hm',hn1,hn2]

lemma exists_inner_of_height_pos (h : 0 < b.height) : ∃ k l r, b = .inner k l r := by
  cases b with
  | leaf k v => simp [height] at h
  | inner k l r => exact ⟨k,l,r,rfl⟩

lemma Fresh.balance_left (hw : w.Serves t) (h : Fresh w (.inner k (.inner lk a b) r) n)
    (hlt : (LeafTree.inner k (.inner lk a b) r).height + 2 < 2^31)
    (hs : 1 < ((LeafTree.inner lk a b).height : ℤ) - r.height) :
    ∃ n', n.balance t = .ok n' ∧ Fresh w (LeafTree.balance (.inner k (.inner lk a b) r)) n' := by
  have hp := h.parts
  obtain ⟨m,hm,hl⟩ := hp.kids.getLeftNode hw
  simp only [Node.balance,h.2.2,Bool.false_eq_true,if_false,hp.kids.calcBalance hw,ok_bind,
    if_pos hs,hm,hl.kids.calcBalance hw]
  by_cases hi : 0 ≤ (a.height : ℤ) - b.height
  · rw [if_pos hi,balance_left_left hs hi]
    exact rotateRight_spec hw hp.copy (by omega)
  · obtain ⟨bk,x,y,rfl⟩ := exists_inner_of_height_pos (b:=b) (by omega)
    simp only [LeafTree.height] at hlt
    obtain ⟨m',hm',hf⟩ := rotateLeft_spec hw hl.copy_parts (by simp only [LeafTree.height]; omega)
    rw [if_neg hi,balance_left_right hs hi,hl.removeOrphan,ok_bind,hm',ok_bind]
    exact rotateRight_spec hw (hp.withLeft (hf.1.child none)).copy
      (by simp only [LeafTree.height]; omega)

lemma Fresh.balance_right (hw : w.Serves t) (h : Fresh w (.inner k l (.inner rk a b)) n)
    (hlt : (LeafTree.inner k l (.inner rk a b)).height + 2 < 2^31)
    (hs : (l.height : ℤ) - (LeafTree.inner rk a b).height < -1) :
    ∃ n', n.balance t = .ok n' ∧ Fresh w (LeafTree.balance (.inner k l (.inner rk a b))) n' := by
  have hp := h.parts
  have hn : ¬1 < (l.height : ℤ) - (LeafTree.inner rk a b).height := by omega
  obtain ⟨m,hm,hr⟩ := hp.kids.getRightNode hw
  simp only [Node.balance,h.2.2,Bool.false_eq_true,if_false,hp.kids.calcBalance hw,ok_bind,
    if_neg hn,if_pos hs,hm,hr.kids.calcBalance hw]
  by_cases hi : (a.height : ℤ) - b.height ≤ 0
  · rw [if_pos hi,balance_right_right hs hi]
    exact rotateLeft_spec hw hp.copy (by omega)
  · obtain ⟨ak,x,y,rfl⟩ := exists_inner_of_height_pos (b:=a) (by omega)
    simp only [LeafTree.height] at hlt
    obtain ⟨m',hm',hf⟩ := rotateRight_spec hw hr.copy_parts (by simp only [LeafTree.height]; omega)
    rw [if_neg hi,balance_right_left hs hi,hr.removeOrphan,ok_bind,hm',ok_bind]
    exact rotateLeft_spec hw (hp.withRight (hf.1.child none)).copy
      (by simp only [LeafTree.height]; omega)

lemma Fresh.balance (hw : w.Serves t)
    (h : Fresh w (.inner k l r) n) (hlt : (LeafTree.inner k l r).height + 2 < 2^31) :
    ∃ n', n.balance t = .ok n' ∧ Fresh w (LeafTree.balance (.inner k l r)) n' := by
  by_cases hl : 1 < (l.height : ℤ) - r.height
  · obtain ⟨lk,a,b,rfl⟩ := exists_inner_of_height_pos (b:=l) (by omega)
    exact h.balance_left hw hlt hl
  by_cases hr : (l.height : ℤ) - r.height < -1
  · obtain ⟨rk,a,b,rfl⟩ := exists_inner_of_height_pos (b:=r) (by omega)
    exact h.balance_right hw hlt hr
  refine ⟨n,?_,?_⟩
  · simp only [Node.balance,h.2.2,Bool.false_eq_true,if_false,h.parts.kids.calcBalance hw,ok_bind,
      if_neg hl,if_neg hr,pure_eq_ok]
  · rw [LeafTree.balance_of_even k (by omega) (by omega)]
    exact h

end

end Dpos.Mavl
