import Dpos.MavlSave

/-! Runs of a tree: insertions, removals, and saves followed by a reload from the
node database. Every state of a run stands for an ordered, balanced search tree
with the live keys, as long as no height can leave int32. -/
namespace Dpos.Mavl

open LeafTree List

variable {m : Option Bindings}

variable {D : Type}

/-- The nodes of a tree with their stored fields, children fetched where needed. -/
inductive Shape
  | leaf (key value : Bytes) (height size : ℤ)
  | inner (key : Bytes) (height size : ℤ) (left right : Shape)
  deriving DecidableEq, Repr

namespace Shape

def keys : Shape → List Bytes
  | .leaf k _ _ _ => [k]
  | .inner _ _ _ l r => l.keys ++ r.keys

def realHeight : Shape → ℕ
  | .leaf _ _ _ _ => 0
  | .inner _ _ _ l r => max l.realHeight r.realHeight + 1

def leafCount : Shape → ℕ
  | .leaf _ _ _ _ => 1
  | .inner _ _ _ l r => l.leafCount + r.leafCount

def height : Shape → ℤ
  | .leaf _ _ h _ => h
  | .inner _ h _ _ _ => h

def size : Shape → ℤ
  | .leaf _ _ _ s => s
  | .inner _ _ s _ _ => s

/-- Stored heights and sizes are the real ones, separators are least keys, and
the two children of a node differ in height by at most one. -/
def NodesOk : Shape → Prop
  | .leaf k v h s => h = (leaf k v h s).realHeight ∧ s = (leaf k v h s).leafCount
  | .inner k h s l r => l.NodesOk ∧ r.NodesOk ∧ IsLeast {x | x ∈ r.keys} k ∧
      h = (inner k h s l r).realHeight ∧ s = (inner k h s l r).leafCount ∧
      |(l.realHeight : ℤ) - r.realHeight| ≤ 1

structure Valid (s : Shape) : Prop where
  sorted : s.keys.Pairwise (· < ·)
  nodes : s.NodesOk

end Shape

def Node.shape (t : Tree D) : ℕ → Node D → Result Shape
  | 0, _ => .error .depth
  | _+1, .nil => .error .nilPointer
  | n+1, .mk k v height size hash lh ln rh rn p => do
    let node := Node.mk k v height size hash lh ln rh rn p
    if height = 0 then return .leaf k v height size
    else
      let left ← Node.shape t n (← node.getLeftNode t)
      let right ← Node.shape t n (← node.getRightNode t)
      return .inner k height size left right

def Tree.shape (t : Tree D) : Result (Option Shape) := do
  match t.root with
  | .nil => return none
  | root => return some (← root.shape t maxDepth)

/-- The shape shows the bindings, each with its height and size as int32. -/
def Shows (w : View D) : Bindings → Shape → Prop
  | .leaf k v, s => ∃ v', s = .leaf k v' 0 1 ∧ Reads w (some v) v'
  | .inner k l r, s => ∃ sl sr, s = .inner k (int32 (inner k l r).height)
      (int32 (inner k l r).size) sl sr ∧ Shows w l sl ∧ Shows w r sr

variable {b : Bindings} {s : Shape}

section Shape
variable {w : View D} {t : Tree D}

lemma Holds.shape (hw : w.Serves t) {n : Node D} (h : Holds w b n) {fu : ℕ}
    (hf : b.height < fu) : ∃ s, n.shape t fu = .ok s ∧ Shows w b s := by
  induction b generalizing n fu with
  | leaf k v =>
    obtain ⟨fu,rfl⟩ := exists_fuel hf
    obtain ⟨v',hash,p,rfl,hv,ho⟩ := h
    exact ⟨.leaf k v' 0 1,rfl,v',rfl,reads_leaf hv ho⟩
  | inner k l r ihl ihr =>
    obtain ⟨fu,rfl,hh,hhr⟩ := exists_fuel_inner hf
    obtain ⟨ml,hml,hl⟩ := h.kids.getLeftNode hw
    obtain ⟨mr,hmr,hr⟩ := h.kids.getRightNode hw
    obtain ⟨sl,hsl,hs⟩ := ihl hl (by omega : l.height < fu)
    obtain ⟨sr,hsr,hsh⟩ := ihr hr (by omega : r.height < fu)
    have hz := int32_height_ne_zero h.1
    obtain ⟨_,hash,lh,ln,rh,rn,p,rfl,_⟩ := h
    refine ⟨_,?_,sl,sr,rfl,hs,hsh⟩
    simp only [Node.shape,if_neg hz,hml,hmr,ok_bind,hsl,hsr,pure_eq_ok]

section
variable (h : Shows w b s)
include h

lemma Shows.keys_eq : s.keys = b.keys := by
  induction b generalizing s with
  | leaf k v => obtain ⟨v',rfl,_⟩ := h; rfl
  | inner k l r ihl ihr =>
    obtain ⟨sl,sr,rfl,hl,hr⟩ := h
    rw [keys_inner,Shape.keys,ihl hl,ihr hr]

lemma Shows.realHeight_eq : s.realHeight = b.height := by
  induction b generalizing s with
  | leaf k v => obtain ⟨v',rfl,_⟩ := h; rfl
  | inner k l r ihl ihr =>
    obtain ⟨sl,sr,rfl,hl,hr⟩ := h
    rw [Shape.realHeight,ihl hl,ihr hr,height]

lemma Shows.leafCount_eq : s.leafCount = b.size := by
  induction b generalizing s with
  | leaf k v => obtain ⟨v',rfl,_⟩ := h; rfl
  | inner k l r ihl ihr =>
    obtain ⟨sl,sr,rfl,hl,hr⟩ := h
    rw [Shape.leafCount,ihl hl,ihr hr,size]

lemma Shows.size_eq : s.size = int32 b.size := by
  cases b with
  | leaf k v =>
    obtain ⟨v',rfl,_⟩ := h
    rw [int32_size_leaf,Shape.size]
  | inner k l r => obtain ⟨sl,sr,rfl,hl,hr⟩ := h; rw [Shape.size]

lemma Shows.valid (ho : b.Ordered) (hb : b.Balanced) (hh : b.height < 2^31)
    (hs : b.size < 2^31) : s.Valid := by
  refine ⟨h.keys_eq ▸ ho.sorted,?_⟩
  induction b generalizing s with
  | leaf k v =>
    obtain ⟨v',rfl,_⟩ := h
    exact ⟨rfl,rfl⟩
  | inner k l r ihl ihr =>
    have hhr := height_right_lt k l r
    have hh' := int32_height hh
    have hs' : int32 (inner k l r).size = (inner k l r).size :=
      Word.wrap_eq_self (by constructor <;> push_cast <;> omega)
    have hsh := h.realHeight_eq
    have hsc := h.leafCount_eq
    have hmi : IsLeast {x | x ∈ r.keys} k :=
      ⟨by rw [← ho.2.2.2]; exact r.minKey_mem,fun x hx => le_of_mem_right ho x hx⟩
    obtain ⟨sl,sr,rfl,hl,hr⟩ := h
    obtain ⟨hbl,hbr,h1,h2⟩ := hb
    simp only [size] at hs
    refine ⟨ihl hl ho.1 hbl (by omega) (by omega),ihr hr ho.2.1 hbr (by omega) (by omega),
      hr.keys_eq ▸ hmi,?_,?_,?_⟩
    · rw [hsh,hh']
    · rw [hsc,hs']
    · rw [hl.realHeight_eq,hr.realHeight_eq,abs_le]
      omega

end

end Shape

/-- The first height that the int32 field cannot tell. -/
@[irreducible] def heightLimit : ℕ := 2^31

/-- No balanced tree with fewer keys is too high for the height field. -/
@[irreducible] def capacity : ℕ := Nat.fib (heightLimit-1)

lemma heightLimit_eq : heightLimit = 2^31 := by rw [heightLimit]

lemma height_of_size_lt (hb : b.Balanced) (hs : b.size < capacity) : b.height+3 < 2^31 := by
  by_contra hh
  have hf := fib_le_size hb
  have hl : heightLimit-1 ≤ b.height+2 := by
    rw [heightLimit_eq]
    omega
  have hmn := Nat.fib_mono hl
  rw [capacity] at hs
  omega

lemma two_pow_lt_capacity : 2^32 < capacity := by
  have hl : 50 ≤ heightLimit-1 := by
    rw [heightLimit_eq]
    norm_num
  have hmn := Nat.fib_mono hl
  have hf : Nat.fib 50 = 12586269025 := by decide +kernel
  rw [capacity]
  omega

def Rep (w : View D) (n : Node D) : Option Bindings → Prop
  | none => n = .nil
  | some b => Holds w b n

/-- A map whose tree cannot be too high. -/
def Fits (m : Option Bindings) : Prop := WellFormed m ∧ (contents m).length < capacity

lemma Fits.height (h : Fits (some b)) : b.height+3 < 2^31 :=
  height_of_size_lt (h.1 b rfl).2 (by simpa using h.2)

lemma Fits.height_lt_maxDepth (h : Fits (some b)) : b.height < maxDepth := by
  have := h.height
  rw [maxDepth]
  omega

section
variable {w : View D} {t : Tree D}

section
variable (hw : w.Serves t) (h : Rep w t.root m) (hm : Fits m)
include hw h hm

lemma Tree.set_spec (k v : Bytes) : ∃ n, t.set k v = .ok ({t with root := n},(insert k v m).2) ∧
      Fresh w (insert k v m).1 n := by
  cases m with
  | none =>
    obtain h : t.root = .nil := h
    exact ⟨.new k v,by simp only [Tree.set,h]; rfl,Fresh.new w k v⟩
  | some b =>
    obtain ⟨n,hn,hf⟩ := Holds.set hw k v (hm.1 b rfl).2 h hm.height_lt_maxDepth hm.height
    refine ⟨n,?_,hf⟩
    have hne := Holds.ne_nil h
    cases hr : t.root with
    | nil => exact absurd hr hne
    | mk =>
      rw [hr] at hn
      simp only [Tree.set,hr,hn,ok_bind]
      rfl

lemma Tree.remove_spec (k : Bytes) :
    ∃ n v', t.remove k = .ok ({t with root := n},v',(LeafTree.delete k m).isSome) ∧
      Rep w n (LeafTree.erase k m) ∧ Reads w ((LeafTree.delete k m).map Removed.value) v' := by
  cases m with
  | none =>
    obtain h : t.root = .nil := h
    exact ⟨.nil,[],by simp only [Tree.remove,h]; rw [← h]; rfl,rfl,rfl⟩
  | some b =>
    have hlt := hm.height
    obtain ⟨r,hr,hrm⟩ := Holds.remove hw k (hm.1 b rfl).2 h hm.height_lt_maxDepth (by omega)
    have hro : t.remove k = (do
        if r.removed = false then return (t,[],false)
        else if r.newNode.isNil ∧ r.newHash ≠ none then
          return ({t with root := ← getNode t r.newHash},r.value,true)
        else return ({t with root := r.newNode},r.value,true)) := by
      have hne := Holds.ne_nil h
      cases hq : t.root with
      | nil => exact absurd hq hne
      | mk =>
        rw [hq] at hr
        simp only [Tree.remove,hq,hr,ok_bind]
    rw [hro]
    simp only [LeafTree.erase,LeafTree.delete,Option.bind_some]
    rcases hd : LeafTree.remove k b with _ | d <;> rw [hd] at hrm
    · exact ⟨t.root,[],by simp only [hrm.1,if_true]; rfl,h,rfl⟩
    obtain ⟨hr1,_,hr3,hr4⟩ := hrm
    simp only [hr1,Bool.true_eq_false,if_false,Node.isNil_iff]
    rcases hdt : d.tree with _ | u <;> rw [hdt] at hr4
    · -- the last leaf was removed
      refine ⟨.nil,r.value,?_,rfl,hr3⟩
      rw [if_neg (by simp [hr4.1]),hr4.2]
      rfl
    · rcases hr4 with ⟨hne,hh⟩ | ⟨hn,hk,hh,hs⟩
      · exact ⟨r.newNode,r.value,by rw [if_neg (by simp [hne])]; rfl,hh,hr3⟩
      · obtain ⟨n,hn',hh'⟩ := hw u hk hs
        exact ⟨n,r.value,by rw [if_pos (by simp [hn,hh]),hh,hn']; rfl,hh',hr3⟩

lemma Tree.shape_spec : ∃ o, t.shape = .ok o ∧ Option.Rel (Shows w) m o := by
  cases m with
  | none =>
    obtain h : t.root = .nil := h
    exact ⟨none,by simp only [Tree.shape,h]; rfl,.none⟩
  | some b =>
    obtain ⟨s,hs,hsh⟩ := Holds.shape hw h hm.height_lt_maxDepth
    refine ⟨some s,?_,.some hsh⟩
    have hne := Holds.ne_nil h
    cases hr : t.root with
    | nil => exact absurd hr hne
    | mk =>
      rw [hr] at hs
      simp only [Tree.shape,hr,hs,ok_bind]
      rfl

end

end

/-- The root hash stands for the map; the empty map has two root hashes. -/
def StoredMap (c : Codec D) (config : Option TreeConfig) (db : HashKey D → Option (StoreNode D)) :
    Option Bindings → Option (HashKey D) → Prop
  | none, h => h = none ∨ h = some ⟨[],c.emptyRoot⟩
  | some b, h => ∃ hk, h = some hk ∧ Stored c config db b hk

section
variable [DecidableEq D] {c : Codec D} {config : Option TreeConfig} {t : Tree D}
  {db db' : HashKey D → Option (StoreNode D)} {n : ℕ}

omit [DecidableEq D] in
lemma StoredMap.extend (he : Extends c config db db') (hm : WellFormed m)
    {h : Option (HashKey D)} (hs : StoredMap c config db m h) : StoredMap c config db' m h := by
  cases m with
  | none => exact hs
  | some b =>
    obtain ⟨hk,rfl,hst⟩ := hs
    exact ⟨hk,rfl,he b hk (hm b rfl).1 hst⟩

/-- Saving a tree stores its bindings under the root hash, which is the memoised one
if there is one. -/
theorem Tree.save_in (hc : c.Ideal) (hn : t.ndb = some ⟨db,some []⟩)
    (h : Holds (storeView c t.config db) b t.root) (hm : Fits (some b)) {P : Bindings → Prop}
    (hP : Closed P) (hPb : P b) :
    ∃ t' ba hk, t.save c = .ok (t',some hk) ∧ t'.ndb = some ⟨NodeDB.write db ba,none⟩ ∧
      (∀ h0, t.root.hash = some h0 → hk = h0) ∧ SavedIn c t.config P db b hk [] ba ∧
      Holds (storeView c t.config (NodeDB.write db ba)) b t'.root ∧ t'.config = t.config := by
  have hne := Holds.ne_nil h
  have hh0 : Holds (storeView c t.config (NodeDB.write db [])) b t.root := h
  obtain ⟨n,hk,ba,hs,hh,hme,hsa,hho⟩ := hh0.save hc hne hP hPb (hm.1 b rfl).1 hm.height_lt_maxDepth
  refine ⟨{t with root := n, ndb := some ⟨NodeDB.write db ba,none⟩},ba,hk,?_,rfl,hme,hsa,hho,rfl⟩
  cases hr : t.root with
  | nil => exact absurd hr hne
  | mk =>
    rw [hr] at hs
    simp only [Tree.save,hr,hn,hs,ok_bind,hh]
    rfl

lemma Tree.save_pre {t' : Tree D} {hk : HashKey D} (hsave : t.save c = .ok (t',some hk))
    (hr : ∀ h, t.root.hash = some h → h.pre = []) : hk.pre = [] := by
  obtain ⟨r,ndb,bh,config⟩ := t
  cases r with
  | nil => simp [Tree.save] at hsave
  | mk k v height si hash lh ln rh rn p =>
    cases ndb with
    | none =>
      simp only [Tree.save,pure_eq_ok,Except.ok.injEq,Prod.mk.injEq] at hsave
      exact hr hk hsave.2
    | some ndb =>
      obtain ⟨⟨n,ba⟩,hn,hsave⟩ := bind_eq_ok.mp hsave
      cases ba with
      | none => simp at hsave
      | some ba =>
        simp only [pure_eq_ok,Except.ok.injEq,Prod.mk.injEq] at hsave
        obtain ⟨m,h,hh,hs⟩ := Node.save_hash hn
        exact Node.hashNode_pre rfl hr hh (hs ▸ hsave.2)

def Within (n : ℕ) (b : Bindings) : Prop := b.Ordered ∧ b.Balanced ∧ b.size ≤ n

lemma closed_within (n : ℕ) : Closed (Within n) := by
  rintro k l r ⟨ho,hb,hs⟩
  rw [size] at hs
  exact ⟨⟨ho.1,hb.1,by omega⟩,⟨ho.2.1,hb.2.1,by omega⟩⟩

lemma Within.mono {n' : ℕ} (h : n ≤ n') (hb : Within n b) : Within n' b := ⟨hb.1,hb.2.1,hb.2.2.trans h⟩

lemma Within.fits (hb : Within n b) (hn : n < capacity) : Fits (some b) := by
  refine ⟨?_,by simpa using hb.2.2.trans_lt hn⟩
  rintro _ ⟨rfl⟩
  exact ⟨hb.1,hb.2.1⟩

/-- Saving a tree stores its map under the root hash, keeps what was stored and writes
nothing else. -/
theorem Tree.save_spec (hc : c.Ideal) (hn : t.ndb = some ⟨db,some []⟩)
    (h : Rep (storeView c t.config db) t.root m) (hm : Fits m) :
    ∃ t' ndb hash, t.save c = .ok (t',hash) ∧ t'.ndb = some ndb ∧
      Extends c t.config db ndb.db ∧ StoredMap c t.config ndb.db m hash ∧
      ∀ n, (contents m).length ≤ n → Sound c t.config (Within n) db → Sound c t.config (Within n) ndb.db := by
  cases m with
  | none =>
    obtain h : t.root = .nil := h
    exact ⟨t,_,none,by simp only [Tree.save,h]; rfl,hn,Extends.refl _,.inl rfl,fun _ _ => id⟩
  | some b =>
    have hwi : ∀ n, (contents (some b)).length ≤ n → Within n b := by
      intro n hn
      rw [contents_some,length_toList] at hn
      exact ⟨(hm.1 b rfl).1,(hm.1 b rfl).2,hn⟩
    obtain ⟨t',ba,hk,hsave,hnd,_,hs,_⟩ := t.save_in hc hn h hm (closed_within _) (hwi _ (le_refl _))
    refine ⟨t',_,some hk,hsave,hnd,hs.extends_,⟨hk,rfl,hs.stored⟩,fun n hl => ?_⟩
    -- the batch is the same whatever bound is asked for
    obtain ⟨t'',ba',hk',hsave',hnd',_,hs',_⟩ := t.save_in hc hn h hm (closed_within n) (hwi n hl)
    obtain rfl : t' = t'' := by
      have := hsave.symm.trans hsave'
      simp only [Except.ok.injEq,Prod.mk.injEq] at this
      exact this.1
    have hdb : NodeDB.write db ba = NodeDB.write db ba' := by simpa using hnd.symm.trans hnd'
    rw [hdb]
    exact hs'.sound

lemma Tree.load_spec (hc : c.Ideal) {ndb : NodeDB D} (hn : t.ndb = some ndb)
    (hr : t.root = .nil) (hm : WellFormed m) {hash : Option (HashKey D)}
    (hs : StoredMap c config ndb.db m hash) :
    ∃ n, t.load c hash = .ok {t with root := n} ∧ Rep (storeView c config ndb.db) n m ∧
      ∀ h, n.hash = some h → hash = some h := by
  cases m with
  | none =>
    refine ⟨.nil,?_,rfl,by simp [Node.hash]⟩
    rcases hs with rfl | rfl <;> simp only [Tree.load] <;> rw [← hr] <;> rfl
  | some b =>
    obtain ⟨hk,rfl,hst⟩ := hs
    have hw : (storeView c config ndb.db).Serves t := storeView_serves hn
    obtain ⟨n,hn',hh⟩ := hw b hk ⟨(hm b rfl).1,hst⟩
    have hne : hk ≠ ⟨[],c.emptyRoot⟩ := by
      rintro rfl
      exact digestOf_ne_emptyRoot hc b hst.digest.symm
    refine ⟨n,by simp only [Tree.load,if_neg hne,hn',ok_bind]; rfl,hh,fun h hh => ?_⟩
    rw [← hh,getNode_hash hn']

/-- Save the tree, then load its root into a new one over the same database. -/
def Tree.saveReload (c : Codec D) (blockHeight : ℤ) (t : Tree D) : Result (Tree D) := do
  let (t',hash) ← t.save c
  match t'.ndb with
  | none => .error .nilPointer
  | some ndb => ((Tree.new ndb.db t.config).setBlockHeight blockHeight).load c hash

structure Backed (c : Codec D) (t : Tree D) (m : Option Bindings)
    (db : HashKey D → Option (StoreNode D)) : Prop where
  ndb : t.ndb = some ⟨db,some []⟩
  rep : Rep (storeView c t.config db) t.root m

lemma Backed.saveReload (hc : c.Ideal) (h : Backed c t m db) (hm : Fits m) (bh : ℤ) :
    ∃ t' db', t.saveReload c bh = .ok t' ∧ t'.config = t.config ∧ Backed c t' m db' := by
  obtain ⟨t1,ndb,hash,hsave,hn,_,hs,_⟩ := t.save_spec hc h.ndb h.rep hm
  obtain ⟨n,hl,hr,_⟩ := ((Tree.new ndb.db t.config).setBlockHeight bh).load_spec hc
    (rfl : _ = some (NodeDB.mk ndb.db (some []))) rfl hm.1 hs
  refine ⟨⟨n,some ⟨ndb.db,some []⟩,bh,t.config⟩,ndb.db,?_,rfl,rfl,hr⟩
  simp only [Tree.saveReload,hsave,ok_bind,hn,hl]
  rfl

end

inductive Edit
  | set (key value : Bytes)
  | remove (key : Bytes)
  deriving DecidableEq, Repr

inductive Op
  | edit (e : Edit)
  | saveReload (blockHeight : ℤ)
  deriving DecidableEq, Repr

namespace Tree

def edit (t : Tree D) : Edit → Result (Tree D)
  | .set key value => return (← t.set key value).1
  | .remove key => return (← t.remove key).1

def edits (t : Tree D) (es : List Edit) : Result (Tree D) := es.foldlM edit t

def step [DecidableEq D] (c : Codec D) (t : Tree D) : Op → Result (Tree D)
  | .edit e => t.edit e
  | .saveReload blockHeight => t.saveReload c blockHeight

def run [DecidableEq D] (c : Codec D) (t : Tree D) (ops : List Op) : Result (Tree D) := ops.foldlM (step c) t

end Tree

def Edit.apply (f : Finmap fun _ : Bytes => Bytes) : Edit → Finmap fun _ : Bytes => Bytes
  | .set key value => f.insert key value
  | .remove key => f.erase key

def finalMap (es : List Edit) : Finmap fun _ : Bytes => Bytes := es.foldl Edit.apply ∅

def Op.edits (ops : List Op) : List Edit :=
  ops.filterMap fun
    | .edit e => some e
    | .saveReload _ => none

def liveKeys (es : List Edit) : Finset Bytes := (finalMap es).keys

lemma finalMap_append (es : List Edit) (e : Edit) : finalMap (es ++ [e]) = e.apply (finalMap es) := by
  simp [finalMap]

variable {f : Finmap fun _ : Bytes => Bytes} {w : View D} {t : Tree D}

lemma fits_of_card (hm : WellFormed m)
    (hf : Models m f) (hc : f.keys.card < capacity) : Fits m := ⟨hm,hf.card hm ▸ hc⟩

lemma Tree.edit_spec (hw : w.Serves t) (h : Rep w t.root m) (hm : Fits m) (hf : Models m f) (e : Edit) :
    ∃ n m', t.edit e = .ok {t with root := n} ∧ Rep w n m' ∧ WellFormed m' ∧
      Models m' (e.apply f) := by
  cases e with
  | set k v =>
    obtain ⟨n,hn,hr⟩ := t.set_spec hw h hm k v
    exact ⟨n,some (insert k v m).1,by simp only [Tree.edit,hn,ok_bind]; rfl,hr.1,
      hm.1.insert k v,hf.insert hm.1 k v⟩
  | remove k =>
    obtain ⟨n,v',hn,hr,_⟩ := t.remove_spec hw h hm k
    exact ⟨n,_,by simp only [Tree.edit,hn,ok_bind]; rfl,hr,hm.1.erase k,hf.erase hm.1 k⟩

lemma Tree.edits_spec (hw : w.Serves t) (ht : t.root = .nil)
    (es : List Edit) (hl : ∀ pre, pre <+: es → (liveKeys pre).card < capacity) :
    ∃ n m, t.edits es = .ok {t with root := n} ∧ Rep w n m ∧ Fits m ∧ Models m (finalMap es) := by
  induction es using reverseRecOn with
  | nil =>
    refine ⟨.nil,none,by rw [← ht]; rfl,rfl,fits_of_card (by simp [WellFormed]) models_empty ?_,models_empty⟩
    exact hl [] (prefix_refl _)
  | append_singleton es e ih =>
    obtain ⟨n,m,hrun,hr,hf,hmo⟩ := ih fun pre hp => hl pre (hp.trans (prefix_append _ _))
    obtain ⟨n',m',hs,hr',hwf',hmo'⟩ := Tree.edit_spec (t:={t with root := n}) hw hr hf hmo e
    rw [← finalMap_append] at hmo'
    refine ⟨n',m',?_,hr',fits_of_card hwf' hmo' (hl _ (prefix_refl _)),hmo'⟩
    simp only [Tree.edits] at hrun ⊢
    simp only [foldlM_append,hrun,ok_bind,foldlM_cons,foldlM_nil,hs,pure_eq_ok]

section
variable [DecidableEq D] {c : Codec D}

lemma Backed.step (hc : c.Ideal) {t : Tree D} {m : Option Bindings}
    {db : HashKey D → Option (StoreNode D)} (h : Backed c t m db) (hm : Fits m)
    {es : List Edit} (hf : Models m (finalMap es)) (op : Op) :
    ∃ t' m' db', t.step c op = .ok t' ∧ t'.config = t.config ∧ Backed c t' m' db' ∧ WellFormed m' ∧
      Models m' (finalMap (es ++ Op.edits [op])) := by
  cases op with
  | edit e =>
    obtain ⟨n,m',hs,hr,hwf,hmo⟩ := t.edit_spec (storeView_serves h.ndb) h.rep hm hf e
    refine ⟨_,m',db,hs,rfl,⟨h.ndb,hr⟩,hwf,?_⟩
    rw [← finalMap_append] at hmo
    exact hmo
  | saveReload bh =>
    obtain ⟨t',db',hs,hco,hb⟩ := h.saveReload hc hm bh
    exact ⟨t',m,db',hs,hco,hb,hm.1,by simpa [Op.edits] using hf⟩

/-- Every run keeps a tree for the live keys. -/
theorem run_spec (hc : c.Ideal) (db : HashKey D → Option (StoreNode D)) (config : Option TreeConfig)
    (bh : ℤ) (ops : List Op) (hl : ∀ pre, pre <+: ops → (liveKeys (Op.edits pre)).card < capacity) :
    ∃ t m db', ((Tree.new db config).setBlockHeight bh).run c ops = .ok t ∧
      t.config = config ∧ Backed c t m db' ∧ Fits m ∧ Models m (finalMap (Op.edits ops)) := by
  induction ops using reverseRecOn with
  | nil =>
    refine ⟨_,none,db,rfl,rfl,⟨rfl,rfl⟩,fits_of_card (by simp [WellFormed]) models_empty ?_,models_empty⟩
    exact hl [] (prefix_refl _)
  | append_singleton ops op ih =>
    obtain ⟨t,m,db1,hrun,hco,hb,hf,hmo⟩ := ih fun pre hp => hl pre (hp.trans (prefix_append _ _))
    obtain ⟨t',m',db2,hs,hco',hb',hwf',hmo'⟩ := hb.step hc hf hmo op
    have ha : Op.edits ops ++ Op.edits [op] = Op.edits (ops ++ [op]) := by simp [Op.edits,filterMap_append]
    rw [ha] at hmo'
    refine ⟨t',m',db2,?_,hco'.trans hco,hb',fits_of_card hwf' hmo' (hl _ (prefix_refl _)),hmo'⟩
    simp only [Tree.run] at hrun ⊢
    simp only [foldlM_append,hrun,ok_bind,foldlM_cons,foldlM_nil,hs,pure_eq_ok]

end

variable (n : ℕ) (es : List Edit) (k : Bytes)

lemma liveKeys_append_set (v : Bytes) : liveKeys (es ++ [.set k v]) = Insert.insert k (liveKeys es) := by
  ext x
  simp [liveKeys,finalMap_append,Edit.apply,Finmap.mem_keys,Finmap.mem_insert]

lemma liveKeys_append_remove : liveKeys (es ++ [.remove k]) = (liveKeys es).erase k := by
  ext x
  simp [liveKeys,finalMap_append,Edit.apply,Finmap.mem_keys]

lemma card_liveKeys_le : (liveKeys es).card ≤ es.length := by
  induction es using reverseRecOn with
  | nil => simp [liveKeys,finalMap]
  | append_singleton es e ih =>
    rw [length_append,length_singleton]
    cases e with
    | set k v =>
      rw [liveKeys_append_set]
      exact (Finset.card_insert_le _ _).trans (by omega)
    | remove k =>
      rw [liveKeys_append_remove]
      exact (Finset.card_le_card (Finset.erase_subset _ _)).trans (by omega)

/-- Bind the keys of `0`, `1`, … zero bytes. -/
def distinctSets (n : ℕ) : List Edit := (range n).map fun i => .set (replicate i 0) []

lemma liveKeys_distinctSets : liveKeys (distinctSets n) = (Finset.range n).image fun i => replicate i 0 := by
  induction n with
  | zero => simp [distinctSets,liveKeys,finalMap]
  | succ n ih =>
    rw [distinctSets,range_succ,map_append,map_singleton,← distinctSets,
      liveKeys_append_set,ih,Finset.range_add_one,Finset.image_insert]

lemma card_liveKeys_distinctSets : (liveKeys (distinctSets n)).card = n := by
  rw [liveKeys_distinctSets,Finset.card_image_of_injective,Finset.card_range]
  intro i j hi
  simpa using congrArg length hi

lemma edits_map_edit : Op.edits (es.map Op.edit) = es := by
  induction es with
  | nil => rfl
  | cons e es ih => simp [Op.edits]

lemma Shape.NodesOk.size_eq (h : s.NodesOk) : s.size = s.leafCount := by
  cases s with
  | leaf k v h' s' => exact h.2
  | inner k h' s' l r => exact h.2.2.2.2.1

/-- Through every run of insertions, removals, saves and reloads that keeps fewer
than `2^31` keys, no panic is reached and the tree has all its invariants. -/
theorem run_valid [DecidableEq D] {c : Codec D} (hc : c.Ideal)
    (db : HashKey D → Option (StoreNode D)) (config : Option TreeConfig) (blockHeight : ℤ)
    (ops : List Op) (hl : ∀ pre, pre <+: ops → (liveKeys (Op.edits pre)).card < 2^31) :
    ∃ t o, ((Tree.new db config).setBlockHeight blockHeight).run c ops = .ok t ∧
      t.shape = .ok o ∧ (∀ s ∈ o, s.Valid) ∧ ∀ k, k ∈ o.elim [] Shape.keys ↔ k ∈ liveKeys (Op.edits ops) := by
  obtain ⟨t,m,db',hrun,_,hb,hf,hmo⟩ := run_spec hc db config blockHeight ops
    fun pre hp => (hl pre hp).trans (two_pow_lt_capacity.trans' (by norm_num))
  have hca := hmo.card hf.1
  have hlt := hl ops (prefix_refl _)
  obtain ⟨o,ho,hso⟩ := t.shape_spec (storeView_serves hb.ndb) hb.rep hf
  refine ⟨t,o,hrun,ho,?_,?_⟩
  · rintro s ⟨rfl⟩
    cases hso with
    | @some b _ hs =>
      obtain ⟨hor,hba⟩ := hf.1 b rfl
      have hh := hf.height
      rw [liveKeys,hca,contents_some,length_toList] at hlt
      exact hs.valid hor hba (by omega) hlt
  · intro k
    rw [liveKeys,hmo.mem_keys]
    cases hso with
    | none => rfl
    | some hs => rw [Option.elim_some,hs.keys_eq]; rfl

/-- The run that binds three keys, saves, reloads and removes one of them. -/
theorem run_valid_roundTrip :
    ∃ t o, ((Tree.new (fun _ => none) (some ⟨true,true⟩)).setBlockHeight 1).run Codec.framed [.edit (.set [1] [2]),
        .edit (.set [3] [4]),.edit (.set [5] [6]),.saveReload 2,.edit (.remove [1])] = .ok t ∧
      t.shape = .ok o ∧ (∀ s ∈ o, s.Valid) ∧ ∀ k, k ∈ o.elim [] Shape.keys ↔ k = [3] ∨ k = [5] := by
  have hk : liveKeys (Op.edits [.edit (.set [1] [2]),.edit (.set [3] [4]),.edit (.set [5] [6]),.saveReload 2,
      .edit (.remove [1])]) = {[3],[5]} := by decide +kernel
  obtain ⟨t,o,hrun,ho,hv,hm⟩ := run_valid Codec.framed_ideal (fun _ => none) (some ⟨true,true⟩) 1
    [.edit (.set [1] [2]),.edit (.set [3] [4]),.edit (.set [5] [6]),.saveReload 2,.edit (.remove [1])] (by
      intro pre hp
      have hl := card_liveKeys_le (Op.edits pre)
      have hl' : (Op.edits pre).length ≤ pre.length := length_filterMap_le _ _
      have hln := hp.length_le
      simp only [length_cons,length_nil] at hln
      omega)
  exact ⟨t,o,hrun,ho,hv,fun k => by rw [hm,hk,Finset.mem_insert,Finset.mem_singleton]⟩

/-- With `2^31` keys the size field of the root has wrapped around. -/
theorem run_distinctSets_not_valid : ¬∃ t o, (Tree.new (fun _ => none) none).run Codec.framed
        ((distinctSets (2^31)).map .edit) = .ok t ∧ t.shape = .ok o ∧ ∀ s ∈ o, s.Valid := by
  generalize hn : 2^31 = n
  rintro ⟨t,o,hrun,ho,hv⟩
  have hcp := two_pow_lt_capacity
  obtain ⟨t',m,db',hrun',_,hb,hf,hmo⟩ := run_spec Codec.framed_ideal (fun _ => none) none 0
    ((distinctSets n).map .edit) (by
      intro pre hp
      have hl := hp.length_le
      have hle := card_liveKeys_le (Op.edits pre)
      have hle' : (Op.edits pre).length ≤ pre.length := length_filterMap_le _ _
      simp only [distinctSets,length_map,length_range] at hl
      omega)
  obtain rfl : t = t' := by simpa using hrun.symm.trans hrun'
  obtain ⟨o',ho',hso⟩ := t.shape_spec (storeView_serves hb.ndb) hb.rep hf
  obtain rfl : o = o' := by simpa using ho.symm.trans ho'
  have hc := hmo.card hf.1
  rw [edits_map_edit,← liveKeys,card_liveKeys_distinctSets] at hc
  cases hso with
  | none => simp at hc; omega
  | @some b s hs =>
    have hsi := (hv s rfl).nodes.size_eq
    rw [contents_some,length_toList] at hc
    rw [hs.size_eq,hs.leafCount_eq,← hc,← hn] at hsi
    revert hsi
    decide +kernel

end Dpos.Mavl
