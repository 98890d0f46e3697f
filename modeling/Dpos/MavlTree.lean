import Dpos.MavlNode

/-! The operations of `node.go` and `tree.go`: lookup, insertion, removal,
hashing and saving. Lookups descend through children that may have to be read
from the database, so they recurse on an explicit depth bound. -/
namespace Dpos.Mavl

variable {D : Type}

namespace Node

def has (t : Tree D) (key : Bytes) : ℕ → Node D → Result Bool
  | 0, _ => .error .depth
  | _+1, .nil => .error .nilPointer
  | n+1, .mk k v height size hash lh ln rh rn p => do
    let node := Node.mk k v height size hash lh ln rh rn p
    if k = key then return true
    else if height = 0 then return false
    else if Bytes.compare key k < 0 then has t key n (← node.getLeftNode t)
    else has t key n (← node.getRightNode t)

def get (t : Tree D) (key : Bytes) : ℕ → Node D → Result (ℤ × Bytes × Bool)
  | 0, _ => .error .depth
  | _+1, .nil => .error .nilPointer
  | n+1, .mk k v height size hash lh ln rh rn p => do
    let node := Node.mk k v height size hash lh ln rh rn p
    if height = 0 then
      let cmp := Bytes.compare k key
      if cmp = 0 then return (0,v,true)
      else if cmp = -1 then return (1,[],false)
      else return (0,[],false)
    else if Bytes.compare key k < 0 then get t key n (← node.getLeftNode t)
    else
      let rightNode ← node.getRightNode t
      let (index,value,exists_) ← get t key n rightNode
      return (int32 (index + int32 (size - (← rightNode.size))),value,exists_)

def getByIndex (t : Tree D) : ℤ → ℕ → Node D → Result (Bytes × Bytes)
  | _, 0, _ => .error .depth
  | _, _+1, .nil => .error .nilPointer
  | index, n+1, .mk k v height size hash lh ln rh rn p => do
    let node := Node.mk k v height size hash lh ln rh rn p
    if height = 0 then
      if index = 0 then return (k,v) else .error .invalidIndex
    else
      let leftNode ← node.getLeftNode t
      if index < (← leftNode.size) then getByIndex t index n leftNode
      else getByIndex t (int32 (index - (← leftNode.size))) n (← node.getRightNode t)

def set (t : Tree D) (key value : Bytes) : ℕ → Node D → Result (Node D × Bool)
  | 0, _ => .error .depth
  | _+1, .nil => .error .nilPointer
  | n+1, .mk k v height size hash lh ln rh rn p => do
    let node := Node.mk k v height size hash lh ln rh rn p
    if height = 0 then
      let cmp := Bytes.compare key k
      if cmp < 0 then
        return (.mk k [] 1 2 none none (.new key value) none node false,false)
      else if cmp = 0 then
        node.removeOrphan t
        return (.new key value,true)
      else
        return (.mk key [] 1 2 none none node none (.new key value) false,false)
    else
      node.removeOrphan t
      let node ← node.copy
      if Bytes.compare key k < 0 then
        let (leftNode,updated) ← set t key value n (← node.getLeftNode t)
        let node := node.withLeft none leftNode
        if updated then return (node,true)
        else return (← (← node.calcHeightAndSize t).balance t,false)
      else
        let (rightNode,updated) ← set t key value n (← node.getRightNode t)
        let node := node.withRight none rightNode
        if updated then return (node,true)
        else return (← (← node.calcHeightAndSize t).balance t,false)

structure Removal (D : Type) where
  newHash : Option (HashKey D)
  newNode : Node D
  newKey : Option Bytes
  value : Bytes
  removed : Bool

/-- `Node.remove`. A separator is never empty, so handing it on as `newKey` is
handing on a non-nil slice. -/
def remove (t : Tree D) (key : Bytes) : ℕ → Node D → Result (Removal D)
  | 0, _ => .error .depth
  | _+1, .nil => .error .nilPointer
  | n+1, .mk k v height size hash lh ln rh rn p => do
    let node := Node.mk k v height size hash lh ln rh rn p
    if height = 0 then
      if key = k then
        node.removeOrphan t
        return ⟨none,.nil,none,v,true⟩
      else return ⟨hash,node,none,[],false⟩
    else if Bytes.compare key k < 0 then
      let r ← remove t key n (← node.getLeftNode t)
      if r.removed = false then return ⟨hash,node,none,r.value,false⟩
      else if r.newHash = none ∧ r.newNode.isNil then return ⟨rh,rn,some k,r.value,true⟩
      else
        node.removeOrphan t
        let node := (← node.copy).withLeft r.newHash r.newNode
        let node ← (← node.calcHeightAndSize t).balance t
        return ⟨node.hash,node,r.newKey,r.value,true⟩
    else
      let r ← remove t key n (← node.getRightNode t)
      if r.removed = false then return ⟨hash,node,none,r.value,false⟩
      else if r.newHash = none ∧ r.newNode.isNil then return ⟨lh,ln,none,r.value,true⟩
      else
        node.removeOrphan t
        let node := ((← node.copy).withRight r.newHash r.newNode).withNewKey r.newKey
        let node ← (← node.calcHeightAndSize t).balance t
        return ⟨node.hash,node,none,r.value,true⟩

end Node

def genPrefixHashKey (height blockHeight : ℤ) : Bytes :=
  (if height = 0 then Bytes.ofString "_mb_" else Bytes.ofString "_mh_") ++
    Bytes.ofString "-" ++ Bytes.decimal 10 blockHeight ++ Bytes.ofString "-"

/-- The database key of a node with this digest: below the root it has the height in front if the
configuration asks for it. -/
def hashKey (t : Tree D) (height : ℤ) (digest : D) : Result (HashKey D) := do
  match t.config with
  | none => return ⟨[],digest⟩
  | some config =>
    if config.enableMavlPrefix then
      if height ≠ (← t.root.height) then return ⟨genPrefixHashKey height t.blockHeight,digest⟩
      else return ⟨[],digest⟩
    else return ⟨[],digest⟩

namespace Node

/-- `Node.Hash`, together with the node in which it has stored the hashes. -/
def hashNode (c : Codec D) (t : Tree D) : Node D → Result (Node D × HashKey D)
  | .nil => .error .nilPointer
  | .mk k v height size (some h) lh ln rh rn p => .ok (.mk k v height size (some h) lh ln rh rn p,h)
  | .mk k v height size none lh ln rh rn p => do
    if height = 0 then
      let h ← hashKey t height (LeafNode.hash c ⟨k,v,height,size⟩)
      return (.mk k v height size (some h) lh ln rh rn p,h)
    else
      let (ln,lh) ← match ln with
        | .nil => pure (Node.nil,lh)
        | ln => do
          let (ln,h) ← hashNode c t ln
          pure (ln,some h)
      match lh with
      | none => .error .leftHashNil
      | some lh =>
        let (rn,rh) ← match rn with
          | .nil => pure (Node.nil,rh)
          | rn => do
            let (rn,h) ← hashNode c t rn
            pure (rn,some h)
        match rh with
        | none => .error .rightHashNil
        | some rh =>
          let h ← hashKey t height (InnerNode.hash c ⟨lh,rh,height,size⟩)
          return (.mk k v height size (some h) (some lh) ln (some rh) rn p,h)

def storeNode (t : Tree D) : Node D → Result (StoreNode D)
  | .nil => .error .nilPointer
  | .mk k v height size _ lh _ rh _ _ =>
    if height = 0 then
      match t.config with
      | none => .ok ⟨k,v,none,none,height,size⟩
      | some config => .ok ⟨k,if config.enableMVCC then [] else v,none,none,height,size⟩
    else
      match lh,rh with
      | none,_ => .error .leftHashNil
      | some _,none => .error .rightHashNil
      | some lh,some rh => .ok ⟨k,[],some lh,some rh,height,size⟩

end Node

/-- `nodeDB.SaveNode`: the node, now persisted, and the batch with its record. -/
def saveNode (t : Tree D) (batch : Option (List (HashKey D × StoreNode D))) :
    Node D → Result (Node D × Option (List (HashKey D × StoreNode D)))
  | .nil => .error .nilPointer
  | .mk k v height size hash lh ln rh rn p => do
    match hash with
    | none => .error .hashNil
    | some h =>
      if p then .error .savePersisted
      else
        let s ← (Node.mk k v height size hash lh ln rh rn p).storeNode t
        match batch with
        | none => .error .nilBatch
        | some b => return (.mk k v height size hash lh ln rh rn true,some (b ++ [(h,s)]))

/-- `Node.save`: hash, save the children held by pointers, drop those pointers,
then save the node itself. -/
def Node.save (c : Codec D) (t : Tree D) :
    ℕ → Node D → Option (List (HashKey D × StoreNode D)) →
      Result (Node D × Option (List (HashKey D × StoreNode D)))
  | 0, _, _ => .error .depth
  | n+1, node, batch => do
    let (node,_) ← node.hashNode c t
    match node with
    | .nil => .error .nilPointer
    | .mk k v height size hash lh ln rh rn p =>
      if p then return (.mk k v height size hash lh ln rh rn p,batch)
      else
        let batch ← match ln with
          | .nil => pure batch
          | ln => do
            let (_,batch) ← Node.save c t n ln batch
            pure batch
        let batch ← match rn with
          | .nil => pure batch
          | rn => do
            let (_,batch) ← Node.save c t n rn batch
            pure batch
        saveNode t batch (.mk k v height size hash lh .nil rh .nil p)

/-- No path of the tree is longer than an int32 height can tell. -/
def maxDepth : ℕ := 2^31

def NodeDB.write (db : HashKey D → Option (StoreNode D)) [DecidableEq D]
    (batch : List (HashKey D × StoreNode D)) : HashKey D → Option (StoreNode D) :=
  batch.foldl (fun db e => Function.update db e.1 (some e.2)) db

namespace Tree

def new (db : HashKey D → Option (StoreNode D)) (config : Option TreeConfig) : Tree D :=
  ⟨.nil,some ⟨db,some []⟩,0,config⟩

def newInMemory (config : Option TreeConfig) : Tree D := ⟨.nil,none,0,config⟩

def setBlockHeight (t : Tree D) (height : ℤ) : Tree D := {t with blockHeight := height}

def size (t : Tree D) : ℤ :=
  match t.root with
  | .nil => 0
  | .mk _ _ _ size _ _ _ _ _ _ => size

def has (t : Tree D) (key : Bytes) : Result Bool :=
  match t.root with
  | .nil => .ok false
  | root => root.has t key maxDepth

def get (t : Tree D) (key : Bytes) : Result (ℤ × Bytes × Bool) :=
  match t.root with
  | .nil => .ok (0,[],false)
  | root => root.get t key maxDepth

def getByIndex (t : Tree D) (index : ℤ) : Result (Bytes × Bytes) :=
  match t.root with
  | .nil => .ok ([],[])
  | root => root.getByIndex t index maxDepth

def set (t : Tree D) (key value : Bytes) : Result (Tree D × Bool) := do
  match t.root with
  | .nil => return ({t with root := .new key value},false)
  | root =>
    let (root,updated) ← root.set t key value maxDepth
    return ({t with root := root},updated)

def remove (t : Tree D) (key : Bytes) : Result (Tree D × Bytes × Bool) := do
  match t.root with
  | .nil => return (t,[],false)
  | root =>
    let r ← root.remove t key maxDepth
    if r.removed = false then return (t,[],false)
    else if r.newNode.isNil ∧ r.newHash ≠ none then
      return ({t with root := ← getNode t r.newHash},r.value,true)
    else return ({t with root := r.newNode},r.value,true)

def hash (c : Codec D) (t : Tree D) : Result (Tree D × Option (HashKey D)) := do
  match t.root with
  | .nil => return (t,none)
  | root =>
    let (root,h) ← root.hashNode c t
    return ({t with root := root},some h)

def save [DecidableEq D] (c : Codec D) (t : Tree D) : Result (Tree D × Option (HashKey D)) := do
  match t.root with
  | .nil => return (t,none)
  | root =>
    match t.ndb with
    | none => return (t,root.hash)
    | some ndb =>
      let (root,batch) ← root.save c t maxDepth ndb.batch
      match batch with
      | none => .error .nilBatch
      | some batch => return ({t with root := root, ndb := some ⟨NodeDB.write ndb.db batch,none⟩},root.hash)

/-- `Tree.Load`. A missing root is an error of the call, not a panic. -/
def load [DecidableEq D] (c : Codec D) (t : Tree D) (hash : Option (HashKey D)) : Result (Tree D) := do
  match hash with
  | none => return t
  | some h =>
    if h = ⟨[],c.emptyRoot⟩ then return t
    else return {t with root := ← getNode t (some h)}

end Tree
end Dpos.Mavl
