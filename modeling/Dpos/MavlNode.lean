import Dpos.Bytes
import Dpos.Outcome
import Dpos.Word

/-! The nodes of the merkle AVL tree of `system/store/mavl/db`, in memory and in
the node database. A pointer to a node is a value of `Node` that may be `nil`;
a child is held by its hash, by a pointer, or by both. Pruning and the memory
tree are off, and the ARC cache in front of the database, which only repeats what
the database holds, is not modelled. -/
namespace Dpos.Mavl

structure TreeConfig where
  enableMavlPrefix : Bool
  enableMVCC : Bool
  deriving DecidableEq, Repr

/-- A node hash as the database key: the optional height prefix and the last
`sha256Len` bytes. -/
structure HashKey (D : Type) where
  pre : Bytes
  digest : D
  deriving DecidableEq, Repr

structure LeafNode where
  key : Bytes
  value : Bytes
  height : ℤ
  size : ℤ
  deriving DecidableEq, Repr

/-- `types.InnerNode`, over what its two hash fields hold. -/
structure InnerNode (H : Type) where
  leftHash : H
  rightHash : H
  height : ℤ
  size : ℤ
  deriving DecidableEq, Repr

structure StoreNode (D : Type) where
  key : Bytes
  value : Bytes
  leftHash : Option (HashKey D)
  rightHash : Option (HashKey D)
  height : ℤ
  size : ℤ
  deriving DecidableEq, Repr

/-- What hashing takes from outside: sha256, the protobuf encodings of the two hashed messages, and
the all-zero digest of the empty tree. -/
structure Codec (D : Type) where
  sha256 : Bytes → D
  marshalLeaf : LeafNode → Bytes
  marshalInner : InnerNode D → Bytes
  emptyRoot : D

/-- Collision freedom of the hash and of the encodings. The two messages have the
same field numbers and types, so equal encodings agree in the height field. -/
structure Codec.Ideal {D : Type} (c : Codec D) : Prop where
  sha256_injective : Function.Injective c.sha256
  marshalLeaf_injective : Function.Injective c.marshalLeaf
  marshalInner_injective : Function.Injective c.marshalInner
  marshal_height : ∀ a b, c.marshalLeaf a = c.marshalInner b → a.height = b.height
  sha256_ne_emptyRoot : ∀ b, c.sha256 b ≠ c.emptyRoot

variable {D : Type}

def LeafNode.hash (c : Codec D) (n : LeafNode) : D := c.sha256 (c.marshalLeaf n)

/-- `InnerNode.Hash`: the prefixes of the child hashes are cut off first. -/
def InnerNode.hash (c : Codec D) (n : InnerNode (HashKey D)) : D :=
  c.sha256 (c.marshalInner ⟨n.leftHash.digest,n.rightHash.digest,n.height,n.size⟩)

/-- Where the code panics, and the recursion bound of this model. -/
inductive Fault
  | copyValueNode | balancePersisted | nodeNotExist
  | leftHashNil | rightHashNil | hashNil | savePersisted
  | invalidIndex | nilPointer | nilBatch | depth
  deriving DecidableEq, Repr

abbrev Result (α : Type) := Except Fault α

/-- `*Node`. The `parentNode` field is only written and read by pruning. -/
inductive Node (D : Type)
  | nil
  | mk (key value : Bytes) (height size : ℤ) (hash leftHash : Option (HashKey D))
      (leftNode : Node D) (rightHash : Option (HashKey D)) (rightNode : Node D)
      (persisted : Bool)
  deriving DecidableEq, Repr

/-- int32 arithmetic of the height and size fields. -/
def int32 (x : ℤ) : ℤ := Word.wrap 32 x

/-- `dbm.DB` as a map, and the write batch, which is nil after `Commit`. -/
structure NodeDB (D : Type) where
  db : HashKey D → Option (StoreNode D)
  batch : Option (List (HashKey D × StoreNode D))

structure Tree (D : Type) where
  root : Node D
  ndb : Option (NodeDB D)
  blockHeight : ℤ
  config : Option TreeConfig

namespace Node

def isNil : Node D → Bool
  | .nil => true
  | .mk _ _ _ _ _ _ _ _ _ _ => false

@[simp] lemma isNil_iff (n : Node D) : n.isNil = true ↔ n = .nil := by
  cases n <;> simp [isNil]

def new (key value : Bytes) : Node D := .mk key value 0 1 none none .nil none .nil false

def make (h : HashKey D) (s : StoreNode D) : Node D :=
  if s.height = 0 then .mk s.key s.value s.height s.size (some h) none .nil none .nil true
  else .mk s.key [] s.height s.size (some h) s.leftHash .nil s.rightHash .nil true

end Node

def getNode (t : Tree D) (hash : Option (HashKey D)) : Result (Node D) :=
  match t.ndb,hash with
  | none,_ => .error .nilPointer
  | some _,none => .error .nodeNotExist
  | some ndb,some h =>
    match ndb.db h with
    | none => .error .nodeNotExist
    | some s => .ok (.make h s)

namespace Node

def copy : Node D → Result (Node D)
  | .nil => .error .nilPointer
  | .mk key _ height size _ leftHash leftNode rightHash rightNode _ =>
    if height = 0 then .error .copyValueNode
    else .ok (.mk key [] height size none leftHash leftNode rightHash rightNode false)

def getLeftNode (t : Tree D) : Node D → Result (Node D)
  | .nil => .error .nilPointer
  | .mk _ _ _ _ _ leftHash .nil _ _ _ => getNode t leftHash
  | .mk _ _ _ _ _ _ leftNode _ _ _ => .ok leftNode

def getRightNode (t : Tree D) : Node D → Result (Node D)
  | .nil => .error .nilPointer
  | .mk _ _ _ _ _ _ _ rightHash .nil _ => getNode t rightHash
  | .mk _ _ _ _ _ _ _ _ rightNode _ => .ok rightNode

/-- `removeOrphan`: the orphan set is never read, so only the check of
`RemoveNode` is left of it. -/
def removeOrphan (t : Tree D) : Node D → Result Unit
  | .nil => .error .nilPointer
  | .mk _ _ _ _ hash _ _ _ _ persisted =>
    if persisted then
      match t.ndb,hash with
      | none,_ => .ok ()
      | some _,none => .error .hashNil
      | some _,some _ => .ok ()
    else .ok ()

def height : Node D → Result ℤ
  | .nil => .error .nilPointer
  | .mk _ _ height _ _ _ _ _ _ _ => .ok height

def size : Node D → Result ℤ
  | .nil => .error .nilPointer
  | .mk _ _ _ size _ _ _ _ _ _ => .ok size

def calcHeightAndSize (t : Tree D) : Node D → Result (Node D)
  | .nil => .error .nilPointer
  | .mk key value height size hash leftHash leftNode rightHash rightNode persisted => do
    let node := Node.mk key value height size hash leftHash leftNode rightHash rightNode persisted
    let leftN ← node.getLeftNode t
    let rightN ← node.getRightNode t
    return .mk key value (int32 (max (← leftN.height) (← rightN.height) + 1))
      (int32 ((← leftN.size) + (← rightN.size))) hash leftHash leftNode rightHash rightNode persisted

def calcBalance (t : Tree D) (node : Node D) : Result ℤ := do
  return (← (← node.getLeftNode t).height) - (← (← node.getRightNode t).height)

def withLeft : Node D → Option (HashKey D) → Node D → Node D
  | .nil, _, _ => .nil
  | .mk key value height size hash _ _ rightHash rightNode persisted, h, n =>
    .mk key value height size hash h n rightHash rightNode persisted

def withRight : Node D → Option (HashKey D) → Node D → Node D
  | .nil, _, _ => .nil
  | .mk key value height size hash leftHash leftNode _ _ persisted, h, n =>
    .mk key value height size hash leftHash leftNode h n persisted

def withKey (k : Bytes) : Node D → Node D
  | .nil => .nil
  | .mk _ value height size hash leftHash leftNode rightHash rightNode persisted =>
    .mk k value height size hash leftHash leftNode rightHash rightNode persisted

def withNewKey (node : Node D) : Option Bytes → Node D
  | none => node
  | some newKey => node.withKey newKey

def hash : Node D → Option (HashKey D)
  | .nil => none
  | .mk _ _ _ _ hash _ _ _ _ _ => hash

def leftPart : Node D → Option (HashKey D) × Node D
  | .nil => (none,.nil)
  | .mk _ _ _ _ _ leftHash leftNode _ _ _ => (leftHash,leftNode)

def rightPart : Node D → Option (HashKey D) × Node D
  | .nil => (none,.nil)
  | .mk _ _ _ _ _ _ _ rightHash rightNode _ => (rightHash,rightNode)

def rotateRight (t : Tree D) (node : Node D) : Result (Node D) := do
  let node ← node.copy
  let l ← node.getLeftNode t
  l.removeOrphan t
  let l' ← l.copy
  let lr := l'.rightPart
  let node ← (node.withLeft lr.1 lr.2).calcHeightAndSize t
  (l'.withRight node.hash node).calcHeightAndSize t

def rotateLeft (t : Tree D) (node : Node D) : Result (Node D) := do
  let node ← node.copy
  let r ← node.getRightNode t
  r.removeOrphan t
  let r' ← r.copy
  let rl := r'.leftPart
  let node ← (node.withRight rl.1 rl.2).calcHeightAndSize t
  (r'.withLeft node.hash node).calcHeightAndSize t

def persisted : Node D → Bool
  | .nil => false
  | .mk _ _ _ _ _ _ _ _ _ persisted => persisted

def balance (t : Tree D) (node : Node D) : Result (Node D) := do
  if node.persisted then .error .balancePersisted
  else
    let b ← node.calcBalance t
    if 1 < b then
      let left ← node.getLeftNode t
      if 0 ≤ (← left.calcBalance t) then node.rotateRight t
      else
        left.removeOrphan t
        (node.withLeft none (← left.rotateLeft t)).rotateRight t
    else if b < -1 then
      let right ← node.getRightNode t
      if (← right.calcBalance t) ≤ 0 then node.rotateLeft t
      else
        right.removeOrphan t
        (node.withRight none (← right.rotateRight t)).rotateLeft t
    else return node

end Node
end Dpos.Mavl
