import Dpos.PreExec
import Dpos.Procedure

/-! Block index, best-chain view, orphan pool and `ProcessBlock` of `blockchain`.
Block nodes are shared and changed in place, so the state has a heap of them; the
node made for a delivered block is named by the number of the delivery. The caches
in front of the block tables, the list of faulty peers and the notifications sent
out are not read again by these functions and are left out. -/
namespace Dpos.BlockChain

open Function Proc

/-- Who delivers a block: the node itself, its download, or a peer. -/
inductive Pid
  | self | download | peer (name : String)
  deriving DecidableEq, Repr

inductive ExecError
  | errFutureBlock | grpc | queue | other (text : String)
  deriving DecidableEq, Repr

def isRecordFaultErr : ExecError → Bool
  | .other _ => true
  | _ => false

inductive ChainError
  | errIsClosed | errBlockHashNoMatch | errNotSupport | errBlockExist | errParentBlockNoExist
  | errBlockHeightNoMatch | errHashNotExist | errParentTdNoExist
  | exec (err : ExecError)
  | localDB (text : String)
  | nilPointer
  deriving DecidableEq, Repr

/-- `blockNode`, the parent being a name on the heap. -/
structure BlockNode where
  parent : Option ℕ
  hash : Bytes
  difficulty : ℕ
  height : ℤ
  statehash : Bytes
  broadcast : Bool
  pid : Pid
  sequence : ℤ
  deriving DecidableEq, Repr

/-- `orphanBlock`, with the number of its delivery. -/
structure OrphanBlock where
  id : ℕ
  block : Block
  expiration : ℤ
  broadcast : Bool
  pid : Pid
  sequence : ℤ
  deriving DecidableEq, Repr

def indexCacheLimit : ℕ := 102400
def blockNodeCacheLimit : ℕ := 10240
def maxOrphanBlocks : ℕ := 10240
def orphanExpirationTime : ℤ := 600*10^9

/-- The chain: heap, `blockIndex`, `chainView` with its tip in front, `OrphanPool`,
the tables of the block store, and the local database of the executors. -/
structure State (T : Type) where
  nodes : ℕ → Option BlockNode
  index : Bytes → Option ℕ
  indexQueue : List ℕ
  view : List ℕ
  viewNodes : ℤ → Option ℕ
  orphans : List OrphanBlock
  prevOrphans : List OrphanBlock
  oldestOrphan : Option OrphanBlock
  details : Bytes → Option BlockDetail
  td : Bytes → Option ℕ
  hashToHeight : Bytes → Option ℤ
  heightToHash : ℤ → Option Bytes
  localDB : T

/-- What stays the same over a run. -/
structure Setup (T : Type) where
  hash : Block → Bytes
  calcWork : ℤ → ℕ
  isParaChain : Bool
  enableBestBlockCmp : Bool
  addTxs : T → BlockDetail → Except String T
  delTxs : T → BlockDetail → Except String T

/-- What a call meets: the clock, an order of the orphan map, and the answers of the other modules.
-/
structure Moment (T : Type) where
  closed : Bool
  now : ℤ
  walk : List OrphanBlock → List OrphanBlock
  walk_perm : ∀ orphans, (walk orphans).Perm orphans
  execBlock : T → Bytes → Block → Bool → Except ExecError BlockDetail
  cmpBestBlock : Block → Bytes → Bool

abbrev M (T α : Type) := Proc (State T) ChainError α

variable {T : Type}

namespace State

def nodeHash (s : State T) (id : ℕ) : Bytes := (s.nodes id).elim [] (·.hash)
def nodeHeight (s : State T) (id : ℕ) : ℤ := (s.nodes id).elim (-1) (·.height)

def haveBlock (s : State T) (hash : Bytes) : Bool := (s.index hash).isSome

def dropParent (s : State T) (id : ℕ) : State T :=
  {s with nodes := update s.nodes id ((s.nodes id).map fun node => {node with parent := none})}

def expireNode (s : State T) : State T :=
  match s.indexQueue with
  | [] => s
  | delnode :: queue =>
    if indexCacheLimit < s.indexQueue.length then
      {s.dropParent delnode with
        indexQueue := queue, index := update s.index (s.nodeHash delnode) none}
    else s

def addNode (s : State T) (id : ℕ) : State T :=
  expireNode {s with
    indexQueue := s.indexQueue ++ [id], index := update s.index (s.nodeHash id) (some id)}

/-- `UpdateNode`: the element of the old hash takes the node, under its new hash. -/
def updateNode (s : State T) (hash : Bytes) (id : ℕ) : State T :=
  match s.index hash with
  | none => s
  | some elem =>
    {s with
      indexQueue := s.indexQueue.map fun e => if e = elem then id else e
      index := update (update s.index hash none) (s.nodeHash id) (some id)}

def delNode (s : State T) (hash : Bytes) : State T :=
  match s.index hash with
  | none => s
  | some delnode =>
    {s.dropParent delnode with
      indexQueue := s.indexQueue.erase delnode, index := update s.index hash none}

def tip (s : State T) : Option ℕ := s.view.head?

def viewHeight (s : State T) : ℤ := s.tip.elim (-1) s.nodeHeight

def expireView (s : State T) : State T :=
  match s.view.getLast? with
  | none => s
  | some back =>
    if blockNodeCacheLimit < s.view.length then
      {s with
        view := s.view.dropLast, viewNodes := update s.viewNodes (s.nodeHeight back) none}
    else s

def setTip (s : State T) (id : ℕ) : State T :=
  if s.view ≠ [] ∧ (s.nodes id).bind (·.parent) ≠ s.tip then s
  else expireView {s with
    view := id :: s.view, viewNodes := update s.viewNodes (s.nodeHeight id) (some id)}

def delTip (s : State T) (id : ℕ) : State T :=
  match s.viewNodes (s.nodeHeight id) with
  | none => s
  | some elem =>
    {s with
      view := s.view.erase elem
      viewNodes := update s.viewNodes (s.nodeHeight elem) none}

def nodeByHeight (s : State T) (height : ℤ) : Option ℕ :=
  if height < 0 ∨ s.viewHeight < height then none else s.viewNodes height

def contains (s : State T) (id : ℕ) : Bool := s.nodeByHeight (s.nodeHeight id) = some id

/-- A node and its ancestors, as far as the parent pointers lead. -/
def path (s : State T) : ℕ → ℕ → List ℕ
  | 0,_ => []
  | fuel+1,id =>
    match s.nodes id with
    | none => []
    | some node => id :: node.parent.elim [] (s.path fuel)

/-- Heights fall by one from a node to its parent and end at the node of height -1
before the genesis block. -/
def ancestors (s : State T) (id : ℕ) : List ℕ := s.path (s.nodeHeight id+2).toNat id

def ancestor (s : State T) (id : ℕ) (height : ℤ) : Option ℕ :=
  if height < 0 ∨ s.nodeHeight id < height then none
  else (s.ancestors id).find? fun n => s.nodeHeight n = height

def findFork (s : State T) (id : ℕ) : Option ℕ :=
  let start := if s.viewHeight < s.nodeHeight id then s.ancestor id s.viewHeight else some id
  start.bind fun id => (s.ancestors id).find? s.contains

/-- `getReorganizeNodes`: the nodes to detach, tip first, and those to attach. -/
def getReorganizeNodes (s : State T) (id : ℕ) : List ℕ × List ℕ :=
  let forkNode := s.findFork id
  let attachNodes := ((s.ancestors id).takeWhile fun n => some n ≠ forkNode).reverse
  let detachNodes := s.tip.elim [] fun tip => (s.ancestors tip).takeWhile fun n => some n ≠ forkNode
  (detachNodes,attachNodes)

def storeBlock (s : State T) (hash : Bytes) (detail : BlockDetail) (td : ℕ) : State T :=
  {s with
    details := update s.details hash (some ⟨detail.block,detail.receipts,[],[]⟩)
    td := update s.td hash (some td)}

/-- The batch of `connectBlock`: `AddTxs`, `SaveBlock` and `SaveTdByBlockHash`. -/
def saveBlock (s : State T) (hash : Bytes) (detail : BlockDetail) (td : ℕ) (localDB : T) : State T :=
  {s.storeBlock hash detail td with
    hashToHeight := update s.hashToHeight hash (some detail.block.height)
    heightToHash := update s.heightToHash detail.block.height (some hash)
    localDB := localDB}

/-- The batch of `disconnectBlock`: `DelTxs` and `DelBlock`. -/
def delBlock (s : State T) (hash : Bytes) (height : ℤ) (localDB : T) : State T :=
  {s with
    hashToHeight := update s.hashToHeight hash none
    heightToHash := update s.heightToHash height none
    localDB := localDB}

def blockExists (s : State T) (hash : Bytes) : Bool :=
  s.haveBlock hash ||
    ((s.details hash).isSome && (s.hashToHeight hash).elim false fun height => height ≠ -1)

def isKnownOrphan (s : State T) (su : Setup T) (hash : Bytes) : Bool :=
  s.orphans.any fun orphan => su.hash orphan.block = hash

def removeOrphanBlock (s : State T) (su : Setup T) (block : Block) : State T :=
  {s with
    orphans := s.orphans.filter fun orphan => su.hash orphan.block ≠ su.hash block
    prevOrphans := s.prevOrphans.filter fun orphan =>
      ¬(orphan.block.parentHash = block.parentHash ∧ su.hash orphan.block = su.hash block)}

def removeOrphanBlockByHash (s : State T) (su : Setup T) (hash : Bytes) : State T :=
  match s.orphans.find? fun orphan => su.hash orphan.block = hash with
  | none => s
  | some orphan => s.removeOrphanBlock su orphan.block

/-- One turn of the loop of `AddOrphanBlock`. -/
def expireOrphan (su : Setup T) (now : ℤ) (s : State T) (orphan : OrphanBlock) : State T :=
  if orphan.expiration < now then s.removeOrphanBlock su orphan.block
  else
    match s.oldestOrphan with
    | none => {s with oldestOrphan := some orphan}
    | some oldest =>
      if orphan.expiration < oldest.expiration then {s with oldestOrphan := some orphan} else s

def insertOrphan (s : State T) (su : Setup T) (orphan : OrphanBlock) : State T :=
  {s with
    orphans := (s.orphans.filter fun o => su.hash o.block ≠ su.hash orphan.block) ++ [orphan]
    prevOrphans := s.prevOrphans ++ [orphan]}

/-- The orphans waiting for a block, in the order of their arrival. -/
def childOrphans (s : State T) (hash : Bytes) : List OrphanBlock :=
  s.prevOrphans.filter fun orphan => orphan.block.parentHash = hash

end State

/-- `newPreGenBlockNode`; its difficulty of -1 is never used. -/
def preGenBlockNode : BlockNode := ⟨none,zeroHash,0,-1,zeroHash,false,.self,0⟩

/-- `InitIndexAndBestView` on an empty store. -/
def State.start (localDB : T) : State T where
  nodes := update (fun _ => none) 0 (some preGenBlockNode)
  index := update (fun _ => none) zeroHash (some 0)
  indexQueue := [0]
  view := [0]
  viewNodes := update (fun _ => none) (-1) (some 0)
  orphans := []
  prevOrphans := []
  oldestOrphan := none
  details := fun _ => none
  td := fun _ => none
  hashToHeight := fun _ => none
  heightToHash := fun _ => none
  localDB := localDB

/-! ### Processing a block -/

section
variable (su : Setup T) (mo : Moment T)

def deref (id : ℕ) : M T BlockNode := do demand .nilPointer (← reads (·.nodes id))

def tipNode : M T BlockNode := do deref (← demand .nilPointer (← reads State.tip))

def liftLocal {α : Type} : Except String α → M T α
  | .ok a => pure a
  | .error text => throw (.localDB text)

def parentTd (block : Block) : M T ℕ :=
  if block.height = 0 then return 0
  else do demand .errHashNotExist (← reads (·.td block.parentHash))

def dbMaybeStoreBlock (detail : BlockDetail) : M T Unit := do
  let parenttd ← parentTd detail.block
  modify (·.storeBlock (su.hash detail.block) detail
    (su.calcWork detail.block.difficulty+parenttd))

/-- `connectBlock` after a failed execution: the node leaves the index if the block came from the
download or, for some errors, from the node itself. -/
def execFailed (node : BlockNode) (err : ExecError) : M T Unit :=
  if node.pid = .download ∨ (isRecordFaultErr err = false ∧ node.pid = .self) then
    modify (·.delNode node.hash)
  else pure ()

/-- The node of a block of the node itself learns the hash of the executed block. -/
def updateSelf (id : ℕ) (node : BlockNode) (block : Block) : M T Unit :=
  if node.pid = .self then
    modify fun s => State.updateNode {s with
      nodes := update s.nodes id
        (some {node with statehash := block.stateHash, hash := su.hash block})} node.hash id
  else pure ()

def runBlock (node : BlockNode) (prevStateHash : Bytes) (block : Block) : M T BlockDetail := do
  let localDB ← reads (·.localDB)
  match mo.execBlock localDB prevStateHash block (node.pid ≠ .self) with
  | .error err =>
    execFailed node err
    throw (.exec err)
  | .ok detail => return detail

def connectBlock (id : ℕ) (detail : BlockDetail) : M T BlockDetail := do
  failIf (mo.closed = true) .errIsClosed
  let tip ← tipNode
  failIf (detail.block.parentHash ≠ tip.hash) .errBlockHashNoMatch
  let node ← deref id
  let blockdetail ← runBlock mo node tip.statehash detail.block
  updateSelf su id node blockdetail.block
  let localDB ← liftLocal (su.addTxs (← reads (·.localDB)) blockdetail)
  let parenttd ← parentTd detail.block
  modify (·.saveBlock (su.hash blockdetail.block) blockdetail
    (su.calcWork detail.block.difficulty+parenttd) localDB)
  modify (·.setTip id)
  return blockdetail

def disconnectBlock (id : ℕ) (detail : BlockDetail) : M T Unit := do
  let node ← deref id
  let tip ← tipNode
  failIf (node.hash ≠ tip.hash) .errBlockHashNoMatch
  let localDB ← liftLocal (su.delTxs (← reads (·.localDB)) detail)
  modify (·.delBlock (su.hash detail.block) detail.block.height localDB)
  modify (·.delTip id)
  -- `node.parent.statehash`, `b.bestChain.Tip().hash`
  let _ ← demand .nilPointer node.parent
  let _ ← tipNode
  return ()

def loadBlocks : List ℕ → M T (List (ℕ × BlockDetail))
  | [] => return []
  | id :: ids => do
    let node ← deref id
    let detail ← demand .errHashNotExist (← reads (·.details node.hash))
    return (id,detail) :: (← loadBlocks ids)

def disconnectBlocks : List (ℕ × BlockDetail) → M T Unit
  | [] => return ()
  | (id,detail) :: blocks => do
    disconnectBlock su id detail
    disconnectBlocks blocks

def connectBlocks : List (ℕ × BlockDetail) → M T Unit
  | [] => return ()
  | (id,detail) :: blocks => do
    let _ ← connectBlock su mo id detail
    connectBlocks blocks

def reorganizeChain (detachNodes attachNodes : List ℕ) : M T Unit := do
  let detachBlocks ← loadBlocks detachNodes
  let attachBlocks ← loadBlocks attachNodes
  disconnectBlocks su detachBlocks
  connectBlocks su mo attachBlocks

/-- `connectBestChain` for a block that does not extend the tip. -/
def connectFork (id : ℕ) (tip : BlockNode) (detail : BlockDetail) :
    M T (Option BlockDetail × Bool) := do
  let tiptd ← demand .errHashNotExist (← reads (·.td tip.hash))
  let parenttd ← demand .errParentTdNoExist (← reads (·.td detail.block.parentHash))
  let node ← deref id
  let blocktd := node.difficulty+parenttd
  if blocktd ≤ tiptd ∧ ¬(su.enableBestBlockCmp = true ∧ blocktd = tiptd ∧ node.height = tip.height ∧
      mo.cmpBestBlock detail.block tip.hash = true) then
    -- the fork node is logged
    let _ ← demand .nilPointer (← reads (·.findFork id))
    return (none,false)
  else
    let (detachNodes,attachNodes) ← reads (·.getReorganizeNodes id)
    reorganizeChain su mo detachNodes attachNodes
    return (none,true)

def connectBestChain (id : ℕ) (detail : BlockDetail) : M T (Option BlockDetail × Bool) := do
  let tip ← tipNode
  if detail.block.parentHash = tip.hash then
    let blockdetail ← connectBlock su mo id detail
    return (some blockdetail,true)
  else connectFork su mo id tip detail

structure Delivery where
  id : ℕ
  broadcast : Bool
  detail : BlockDetail
  pid : Pid
  sequence : ℤ

def newBlockNode (d : Delivery) (parent : ℕ) : BlockNode :=
  ⟨some parent,su.hash d.detail.block,su.calcWork d.detail.block.difficulty,d.detail.block.height,
    d.detail.block.stateHash,d.broadcast,d.pid,d.sequence⟩

def maybeAcceptBlock (d : Delivery) : M T (Option BlockDetail × Bool) := do
  let prev ← demand .errParentBlockNoExist (← reads (·.index d.detail.block.parentHash))
  let prevNode ← deref prev
  failIf (d.detail.block.height ≠ prevNode.height+1) .errBlockHeightNoMatch
  dbMaybeStoreBlock su d.detail
  modify fun s => State.addNode
    {s with nodes := update s.nodes d.id (some (newBlockNode su d prev))} d.id
  connectBestChain su mo d.id d.detail

/-- `ProcessOrphans`, over the hashes still to be looked at. Each turn takes an orphan
from the pool or a hash from the list. -/
def processOrphans : ℕ → List Bytes → M T Unit
  | 0,_ => return ()
  | _,[] => return ()
  | fuel+1,hash :: hashes => do
    match ← reads (·.childOrphans hash) with
    | [] => processOrphans fuel hashes
    | orphan :: _ =>
      modify fun s => s.removeOrphanBlock su orphan.block
      let _ ← maybeAcceptBlock su mo
        ⟨orphan.id,orphan.broadcast,⟨orphan.block,[],[],[]⟩,orphan.pid,orphan.sequence⟩
      processOrphans fuel (hash :: hashes ++ [su.hash orphan.block])

structure Outcome where
  detail : Option BlockDetail
  isMainChain : Bool
  isOrphan : Bool
  deriving DecidableEq, Repr

def maybeAddBestChain (d : Delivery) : M T Outcome := do
  failIf (← reads (·.blockExists (su.hash d.detail.block))) .errBlockExist
  let (blockdetail,isMainChain) ← maybeAcceptBlock su mo d
  let count ← reads (·.prevOrphans.length)
  processOrphans su mo (2*count+2) [su.hash d.detail.block]
  return ⟨blockdetail,isMainChain,false⟩

def addOrphanBlock (d : Delivery) : M T Unit := do
  modify fun s => (mo.walk s.orphans).foldl (State.expireOrphan su mo.now) s
  let full ← reads fun s => decide (maxOrphanBlocks < s.orphans.length+1)
  dropOldest full
  modify fun s => s.insertOrphan su
    ⟨d.id,d.detail.block,mo.now+orphanExpirationTime,d.broadcast,d.pid,d.sequence⟩
where
  dropOldest (full : Bool) : M T Unit :=
    if full then do
      let oldest ← demand .nilPointer (← reads (·.oldestOrphan))
      modify fun s => {s.removeOrphanBlock su oldest.block with oldestOrphan := none}
    else return ()

def processDelParaChainBlock (detail : BlockDetail) : M T Outcome := do
  let tipid ← demand .nilPointer (← reads State.tip)
  let tip ← deref tipid
  failIf (su.hash detail.block ≠ tip.hash) .errBlockHashNoMatch
  disconnectBlock su tipid detail
  modify (·.delNode (su.hash detail.block))
  return ⟨none,true,false⟩

/-- A block of the node itself has to build on the tip. -/
def checkSelf (d : Delivery) (addBlock : Bool) : M T Unit :=
  if 0 < d.detail.block.height ∧ d.pid = .self then do
    let tip ← tipNode
    failIf ((if addBlock then d.detail.block.parentHash else su.hash d.detail.block) ≠ tip.hash)
      .errBlockHashNoMatch
  else return ()

/-- A known orphan is taken from the pool if its parent has come. -/
def checkOrphan (d : Delivery) : M T Unit := do
  let hash := su.hash d.detail.block
  if ← reads fun s => s.isKnownOrphan su hash then
    failIf (¬(← reads (·.blockExists d.detail.block.parentHash))) .errBlockExist
    modify fun s => s.removeOrphanBlockByHash su hash
  else return ()

def prevHashExists (s : State T) (block : Block) : Bool :=
  if block.height = 0 then block.parentHash = zeroHash else s.blockExists block.parentHash

/-- `ProcessBlock` from the duplicate checks on. -/
def processAddBlock (d : Delivery) : M T Outcome := do
  failIf (← reads (·.blockExists (su.hash d.detail.block))) .errBlockExist
  checkOrphan su d
  if ← reads fun s => prevHashExists s d.detail.block then maybeAddBestChain su mo d
  else
    addOrphanBlock su mo d
    return ⟨none,false,true⟩

def processBlock (d : Delivery) (addBlock : Bool) : M T Outcome := do
  failIf (mo.closed = true) .errIsClosed
  checkSelf su d addBlock
  if addBlock then processAddBlock su mo d
  else if su.isParaChain then processDelParaChainBlock su d.detail
  else throw .errNotSupport

end
end Dpos.BlockChain
