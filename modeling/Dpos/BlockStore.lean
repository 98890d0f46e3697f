import Dpos.KeyIndex
import Dpos.PreExec
import Dpos.StackLog

/-! The block store with its sequence log: which blocks were added to the main chain
and taken off it, in order. -/
namespace Dpos.BlockStore

open KeyIndex StackLog

inductive SeqType
  | addBlock
  | delBlock
  deriving DecidableEq, Repr

structure BlockSequence where
  hash : Bytes
  type : SeqType
  deriving DecidableEq, Repr

structure Header where
  height : ℤ
  hash : Bytes
  deriving DecidableEq, Repr

inductive StoreError
  | errHeightNotExist
  | errHashNotExist
  | errUnmarshal
  | panic (text : String)
  deriving DecidableEq, Repr

def StoreError.text : StoreError → String
  | .errHeightNotExist => "ErrHeightNotExist"
  | .errHashNotExist => "ErrHashNotExist"
  | .errUnmarshal => "ErrUnmarshal"
  | .panic text => text

/-- A panic with the error's text, unless it is a panic already. -/
def StoreError.raise (context : String) : StoreError → StoreError
  | .panic text => .panic text
  | err => .panic (context ++ err.text)

inductive Key
  | blockLastHeight
  | hashToHeight (hash : Bytes)
  | heightToHash (height : ℤ)
  | seqToHash (sequence : ℤ)
  | paraSeqToHash (sequence : ℤ)
  | hashToSeq (hash : Bytes)
  | hashToParaSeq (hash : Bytes)
  | lastSequence
  | lastParaSequence
  deriving DecidableEq, Repr

def Key.bytes : Key → Bytes
  | .blockLastHeight => Bytes.ofString "blockLastHeight"
  | .hashToHeight hash => Bytes.ofString "Hash:" ++ hash
  | .heightToHash height => Bytes.ofString "Height:" ++ Bytes.decimal 0 height
  | .seqToHash sequence => Bytes.ofString "Seq:" ++ Bytes.decimal 0 sequence
  | .paraSeqToHash sequence => Bytes.ofString "ParaSeq:" ++ Bytes.decimal 0 sequence
  | .hashToSeq hash => Bytes.ofString "HashToSeq:" ++ hash
  | .hashToParaSeq hash => Bytes.ofString "HashToParaSeq:" ++ hash
  | .lastSequence => Bytes.ofString "LastSequence"
  | .lastParaSequence => Bytes.ofString "LastParaSequence"

lemma Key.bytes_injective : Function.Injective Key.bytes := by
  intro a b h
  cases a <;> cases b <;>
    simp [Key.bytes,Bytes.ofString,Bytes.ofChars,Bytes.decimal_zero_injective.eq_iff] at h ⊢ <;>
    exact h

def calcSequenceToHashKey (sequence : ℤ) (isPara : Bool) : Key :=
  if isPara then .paraSeqToHash sequence else .seqToHash sequence

def calcHashToSequenceKey (hash : Bytes) (isPara : Bool) : Key :=
  if isPara then .hashToParaSeq hash else .hashToSeq hash

def calcLastSeqKey (isPara : Bool) : Key := if isPara then .lastParaSequence else .lastSequence

@[simp] lemma calcSequenceToHashKey_inj {i j : ℤ} {ip : Bool} :
    calcSequenceToHashKey i ip = calcSequenceToHashKey j ip ↔ i = j := by
  cases ip <;> simp [calcSequenceToHashKey]

@[simp] lemma calcSequenceToHashKey_ne_hash (i : ℤ) (hash : Bytes) (isPara : Bool) :
    calcSequenceToHashKey i isPara ≠ calcHashToSequenceKey hash isPara := by
  cases isPara <;> simp [calcSequenceToHashKey,calcHashToSequenceKey]

@[simp] lemma calcSequenceToHashKey_ne_last (i : ℤ) (isPara : Bool) :
    calcSequenceToHashKey i isPara ≠ calcLastSeqKey isPara := by
  cases isPara <;> simp [calcSequenceToHashKey,calcLastSeqKey]

def calcHeightHashKey (height : ℤ) (hash : Bytes) : Bytes := Bytes.decimal 12 height ++ hash

/-- The configuration, and the wire formats with what is documented of them. -/
structure Setup where
  hash : Block → Bytes
  isParaChain : Bool
  encodeInt64 : ℤ → Bytes
  decodeHeight : Bytes → Option ℤ
  encodeSequence : BlockSequence → Bytes
  decodeSequence : Bytes → Option BlockSequence
  decodeHeight_encodeInt64 : ∀ n, decodeHeight (encodeInt64 n) = some n
  decodeSequence_encodeSequence : ∀ entry, decodeSequence (encodeSequence entry) = some entry

structure Store where
  db : Bytes → Option Bytes
  headers : List Header
  height : ℤ
  saveSequence : Bool

structure Batch where
  kvs : List (Key × Option Bytes)
  headers : List Header

def Header.key (header : Header) : Bytes := calcHeightHashKey header.height header.hash

def replaceRow (rows : List Header) (row : Header) : List Header :=
  rows.filter (fun r => r.key ≠ row.key) ++ [row]

namespace Store

def empty : Store := ⟨fun _ => none,[],-1,false⟩

def get (s : Store) (key : Key) : Option Bytes := s.db key.bytes

def write (s : Store) (batch : Batch) : Store :=
  { s with
    db := writeAll s.db (batch.kvs.map (Prod.map Key.bytes id))
    headers := batch.headers.foldl replaceRow s.headers }

lemma get_write (s : Store) (b : Batch) : (s.write b).get = writeAll s.get b.kvs := funext fun key =>
  writeAll_rename Key.bytes_injective s.db b.kvs key

end Store

section
variable (su : Setup)

def readInt64 : Option Bytes → Except StoreError ℤ
  | none => .error .errHeightNotExist
  | some bytes => match su.decodeHeight bytes with
    | none => .error .errUnmarshal
    | some n => .ok n

def loadBlockStoreHeight (s : Store) : Except StoreError ℤ := readInt64 su (s.get .blockLastHeight)

def loadBlockLastSequence (s : Store) : Except StoreError ℤ :=
  readInt64 su (s.get (calcLastSeqKey su.isParaChain))

/-- What the callers go on with: an absent number is -1, any other error is fatal. -/
def orAbsent (context : String) : Except StoreError ℤ → Except StoreError ℤ
  | .ok n => .ok n
  | .error .errHeightNotExist => .ok (-1)
  | .error err => .error (err.raise context)

def getBlockSequence (s : Store) (sequence : ℤ) : Except StoreError BlockSequence :=
  match s.get (calcSequenceToHashKey sequence su.isParaChain) with
  | none => .error .errHeightNotExist
  | some bytes => match su.decodeSequence bytes with
    | none => .error .errUnmarshal
    | some entry => .ok entry

def getBlockHashByHeight (s : Store) (height : ℤ) : Except StoreError Bytes :=
  match s.get (.heightToHash height) with
  | none => .error .errHeightNotExist
  | some hash => .ok hash

/-- The rows whose primary key starts with the given one; there may be one only. -/
def getHeaderByIndex (s : Store) (primaryKey : Bytes) : Except StoreError Header :=
  match s.headers.filter (fun row => primaryKey <+: row.key) with
  | [] => .error .errHashNotExist
  | [row] => .ok row
  | _ => .error (.panic "getHeaderByIndex")

def getBlockHeaderByHeight (s : Store) (height : ℤ) : Except StoreError Header := do
  let hash ← getBlockHashByHeight s height
  getHeaderByIndex s (calcHeightHashKey height hash)

/-- The three writes for an entry: under its number, its number under its hash if it
adds a block, and the last number. -/
def sequenceKVs (toHash hashTo last : Key) (entry : BlockSequence) (sequence : ℤ) :
    List (Key × Option Bytes) :=
  [(toHash,some (su.encodeSequence entry))] ++
    (if entry.type = .addBlock then [(hashTo,some (su.encodeInt64 sequence))] else []) ++
    [(last,some (su.encodeInt64 sequence))]

/-- The number and the writes of the chain's own log. -/
def ownSequence (s : Store) (height : ℤ) (entry : BlockSequence) :
    Except StoreError (List (Key × Option Bytes) × ℤ) := do
  if !s.saveSequence then return ([],0)
  let last ← orAbsent "" (loadBlockLastSequence su s)
  let newSequence := last+1
  if newSequence = 0 ∧ height ≠ 0 then
    throw (.panic "isRecordBlockSequence is true must Synchronizing data from zero block")
  return (sequenceKVs su (calcSequenceToHashKey newSequence su.isParaChain)
    (calcHashToSequenceKey entry.hash su.isParaChain) (calcLastSeqKey su.isParaChain) entry newSequence,
    newSequence)

/-- On a parallel chain the log of the main chain's numbers is kept beside its own. -/
def saveBlockSequence (s : Store) (hash : Bytes) (height : ℤ) (type : SeqType) (sequence : ℤ) :
    Except StoreError (List (Key × Option Bytes) × ℤ) := do
  let (kvs,newSequence) ← ownSequence su s height ⟨hash,type⟩
  if !su.isParaChain then return (kvs,newSequence)
  return (kvs ++ sequenceKVs su (.seqToHash sequence) (.hashToSeq hash) .lastSequence ⟨hash,type⟩ sequence,
    newSequence)

def saveBlock (s : Store) (block : Block) (sequence : ℤ) : Except StoreError (Batch × ℤ) := do
  let hash := su.hash block
  let heightbytes := su.encodeInt64 block.height
  let kvs := [(Key.blockLastHeight,some heightbytes),(Key.hashToHeight hash,some heightbytes),
    (Key.heightToHash block.height,some hash)]
  if !s.saveSequence && !su.isParaChain then return (⟨kvs,[⟨block.height,hash⟩]⟩,-1)
  let (seqs,lastSequence) ← saveBlockSequence su s hash block.height .addBlock sequence
  return (⟨kvs ++ seqs,[⟨block.height,hash⟩]⟩,lastSequence)

/-- The number that is returned is never the recorded one: the variable that takes it
is declared anew in the branch. -/
def delBlock (s : Store) (block : Block) (sequence : ℤ) : Except StoreError (Batch × ℤ) := do
  let hash := su.hash block
  let kvs := [(Key.blockLastHeight,some (su.encodeInt64 (block.height-1))),(Key.hashToHeight hash,none),
    (Key.heightToHash block.height,none)]
  if !s.saveSequence && !su.isParaChain then return (⟨kvs,[]⟩,-1)
  let (seqs,_) ← saveBlockSequence su s hash block.height .delBlock sequence
  return (⟨kvs ++ seqs,[]⟩,-1)

def updateHeight (s : Store) : Store :=
  match loadBlockStoreHeight su s with
  | .ok height => { s with height }
  | .error .errHeightNotExist => { s with height := -1 }
  | .error _ => s

/-- Whether sequences have to be created first. -/
def checkSequenceStatus (s : Store) (recordSequence : Bool) : Except StoreError Bool := do
  let lastSequence ← orAbsent "" (loadBlockLastSequence su s)
  if recordSequence then
    return (lastSequence = -1 ∧ s.height ≠ -1) ∨ s.height > lastSequence
  if lastSequence ≠ -1 then throw (.panic "can not disable isRecordBlockSequence")
  return false

/-- The loop of `CreateSequences` with `n` heights left from `i` on. -/
def createFrom (batchSize : ℤ) : ℕ → ℤ → ℤ → List (Key × Option Bytes) → Store →
    Except StoreError (List (Key × Option Bytes) × Store)
  | 0,_,_,batch,s => return (batch,s)
  | n+1,i,lastSeq,batch,s => do
    let header ← (getBlockHeaderByHeight s i).mapError
      (StoreError.raise "CreateSequences GetBlockHeaderByHeight")
    let batch := batch ++
      [(calcSequenceToHashKey i su.isParaChain,some (su.encodeSequence ⟨header.hash,.addBlock⟩)),
        (calcHashToSequenceKey header.hash su.isParaChain,some (su.encodeInt64 i))]
    if i-lastSeq = batchSize then
      let s := s.write ⟨batch ++ [(calcLastSeqKey su.isParaChain,some (su.encodeInt64 i))],[]⟩
      createFrom batchSize n (i+1) i [] s
    else createFrom batchSize n (i+1) lastSeq batch s

def createSequences (batchSize : ℤ) (s : Store) : Except StoreError Store := do
  let lastSeq ← orAbsent "CreateSequences LoadBlockLastSequence" (loadBlockLastSequence su s)
  let lastHeight := s.height
  let (batch,s) ← createFrom su batchSize (lastHeight-lastSeq).toNat (lastSeq+1) lastSeq [] s
  return s.write ⟨batch ++ [(calcLastSeqKey su.isParaChain,some (su.encodeInt64 lastHeight))],[]⟩

/-- `NewBlockStore` and `InitBlockChain` over the database that is there. -/
def start (batchSize : ℤ) (record : Bool) (s : Store) : Except StoreError Store := do
  let height ← orAbsent "" (loadBlockStoreHeight su s)
  let s := { s with height,saveSequence := record }
  if ← checkSequenceStatus su s record then createSequences su batchSize s else return s

inductive Op
  | save (block : Block) (sequence : ℤ)
  | del (block : Block) (sequence : ℤ)
  | start (record : Bool) (batchSize : ℤ)

/-- Each operation collects a batch, writes it and sets the height. -/
def step (s : Store) : Op → Except StoreError Store
  | .save block sequence => do
    let (batch,_) ← saveBlock su s block sequence
    return { s.write batch with height := block.height }
  | .del block sequence => do
    let (batch,_) ← delBlock su s block sequence
    return updateHeight su (s.write batch)
  | .start record batchSize => start su batchSize record s

def run (s : Store) (ops : List Op) : Except StoreError Store := ops.foldlM (step su) s

/-- The main chain that the operations are about, and whether they are recorded. -/
structure Course where
  chain : List Bytes
  recording : Bool
  deriving DecidableEq

/-- Blocks are connected and disconnected at the tip, and recording is not turned off. -/
def Course.next (c : Course) : Op → Option Course
  | .save block _ => if block.height = c.chain.length then some { c with chain := c.chain ++ [su.hash block] }
    else none
  | .del block _ => if block.height+1 = c.chain.length ∧ c.chain.getLast? = some (su.hash block) then
      some { c with chain := c.chain.dropLast }
    else none
  | .start record _ => if c.recording ∧ !record then none else some { c with recording := record }

def Course.follow (c : Course) (ops : List Op) : Option Course := ops.foldlM (Course.next su) c

end

end Dpos.BlockStore
