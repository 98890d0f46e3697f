import Dpos.ListMap
import Dpos.TxCache
import Dpos.TxGroup

/-! The transaction cache of the mempool, as in `cache.go`: a queue of items in the order in
which they came, and three indexes over them, by sender, by time and by short hash. -/
namespace Dpos.TxPool

inductive PushErr
  | manyTx | txExist | memFull
  deriving DecidableEq, Repr

structure Item where
  value : Transaction
  priority : ℤ
  enterTime : ℤ
  deriving DecidableEq, Repr

section
variable (c : Crypto)

def hexDigit (n : ℕ) : UInt8 := UInt8.ofNat (if n < 10 then 48+n else 87+n)

def toHex (bs : Bytes) : Bytes := bs.flatMap fun b => [hexDigit (b.toNat/16),hexDigit (b.toNat%16)]

def calcTxShortHash (hash : Bytes) : Bytes := if 5 ≤ hash.length then toHex (hash.take 5) else []

def shortHash (tx : Transaction) : Bytes := calcTxShortHash (tx.hash c)

end

structure SimpleQueue where
  txList : ListMap Bytes Item
  poolCacheSize : ℤ
  cacheBytes : ℤ
  deriving DecidableEq, Repr

namespace SimpleQueue
variable (c : Crypto) (q : SimpleQueue)

def exist (hash : Bytes) : Bool := q.txList.exist hash

def getItem (hash : Bytes) : Option Item := q.txList.getItem hash

def push (item : Item) : Except PushErr SimpleQueue :=
  if q.exist (item.value.hash c) then .error .txExist
  else if q.poolCacheSize ≤ q.txList.size then .error .memFull
  else .ok { q with
    txList := q.txList.push (item.value.hash c) item
    cacheBytes := Word.wrap 64 (q.cacheBytes+item.value.size) }

def remove (hash : Bytes) : Option SimpleQueue :=
  (q.getItem hash).map fun item =>
    { q with txList := q.txList.remove hash, cacheBytes := Word.wrap 64 (q.cacheBytes-item.value.size) }

end SimpleQueue

structure AccountTxIndex where
  maxperaccount : ℤ
  accMap : Bytes → Option (ListMap Bytes Transaction)

/-- The sender of a transaction, over `PubKeyToAddr`. -/
def fromAddr (pubKeyToAddr : Bytes → Bytes) (tx : Transaction) : Bytes :=
  pubKeyToAddr ((tx.signature.map Signature.pubkey).getD [])

namespace AccountTxIndex
variable (c : Crypto) (pubKeyToAddr : Bytes → Bytes) (index : AccountTxIndex) (tx : Transaction)

def txNumOfAccount (addr : Bytes) : ℕ := ((index.accMap addr).map ListMap.size).getD 0

/-- The transactions of `GetAccTxs` for one address. -/
def getAccTxs (addr : Bytes) : List Transaction := ((index.accMap addr).map ListMap.values).getD []

def canPush : Bool :=
  match index.accMap (fromAddr pubKeyToAddr tx) with
  | some lm => lm.size < index.maxperaccount
  | none => true

/-- `Push`, which leaves an empty list behind for an account that cannot have any. -/
def push : Except PushErr Unit × AccountTxIndex :=
  let addr := fromAddr pubKeyToAddr tx
  let lm := (index.accMap addr).getD ListMap.empty
  if index.maxperaccount ≤ lm.size then
    (.error .manyTx,{ index with accMap := Function.update index.accMap addr (some lm) })
  else (.ok (),{ index with accMap := Function.update index.accMap addr (some (lm.push (tx.hash c) tx)) })

def remove : AccountTxIndex :=
  let addr := fromAddr pubKeyToAddr tx
  match index.accMap addr with
  | none => index
  | some lm =>
    let lm := lm.remove (tx.hash c)
    { index with accMap := Function.update index.accMap addr (if lm.size = 0 then none else some lm) }

end AccountTxIndex

structure LastTxCache where
  max : ℤ
  l : ListMap Bytes Transaction
  deriving DecidableEq, Repr

namespace LastTxCache
variable (c : Crypto) (last : LastTxCache) (tx : Transaction)

def remove : LastTxCache := { last with l := last.l.remove (tx.hash c) }

def makeRoom : LastTxCache :=
  if last.max ≤ last.l.size then
    match last.l.getTop with
    | some v => last.remove c v
    | none => last
  else last

def push : LastTxCache := { last with l := (last.makeRoom c).l.push (tx.hash c) tx }

end LastTxCache

structure SHashTxCache where
  max : ℤ
  l : ListMap Bytes Transaction
  deriving DecidableEq, Repr

namespace SHashTxCache
variable (c : Crypto) (shash : SHashTxCache) (tx : Transaction)

def getSHashTxCache (sHash : Bytes) : Option Transaction := shash.l.getItem sHash

def remove : SHashTxCache := { shash with l := shash.l.remove (shortHash c tx) }

/-- `Push`, which keeps the transaction that has the short hash already. -/
def push : SHashTxCache :=
  if shash.l.exist (shortHash c tx) then shash
  else if shash.max ≤ shash.l.size then shash
  else { shash with l := shash.l.push (shortHash c tx) tx }

end SHashTxCache

structure Cache where
  index : AccountTxIndex
  last : LastTxCache
  qcache : SimpleQueue
  totalFee : ℤ
  shash : SHashTxCache

def newCache (maxTxPerAccount sizeLast poolCacheSize queueSize : ℤ) : Cache where
  index := ⟨maxTxPerAccount,fun _ => none⟩
  last := ⟨sizeLast,ListMap.empty⟩
  qcache := ⟨ListMap.empty,queueSize,0⟩
  totalFee := 0
  shash := ⟨poolCacheSize,ListMap.empty⟩

namespace Cache
variable (c : Crypto) (pubKeyToAddr : Bytes → Bytes) (cache : Cache)

def held : List Transaction := cache.qcache.txList.values.map Item.value

def exist (hash : Bytes) : Bool := cache.qcache.exist hash

def push (now : ℤ) (tx : Transaction) : Except PushErr Unit × Cache :=
  if cache.index.canPush pubKeyToAddr tx then
    match cache.qcache.push c ⟨tx,tx.fee,now⟩ with
    | .error e => (.error e,cache)
    | .ok qcache =>
      match cache.index.push c pubKeyToAddr tx with
      | (.error e,index) => (.error e,{ cache with qcache := qcache, index := index })
      | (.ok _,index) =>
        (.ok (),⟨index,cache.last.push c tx,qcache,Word.wrap 64 (cache.totalFee+tx.fee),cache.shash.push c tx⟩)
  else (.error .manyTx,cache)

def remove (hash : Bytes) : Cache :=
  match cache.qcache.getItem hash with
  | none => cache
  | some item =>
    ⟨cache.index.remove c pubKeyToAddr item.value,cache.last.remove c item.value,(cache.qcache.remove hash).getD cache.qcache,
      Word.wrap 64 (cache.totalFee-item.value.fee),cache.shash.remove c item.value⟩

def removeTxs (hashes : List Bytes) : Cache := hashes.foldl (remove c pubKeyToAddr) cache

end Cache

def mempoolExpiredInterval : ℤ := 600

section
variable (su : TxCache.Setup) (decode : Bytes → Option (List Transaction))

/-- `Transaction.IsExpire`, which for a packed group looks at its members. -/
def isExpire (tx : Transaction) (height blocktime : ℤ) : Bool :=
  match TxGroup.getTxGroup decode tx with
  | .ok (some txs) => txs.any fun tx => TxCache.isExpire su tx height blocktime
  | _ => TxCache.isExpire su tx height blocktime

def isExpired (now : ℤ) (item : Item) (height blocktime : ℤ) : Bool :=
  mempoolExpiredInterval ≤ now-item.enterTime || isExpire su decode item.value height blocktime

variable (c : Crypto) (pubKeyToAddr : Bytes → Bytes)

def Cache.removeExpiredTx (cache : Cache) (now height blocktime : ℤ) : Cache :=
  cache.removeTxs c pubKeyToAddr ((cache.qcache.txList.values.filter fun item =>
    isExpired su decode now item height blocktime).map fun item => item.value.hash c)

end

/-- `Walk`: the callback sees the items one by one until it or the counter ends it. -/
def walk {σ : Type} (count : ℤ) (cb : Item → σ → Bool × σ) : ℤ → List Item → σ → σ
  | _,[],s => s
  | i,item :: items,s =>
    let r := cb item s
    if r.1 ∧ i+1 ≠ count then walk count cb (i+1) items r.2 else r.2

section
variable (su : TxCache.Setup) (decode : Bytes → Option (List Transaction)) (c : Crypto)

def filterItem (now height blocktime : ℤ) (dupMap : List Bytes) (isAll : Bool) (item : Item) (txs : List Transaction) :
    Bool × List Transaction :=
  if item.value.hash c ∈ dupMap then (true,txs)
  else if isExpired su decode now item height blocktime && !isAll then (true,txs)
  else (true,txs ++ [item.value])

def Cache.filterTxList (cache : Cache) (now height blocktime count : ℤ) (dupMap : List Bytes) (isAll : Bool) :
    List Transaction :=
  walk count (filterItem su decode c now height blocktime dupMap isAll) 0 cache.qcache.txList.values []

def Cache.getTxList (cache : Cache) (now height blocktime count : ℤ) (hashes : List Bytes) : List Transaction :=
  cache.filterTxList su decode c now height blocktime count hashes false

def packable (now height blocktime : ℤ) (hashes : List Bytes) (item : Item) : Bool :=
  item.value.hash c ∉ hashes ∧ isExpired su decode now item height blocktime = false

end

inductive Op
  | push (now : ℤ) (tx : Transaction)
  | remove (hash : Bytes)
  | removeExpired (now height blocktime : ℤ)

section
variable (su : TxCache.Setup) (decode : Bytes → Option (List Transaction)) (c : Crypto) (pubKeyToAddr : Bytes → Bytes)

def step (cache : Cache) : Op → Cache
  | .push now tx => (cache.push c pubKeyToAddr now tx).2
  | .remove hash => cache.remove c pubKeyToAddr hash
  | .removeExpired now height blocktime => cache.removeExpiredTx su decode c pubKeyToAddr now height blocktime

def run (cache : Cache) (ops : List Op) : Cache := ops.foldl (step su decode c pubKeyToAddr) cache

end

end Dpos.TxPool
