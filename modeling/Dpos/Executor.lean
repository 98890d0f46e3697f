import Dpos.AccountDB
import Dpos.StateDB
import Dpos.Transaction

/-! The executor: how a list of transactions and of transaction groups is executed on
the state database. The drivers and the local database are parameters. A driver is
loaded for each transaction anew, as from ForkCacheDriver on. -/
namespace Dpos
namespace Executor

open KeyIndex

/-- An error, of the kind that `api.IsAPIEnvError` recognises or of another. -/
inductive Err
  | apiEnv (text : Bytes)
  | other (text : Bytes)
  deriving DecidableEq, Repr

def Err.text : Err → Bytes
  | .apiEnv text => text
  | .other text => text

def Err.isAPIEnvError : Err → Bool
  | .apiEnv _ => true
  | .other _ => false

def Err.ofString (text : String) : Err := .other (Bytes.ofString text)

def errNoBalance : Err := .ofString "ErrNoBalance"
def errTxGroupIndex : Err := .ofString "ErrTxGroupIndex"
def errTxGroupFormat : Err := .ofString "ErrTxGroupFormat"
def errTxGroupCount : Err := .ofString "ErrTxGroupCount"
def errTxGroupNotSupport : Err := .ofString "ErrTxGroupNotSupport"
def errTxExpire : Err := .ofString "ErrTxExpire"
def errNotAllowKey : Err := .ofString "ErrNotAllowKey"
def errNotAllowMemSetKey : Err := .ofString "ErrNotAllowMemSetKey"

inductive Panic
  | panic
  deriving DecidableEq, Repr

structure Receipt where
  ty : ℤ
  kv : List KV
  logs : List (ℤ × Bytes)
  deriving DecidableEq, Repr

def execErr : ℤ := 0
def execPack : ℤ := 1
def execOk : ℤ := 2
def tyLogErr : ℤ := 1
def tyLogFee : ℤ := 2

def errLog (err : Err) : ℤ × Bytes := (tyLogErr,err.text)

def newErrReceipt (err : Err) : Receipt := ⟨execErr,[],[errLog err]⟩

def packReceipt : Receipt := ⟨execPack,[],[]⟩

def Receipt.addLog (receipt : Receipt) (err : Err) : Receipt :=
  {receipt with logs := receipt.logs ++ [errLog err]}

/-- The receipt of a driver, a nil one included, joined to what is there from the fee. -/
def Receipt.join (feelog : Receipt) : Option Receipt → Receipt
  | none => feelog
  | some receipt => ⟨receipt.ty,feelog.kv ++ receipt.kv,feelog.logs ++ receipt.logs⟩

def getKV : Option Receipt → List KV
  | none => []
  | some receipt => receipt.kv

/-! ### Drivers and the environment of a list -/

/-- What a driver answers: at once, or after it has asked for the group of its
transaction with `GetTxGroup`. -/
inductive Reaction (α : Type)
  | reply (a : α)
  | ask (k : Except Err (List Transaction) → α)

/-- How the `Exec` of a driver ends, and what it did to the state database. -/
structure Outcome where
  calls : List Call
  result : Except Panic (Except Err (Option Receipt))

/-- A driver. Its answers depend on the two databases it finds, on the transaction and on the index.
-/
structure Driver (Loc : Type) where
  isFree : Bool
  execLocalSameTime : Bool
  checkTx : View → Loc → Transaction → ℕ → Reaction (Except Err Unit)
  exec : View → Loc → Transaction → ℕ → Reaction Outcome
  execLocalTx : View → Loc → Transaction → Option Receipt → ℕ → Except Panic (Loc × Option Err)

inductive Fork
  | execRollback | resetTx0 | stateDBSet | txGroup
  deriving DecidableEq, Repr

/-- The executor of a list: the configuration at its height, the functions it calls, the local
database, the drivers, and the list. -/
structure Env (Loc : Type) where
  height : ℤ
  isPara : Bool
  minTxFeeRate : ℤ
  isFork : Fork → Bool
  hash : Transaction → Bytes
  fromAddr : Transaction → Bytes
  execPubKey : Bytes → Bytes
  accountKeyPerfix : Bytes
  encodeAccount : AccountDB.Account → Bytes
  decodeAccount : Bytes → Option AccountDB.Account
  encodeFeeLog : AccountDB.Account → AccountDB.Account → Bytes
  checkTx : Transaction → ℕ → Except Err Unit
  isExpire : List Transaction → Bool
  check : List Transaction → Except Err Unit
  checkAddress : Transaction → Except Err Unit
  isAllowExec : Bytes → Transaction → ℕ → Bool
  localBegin : Loc → Loc
  localStartTx : Loc → Loc
  localRollback : Loc → Loc
  localCommit : Loc → Loc × Option Err
  loadDriver : Transaction → ℕ → Driver Loc
  txs : List Transaction

/-- The two databases. `asked` has no counterpart: it records for which indices a driver has asked
for the group. -/
structure State (Loc : Type) where
  stateDB : StateDB
  localDB : Loc
  asked : List ℕ

abbrev M (Loc α : Type) := Proc (State Loc) Panic α

def maxTxGroupSize : ℤ := 20

section Executor
variable {Loc : Type} (env : Env Loc)

def getTxGroup (index : ℕ) : Except Panic (Except Err (List Transaction)) :=
  match env.txs[index]? with
  | none => .ok (.error errTxGroupIndex)
  | some tx =>
    if tx.groupCount ≤ 0 ∨ maxTxGroupSize < tx.groupCount then .ok (.error errTxGroupCount)
    else
      let c := tx.groupCount.toNat
      -- from the index downwards, at most `c` places
      match ((List.range (index+1)).reverse.take (c+1)).find? fun i =>
          (env.txs[i]?).any fun tx => tx.header = env.hash tx with
      | none => .ok (.error errTxGroupFormat)
      | some i =>
        if env.txs.length < i+c then .error .panic
        else
          let txgroup := (env.txs.drop i).take c
          match env.check txgroup with
          | .error err => .ok (.error err)
          | .ok _ => .ok (.ok txgroup)

/-- Lets a driver answer, giving it the group that it asks for. -/
def consult {α : Type} (index : ℕ) : Reaction α → M Loc α
  | .reply a => pure a
  | .ask k => do
    modify fun s => {s with asked := s.asked ++ [index]}
    match getTxGroup env index with
    | .error stop => throw stop
    | .ok group => return k group

def databases : M Loc (View × Loc) := Proc.reads fun s => (s.stateDB.view,s.localDB)

def onStateDB (f : StateDB → StateDB) : M Loc Unit := modify fun s => {s with stateDB := f s.stateDB}

def onLocalDB (f : Loc → Loc) : M Loc Unit := modify fun s => {s with localDB := f s.localDB}

def begin : M Loc Unit :=
  if env.isFork .execRollback then do
    onStateDB (StateDB.begin true)
    onLocalDB env.localBegin
  else pure ()

/-- `commit`: the local database comes second and may fail. -/
def commit : M Loc (Option Err) :=
  if env.isFork .execRollback then do
    onStateDB (StateDB.commit true)
    let err ← Proc.reads fun s => (env.localCommit s.localDB).2
    onLocalDB fun db => (env.localCommit db).1
    return err
  else return none

def startTx : M Loc Unit := do
  onStateDB StateDB.startTx
  onLocalDB env.localStartTx

def rollback : M Loc Unit :=
  if env.isFork .execRollback then do
    onStateDB StateDB.rollback
    onLocalDB env.localRollback
  else pure ()

def loadAccount (addr : Bytes) : M Loc AccountDB.Account := do
  let key := env.accountKeyPerfix ++ addr
  let value ← Proc.reads fun s => (s.stateDB.get key).1
  onStateDB fun db => db.call (.get key)
  match value with
  | none => return ⟨0,0,0,addr⟩
  | some value => Proc.demand .panic (env.decodeAccount value)

def processFee (tx : Transaction) : M Loc (Except Err Receipt) := do
  let accFrom ← loadAccount env (env.fromAddr tx)
  if 0 ≤ AccountDB.int64 (accFrom.balance-tx.fee) then do
    let current := {accFrom with balance := AccountDB.int64 (accFrom.balance-tx.fee)}
    let set : KV := (env.accountKeyPerfix ++ accFrom.addr,some (env.encodeAccount current))
    onStateDB fun db => db.set set
    return .ok ⟨execPack,[set],[(tyLogFee,env.encodeFeeLog accFrom current)]⟩
  else return .error errNoBalance

def pubkey (tx : Transaction) : Bytes :=
  match tx.signature with
  | none => []
  | some sign => sign.pubkey

/-- A transaction that the key of its own executor has signed is checked first. -/
def checkOwn (tx : Transaction) (index : ℕ) : M Loc (Except Err Unit) := do
  let (v,loc) ← databases
  if env.execPubKey tx.execer = pubkey tx then
    consult env index ((env.loadDriver tx index).checkTx v loc tx index)
  else return .ok ()

def execFee (tx : Transaction) (index : ℕ) : M Loc (Except Err Receipt) := do
  match ← checkOwn env tx index with
  | .error err => return .error err
  | .ok _ =>
    if ¬env.isPara ∧ 0 < env.minTxFeeRate ∧ ¬(env.loadDriver tx index).isFree then processFee env tx
    else return .ok packReceipt

def exec (tx : Transaction) (index : ℕ) : M Loc (Except Err (Option Receipt)) :=
  match env.checkAddress tx with
  | .error err => return .error err
  | .ok _ => do
    let (v,loc) ← databases
    match ← consult env index ((env.loadDriver tx index).checkTx v loc tx index) with
    | .error err => return .error err
    | .ok _ => do
      let out ← consult env index ((env.loadDriver tx index).exec v loc tx index)
      onStateDB fun db => db.callAll out.calls
      match out.result with
      | .error stop => throw stop
      | .ok result => return result

/-- `checkKV`: whatever was set has to be in the receipt. -/
def checkKV (memset : List Bytes) (kvs : List KV) : Bool := memset.all fun key => kvs.any fun kv => kv.1 = key

def execLocalSameTime (tx : Transaction) (receipt : Option Receipt) (index : ℕ) :
    M Loc (Option Err) :=
  if (env.loadDriver tx index).execLocalSameTime then do
    let (v,loc) ← databases
    match (env.loadDriver tx index).execLocalTx v loc tx receipt index with
    | .error stop => throw stop
    | .ok (localDB,err) => do
      onLocalDB fun _ => localDB
      return err
  else return none

/-- From ForkStateDBSet on, the entries of the receipt are set whatever the driver did. -/
def setKVs (kvs : List KV) : M Loc Unit :=
  if env.isFork .stateDBSet then onStateDB fun db => db.setAll kvs else pure ()

/-- What is left of `execTxOne` once the receipt of the driver is there. -/
def settle (feelog : Receipt) (tx : Transaction) (index : ℕ) (receipt : Option Receipt) :
    M Loc (Receipt × Option Err) := do
  let keys ← Proc.reads fun s => s.stateDB.keys
  if ¬checkKV keys (getKV receipt) then
    return (feelog.addLog errNotAllowMemSetKey,some errNotAllowMemSetKey)
  else if ¬(getKV receipt).all fun kv => env.isAllowExec kv.1 tx index then
    return (feelog.addLog errNotAllowKey,some errNotAllowKey)
  else do
    match ← execLocalSameTime env tx receipt index with
    | some err => return (feelog.addLog err,some err)
    | none => do
      setKVs env (feelog.join receipt).kv
      return (feelog.join receipt,none)

/-- `execTxOne`: the receipt, and the error if there is one. -/
def execTxOne (feelog : Receipt) (tx : Transaction) (index : ℕ) : M Loc (Receipt × Option Err) := do
  startTx env
  match ← exec env tx index with
  | .error err => return (feelog.addLog err,some err)
  | .ok receipt => settle env feelog tx index receipt

def checkTxGroup (txgroup : List Transaction) : Except Err Unit :=
  if env.isExpire txgroup then .error errTxExpire else env.check txgroup

def execMembers (rollbackLog : Receipt) : List Receipt → List Transaction → ℕ →
    M Loc (Except Err (List Receipt))
  | done, [], _ => do
    match ← commit env with
    | none => return .ok done
    | some err => return .error err
  | done, tx :: txs, index => do
    match ← execTxOne env packReceipt tx index with
    | (receipt,none) => execMembers rollbackLog (done ++ [receipt]) txs (index+1)
    | (receipt,some err) =>
      if err.isAPIEnvError then return .error err
      else do
        rollback env
        return .ok ((if env.isFork .resetTx0 then [rollbackLog] else done.take 1) ++
          (done.tail.map fun _ => packReceipt) ++ [receipt] ++ txs.map fun _ => packReceipt)

def execTxGroup (txs : List Transaction) (index : ℕ) : M Loc (Except Err (List Receipt)) :=
  match checkTxGroup env txs with
  | .error err => return .error err
  | .ok _ =>
    match txs with
    | [] => throw .panic
    | head :: members => do
      match ← execFee env head index with
      | .error err => return .error err
      | .ok feelog => do
        begin env
        match ← execTxOne env feelog head index with
        | (receipt,none) => execMembers env feelog [receipt] members (index+1)
        | (receipt,some err) =>
          if err.isAPIEnvError then return .error err
          else do
            rollback env
            return .ok (receipt :: members.map fun _ => packReceipt)

def execTx (tx : Transaction) (index : ℕ) : M Loc (Except Err Receipt) :=
  if env.height = 0 then do
    match ← exec env tx index with
    | .ok (some receipt) => return .ok receipt
    | _ => throw .panic
  else
    match env.checkTx tx index with
    | .error err => if env.isPara then throw .panic else return .error err
    | .ok _ => do
      match ← execFee env tx index with
      | .error err => return .error err
      | .ok feelog => do
        begin env
        match ← execTxOne env feelog tx index with
        | (receipt,some err) => do
          rollback env
          if err.isAPIEnvError then return .error err else return .ok receipt
        | (receipt,none) => do
          match ← commit env with
          | some err => return .error err
          | none => return .ok receipt

/-- How many transactions are executed together, or why none is: the checks of the group count at
the head of `tx :: rest`. -/
def unitSize (tx : Transaction) (rest : List Transaction) : Except Err ℕ :=
  if tx.groupCount < 0 ∨ tx.groupCount = 1 ∨ 20 < tx.groupCount then .error errTxGroupCount
  else if tx.groupCount = 0 then .ok 1
  else if ¬env.isFork .txGroup then .error errTxGroupNotSupport
  else if rest.length+1 < tx.groupCount.toNat then .error errTxGroupCount
  else .ok tx.groupCount.toNat

def execUnit (tx : Transaction) (members : List Transaction) (index : ℕ) :
    M Loc (Except Err (List Receipt)) :=
  if tx.groupCount = 0 then do
    match ← execTx env tx index with
    | .error err => return .error err
    | .ok receipt => return .ok [receipt]
  else do
    let receiptlist ← execTxGroup env (tx :: members) index
    match receiptlist with
    | .error err => return .error err
    | .ok receipts => do
      Proc.failIf (0 < receipts.length ∧ receipts.length ≠ tx.groupCount.toNat) .panic
      return .ok receipts

/-- The loop of `procExecTxList`; the next `skip` transactions belong to the group just executed. An
error is the reply to the whole request. -/
def execTxs : List Transaction → ℕ → ℕ → M Loc (Except Err (List Receipt))
  | [], _, _ => return .ok []
  | _ :: rest, skip+1, index => execTxs rest skip index
  | tx :: rest, 0, index =>
    match unitSize env tx rest with
    | .error err => do return (← execTxs rest 0 index).map ([newErrReceipt err] ++ ·)
    | .ok n => do
      match ← execUnit env tx (rest.take (n-1)) index with
      | .ok receipts => do return (← execTxs rest (n-1) (index+n)).map (receipts ++ ·)
      | .error err =>
        if err.isAPIEnvError then return .error err
        else do
          return (← execTxs rest (n-1) index).map (List.replicate n (newErrReceipt err) ++ ·)

end Executor

def procExecTxList {Loc : Type} (env : Env Loc) (txs : List Transaction) (stateDB : StateDB)
    (localDB : Loc) : Except Panic (Except Err (List Receipt)) :=
  ((execTxs {env with txs := txs} txs 0 0).exec ⟨stateDB,localDB,[]⟩).1

end Executor
end Dpos
