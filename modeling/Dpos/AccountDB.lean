import Dpos.Bytes
import Dpos.Procedure
import Dpos.Word

/-! The account database of `account`: the balances of addresses and, for each
contract address, those of the users inside the contract. The state database holds
the decoded account records; logs and receipts carry the records they encode. -/
namespace Dpos.AccountDB
open Proc

structure Account where
  currency : ℤ
  balance : ℤ
  frozen : ℤ
  addr : Bytes
  deriving DecidableEq, Repr

abbrev KVDB := Bytes → Option Account

abbrev KV := Bytes × Account

/-- The prefix of the account keys, and what `ExecIssueCoins` asks of the chain
configuration. -/
structure Setup where
  accountKeyPerfix : Bytes
  minerExecs : List Bytes
  execName : Bytes → Bytes
  execAddress : Bytes → Bytes
  fundAddr : Bytes

inductive Err
  | errAmount | errNoBalance | errSendSameToRecv | errNotAllowDeposit
  | panic (err : Err)
  deriving DecidableEq, Repr

def Err.isPanic : Err → Bool
  | .panic _ => true
  | _ => false

/-- What a log encodes: `ReceiptAccountTransfer`, `ReceiptExecAccountTransfer`,
`ReceiptAccountMint` and `ReceiptAccountBurn`. -/
inductive LogData
  | accountTransfer (prev current : Account)
  | execAccountTransfer (execAddr : Bytes) (prev current : Account)
  | accountMint (prev current : Account)
  | accountBurn (prev current : Account)
  deriving DecidableEq, Repr

inductive LogTy
  | transfer | deposit | execTransfer | execWithdraw | execDeposit | execFrozen | execActive
  | genesisTransfer | mint | burn
  deriving DecidableEq, Repr

structure ReceiptLog where
  ty : LogTy
  log : LogData
  deriving DecidableEq, Repr

structure Receipt where
  kv : List KV
  logs : List ReceiptLog
  deriving DecidableEq, Repr

abbrev M (α : Type) := Proc KVDB Err α

def int64 (x : ℤ) : ℤ := Word.wrap 64 x

def maxCoin : ℤ := 10^17

def maxTokenBalance : ℤ := 900*10^8*10^8

def checkAmount (amount : ℤ) : Bool := 0 < amount ∧ amount < maxCoin

def safeAdd (balance amount : ℤ) : Option ℤ :=
  if int64 (balance+amount) < amount ∨ maxTokenBalance < int64 (balance+amount) then none
  else some (int64 (balance+amount))

section
variable (su : Setup)

def accountKey (address : Bytes) : Bytes := su.accountKeyPerfix ++ address

def execAccountKeyPerfix : Bytes := su.accountKeyPerfix ++ Bytes.ofString "exec-"

def execAccountKey (address execaddr : Bytes) : Bytes :=
  execAccountKeyPerfix su ++ execaddr ++ Bytes.ofString ":" ++ address

def loadAccount (addr : Bytes) : M Account := reads fun db => (db (accountKey su addr)).getD ⟨0,0,0,addr⟩

def loadExecAccount (addr execaddr : Bytes) : M Account :=
  reads fun db => (db (execAccountKey su addr execaddr)).getD ⟨0,0,0,addr⟩

def getKVSet (acc : Account) : List KV := [(accountKey su acc.addr,acc)]

def getExecKVSet (execaddr : Bytes) (acc : Account) : List KV := [(execAccountKey su acc.addr execaddr,acc)]

/-- The entries of a list, set one after the other. -/
def setAll (db : KVDB) (set : List KV) : KVDB := set.foldl (fun db kv => Function.update db kv.1 (some kv.2)) db

def saveKVSet (set : List KV) : M Unit := modify (setAll · set)

def saveAccount (acc : Account) : M Unit := saveKVSet (getKVSet su acc)

def saveExecAccount (execaddr : Bytes) (acc : Account) : M Unit := saveKVSet (getExecKVSet su execaddr acc)

def addChecked (balance amount : ℤ) : M ℤ := demand .errAmount (safeAdd balance amount)

def orPanic (m : M Receipt) : M Receipt := ExceptT.adapt Err.panic m

def mergeReceipt (receipt receipt2 : Receipt) : Receipt :=
  ⟨receipt.kv ++ receipt2.kv,receipt.logs ++ receipt2.logs⟩

def checkTransfer (fromAddr : Bytes) (amount : ℤ) : M Unit := do
  failIf (checkAmount amount = false) .errAmount
  let accFrom ← loadAccount su fromAddr
  failIf (int64 (accFrom.balance-amount) < 0) .errNoBalance

def transfer (fromAddr toAddr : Bytes) (amount : ℤ) : M Receipt := do
  failIf (checkAmount amount = false) .errAmount
  let accFrom ← loadAccount su fromAddr
  let accTo ← loadAccount su toAddr
  failIf (accFrom.addr = accTo.addr) .errSendSameToRecv
  failIf (int64 (accFrom.balance-amount) < 0) .errNoBalance
  let newFrom := {accFrom with balance := int64 (accFrom.balance-amount)}
  let newTo := {accTo with balance := int64 (accTo.balance+amount)}
  saveKVSet (getKVSet su newFrom)
  saveKVSet (getKVSet su newTo)
  return ⟨getKVSet su newFrom ++ getKVSet su newTo,
    [⟨.transfer,.accountTransfer accFrom newFrom⟩,⟨.transfer,.accountTransfer accTo newTo⟩]⟩

def depositBalance (execaddr : Bytes) (amount : ℤ) : M Receipt := do
  failIf (checkAmount amount = false) .errAmount
  let acc ← loadAccount su execaddr
  let new := {acc with balance := int64 (acc.balance+amount)}
  saveKVSet (getKVSet su new)
  return ⟨getKVSet su new,[⟨.deposit,.accountTransfer acc new⟩]⟩

def mint (addr : Bytes) (amount : ℤ) : M Receipt := do
  failIf (checkAmount amount = false) .errAmount
  let accTo ← loadAccount su addr
  let balance ← addChecked accTo.balance amount
  let new := {accTo with balance := balance}
  saveKVSet (getKVSet su new)
  return ⟨getKVSet su new,[⟨.mint,.accountMint accTo new⟩]⟩

def burn (addr : Bytes) (amount : ℤ) : M Receipt := do
  failIf (checkAmount amount = false) .errAmount
  let accTo ← loadAccount su addr
  failIf (accTo.balance < amount) .errNoBalance
  let new := {accTo with balance := int64 (accTo.balance-amount)}
  saveKVSet (getKVSet su new)
  return ⟨getKVSet su new,[⟨.burn,.accountBurn accTo new⟩]⟩

/-- The part that the operations on one exec account share: the new record is saved
and logged. -/
def updateExec (ty : LogTy) (execaddr : Bytes) (acc new : Account) : M Receipt := do
  saveExecAccount su execaddr new
  return ⟨getExecKVSet su execaddr new,[⟨ty,.execAccountTransfer execaddr acc new⟩]⟩

/-- The part that the two transfers between exec accounts share. -/
def updateExecs (execaddr : Bytes) (accFrom newFrom accTo newTo : Account) : M Receipt := do
  saveExecAccount su execaddr newFrom
  saveExecAccount su execaddr newTo
  return ⟨getExecKVSet su execaddr newFrom ++ getExecKVSet su execaddr newTo,
    [⟨.execTransfer,.execAccountTransfer execaddr accFrom newFrom⟩,
      ⟨.execTransfer,.execAccountTransfer execaddr accTo newTo⟩]⟩

def execFrozen (addr execaddr : Bytes) (amount : ℤ) : M Receipt := do
  failIf (addr = execaddr) .errSendSameToRecv
  failIf (checkAmount amount = false) .errAmount
  let acc ← loadExecAccount su addr execaddr
  failIf (int64 (acc.balance-amount) < 0) .errNoBalance
  updateExec su .execFrozen execaddr acc
    {acc with balance := int64 (acc.balance-amount), frozen := int64 (acc.frozen+amount)}

def execActive (addr execaddr : Bytes) (amount : ℤ) : M Receipt := do
  failIf (addr = execaddr) .errSendSameToRecv
  failIf (checkAmount amount = false) .errAmount
  let acc ← loadExecAccount su addr execaddr
  failIf (int64 (acc.frozen-amount) < 0) .errNoBalance
  updateExec su .execActive execaddr acc
    {acc with balance := int64 (acc.balance+amount), frozen := int64 (acc.frozen-amount)}

def execTransfer (fromAddr toAddr execaddr : Bytes) (amount : ℤ) : M Receipt := do
  failIf (fromAddr = toAddr) .errSendSameToRecv
  failIf (checkAmount amount = false) .errAmount
  let accFrom ← loadExecAccount su fromAddr execaddr
  let accTo ← loadExecAccount su toAddr execaddr
  failIf (int64 (accFrom.balance-amount) < 0) .errNoBalance
  updateExecs su execaddr accFrom {accFrom with balance := int64 (accFrom.balance-amount)}
    accTo {accTo with balance := int64 (accTo.balance+amount)}

def execTransferFrozen (fromAddr toAddr execaddr : Bytes) (amount : ℤ) : M Receipt := do
  failIf (fromAddr = toAddr) .errSendSameToRecv
  failIf (checkAmount amount = false) .errAmount
  let accFrom ← loadExecAccount su fromAddr execaddr
  let accTo ← loadExecAccount su toAddr execaddr
  failIf (int64 (accFrom.frozen-amount) < 0) .errNoBalance
  updateExecs su execaddr accFrom {accFrom with frozen := int64 (accFrom.frozen-amount)}
    accTo {accTo with balance := int64 (accTo.balance+amount)}

/-- The loop over the miner contracts; the fund address is asked for in each turn. -/
def allowDeposit (execaddr : Bytes) : Bool :=
  su.minerExecs.any fun exec => su.execAddress (su.execName exec) = execaddr || su.fundAddr = execaddr

def execIssueCoins (execaddr : Bytes) (amount : ℤ) : M Receipt := do
  failIf (allowDeposit su execaddr = false) .errNotAllowDeposit
  depositBalance su execaddr amount

def depositFrozen (addr execaddr : Bytes) (amount : ℤ) : M Receipt := do
  failIf (addr = execaddr) .errSendSameToRecv
  failIf (checkAmount amount = false) .errAmount
  let acc ← loadExecAccount su addr execaddr
  updateExec su .execDeposit execaddr acc {acc with frozen := int64 (acc.frozen+amount)}

def execDepositFrozen (addr execaddr : Bytes) (amount : ℤ) : M Receipt := do
  failIf (addr = execaddr) .errSendSameToRecv
  let receipt1 ← execIssueCoins su execaddr amount
  let receipt2 ← depositFrozen su addr execaddr amount
  return mergeReceipt receipt1 receipt2

def execDeposit (addr execaddr : Bytes) (amount : ℤ) : M Receipt := do
  failIf (addr = execaddr) .errSendSameToRecv
  failIf (checkAmount amount = false) .errAmount
  let acc ← loadExecAccount su addr execaddr
  updateExec su .execDeposit execaddr acc {acc with balance := int64 (acc.balance+amount)}

def execWithdraw (execaddr addr : Bytes) (amount : ℤ) : M Receipt := do
  failIf (addr = execaddr) .errSendSameToRecv
  failIf (checkAmount amount = false) .errAmount
  let acc ← loadExecAccount su addr execaddr
  failIf (int64 (acc.balance-amount) < 0) .errNoBalance
  updateExec su .execWithdraw execaddr acc {acc with balance := int64 (acc.balance-amount)}

def transferToExec (fromAddr toAddr : Bytes) (amount : ℤ) : M Receipt := do
  let receipt ← transfer su fromAddr toAddr amount
  let receipt2 ← orPanic (execDeposit su fromAddr toAddr amount)
  return mergeReceipt receipt receipt2

def transferWithdraw (fromAddr toAddr : Bytes) (amount : ℤ) : M Receipt := do
  checkTransfer su toAddr amount
  let receipt ← execWithdraw su toAddr fromAddr amount
  let receipt2 ← orPanic (transfer su toAddr fromAddr amount)
  return mergeReceipt receipt receipt2

def genesisInit (addr : Bytes) (amount : ℤ) : M Receipt := do
  let accTo ← loadAccount su addr
  let balance ← addChecked accTo.balance amount
  let new := {accTo with balance := balance}
  saveAccount su new
  return ⟨getKVSet su new,[⟨.genesisTransfer,.accountTransfer accTo new⟩]⟩

def genesisInitExec (addr : Bytes) (amount : ℤ) (execaddr : Bytes) : M Receipt := do
  -- the body of `GenesisInit`, for the contract
  let receipt ← genesisInit su execaddr amount
  let receipt2 ← orPanic (execDeposit su addr execaddr amount)
  return mergeReceipt receipt receipt2

end
end Dpos.AccountDB
