import Dpos.ExecVisit
import Dpos.TxGroup

/-! Executor names: which names `IsAllowExecName` accepts, where the executor checks them,
and which keys of the state a transaction of a name may write. A transaction on its own is
checked before it is executed, while the members of a group are not. -/
namespace Dpos.Executor

open KeyIndex StateDB Proc List

variable {Loc : Type}

def userKey : Bytes := Bytes.ofString "user."

def noneX : Bytes := Bytes.ofString "none"

/-- What follows the third dot, unless it is the last byte. -/
def afterThirdDot : ℕ → Bytes → Option Bytes
  | _, [] => none
  | count, b :: rest =>
    let count := if b = 46 then count+1 else count
    if count = 3 ∧ rest ≠ [] then some rest else afterThirdDot count rest

def getParaExecName (execer : Bytes) : Bytes :=
  if paraKey.isPrefixOf execer then (afterThirdDot 0 execer).getD execer else execer

/-- `types.GetRealExecName`: the part between the first two dots of a user name. -/
def getRealExecName (execer : Bytes) : Bytes :=
  let execer := getParaExecName execer
  if paraKey.isPrefixOf execer then execer
  else if userKey.isPrefixOf execer then
    let e := (execer.drop userKey.length).takeWhile (· ≠ 46)
    if e ≠ [] then e else execer
  else execer

def maxExecNameLength : ℕ := 100

/-- `IsAllowExecName`, over the list `AllowUserExec`. -/
def isAllowExecName (allowUserExec : List Bytes) (name execer : Bytes) : Bool :=
  if maxExecNameLength < name.length ∨ maxExecNameLength < execer.length then false
  else if name.length < 3 ∨ execer.length < 3 then false
  else if 45 ∈ name ∨ 35 ∈ name then false
  else if name ≠ execer ∧ name ≠ getRealExecName execer then false
  else if userKey.isPrefixOf name then true
  else allowUserExec.contains name

def findExecer (key : Bytes) : Option Bytes :=
  if (Bytes.ofString "mavl-").isPrefixOf key ∧ 45 ∈ key.drop 5 then
    some ((key.drop 5).takeWhile (· ≠ 45))
  else none

/-- What follows the first byte of this kind. -/
def after (b : UInt8) (bs : Bytes) : Option Bytes :=
  if b ∈ bs then some (bs.dropWhile (· ≠ b)).tail else none

/-- `GetExecKey`: the address in `mavl-name-symbol-exec-address:`. The prefix is not looked at. -/
def getExecKey (key : Bytes) : Option Bytes := do
  let rest ← after 45 (key.drop 5)
  let rest ← after 45 rest
  if (Bytes.ofString "exec-").isPrefixOf rest ∧ 58 ∈ rest.drop 5 then
    some ((rest.drop 5).takeWhile (· ≠ 58))
  else none

/-- What the checks ask of a registered driver. -/
structure DriverInfo where
  name : Bytes
  allow : Transaction → ℕ → Bool
  isFriend : Bytes → Bytes → Transaction → Bool

/-- The configuration at the height of the list, the registered drivers and the functions the checks
call. `expired` is `Transaction.isExpire` there. -/
structure Config where
  crypto : Crypto
  decodeTxs : Bytes → Option (List Transaction)
  decodeErr : Bytes
  blocktime : ℤ
  expired : Transaction → Bool
  checkAddress : Transaction → Except Bytes Unit
  execAddress : Bytes → Bytes
  forkBlockCheck : Bool
  forkTxGroupPara : Bool
  forkExecKey : Bool
  maxTxFee : ℤ
  title : Bytes
  allowUserExec : List Bytes
  registed : Bytes → Option DriverInfo
  noneDriver : DriverInfo

def errExecNameNotAllow : Err := .ofString "ErrExecNameNotAllow"

namespace Config
variable (cfg : Config) (env : Env Loc)

def err : TxErr → Err
  | .txGroupCountLessThanTwo => .ofString "ErrTxGroupCountLessThanTwo"
  | .txGroupParaCount => .ofString "ErrTxGroupParaCount"
  | .txGroupParaMainMixed => .ofString "ErrTxGroupParaMainMixed"
  | .txGroupFeeNotZero => .ofString "ErrTxGroupFeeNotZero"
  | .txGroupHeader => .ofString "ErrTxGroupHeader"
  | .txGroupCountBigThanMaxSize => .ofString "ErrTxGroupCountBigThanMaxSize"
  | .txGroupCount => .ofString "ErrTxGroupCount"
  | .txGroupNext => .ofString "ErrTxGroupNext"
  | .txMsgSizeTooBig => .ofString "ErrTxMsgSizeTooBig"
  | .txFeeTooLow => .ofString "ErrTxFeeTooLow"
  | .txFeeTooHigh => .ofString "ErrTxFeeTooHigh"
  | .nomalTx => .ofString "ErrNomalTx"
  | .decode => .other cfg.decodeErr

/-- The driver that `loadDriver` gives: the registered one if it allows the transaction. -/
def loadDriver (tx : Transaction) (index : ℕ) : DriverInfo :=
  match cfg.registed (Executor.getRealExecName tx.execer) with
  | some driver => if driver.allow tx index then driver else cfg.noneDriver
  | none => cfg.noneDriver

/-- `getRealExecName` of the executor. -/
def getRealExecName (tx : Transaction) (index : ℕ) : Bytes :=
  let realexec := (cfg.loadDriver tx index).name
  if realexec ≠ noneX then realexec else tx.execer

def accepts (tx : Transaction) (index : ℕ) : Bool :=
  isAllowExecName cfg.allowUserExec (cfg.getRealExecName tx index) tx.execer

def checkGroup (txs : List Transaction) : Except TxErr Unit :=
  TxGroup.checkWithFork cfg.crypto cfg.forkBlockCheck cfg.forkBlockCheck cfg.forkTxGroupPara
    env.minTxFeeRate cfg.maxTxFee txs

def check (tx : Transaction) : Except TxErr Unit := do
  match ← TxGroup.getTxGroup cfg.decodeTxs tx with
  | none => tx.check cfg.forkBlockCheck env.minTxFeeRate cfg.maxTxFee
  | some group => cfg.checkGroup env group

def isExpire (tx : Transaction) : Bool :=
  match TxGroup.getTxGroup cfg.decodeTxs tx with
  | .ok (some group) => group.any cfg.expired
  | _ => cfg.expired tx

def checkTx (tx : Transaction) (index : ℕ) : Except Err Unit :=
  if 0 < env.height ∧ 0 < cfg.blocktime ∧ cfg.isExpire tx then .error errTxExpire
  else
    match cfg.check env tx with
    | .error err => .error (cfg.err err)
    | .ok _ => if ¬cfg.accepts tx index then .error errExecNameNotAllow else .ok ()

def getParaExec (execer : Bytes) : Bytes :=
  if ¬env.isPara then execer
  else if ¬cfg.title.isPrefixOf execer then execer
  else execer.drop cfg.title.length

def manageX : Bytes := Bytes.ofString "manage"
def configX : Bytes := Bytes.ofString "config"
def tokenX : Bytes := Bytes.ofString "token"

/-- The names that could write elsewhere before ForkExecKey. -/
def isOldKey (exec keyExecer key : Bytes) : Bool :=
  (exec = manageX ∧ keyExecer = configX) ∨
    (exec = tokenX ∧ (Bytes.ofString "mavl-create-token-").isPrefixOf key)

def execerTx (execer : Bytes) : Transaction := ⟨execer,[],none,0,0,0,[],0,[],[]⟩

/-- `isAllowKeyWrite`, called with the real name of the executor. -/
def isAllowExec (key : Bytes) (tx : Transaction) (index : ℕ) : Bool :=
  match findExecer key with
  | none => false
  | some keyExecer =>
    let realExecer := cfg.getRealExecName tx index
    let exec := cfg.getParaExec env tx.execer
    if keyExecer = exec then true
    else if ¬cfg.forkExecKey ∧ isOldKey exec keyExecer key then true
    else if getExecKey key = some (cfg.execAddress tx.execer) then true
    else
      let execdriver := if getExecKey key = some (cfg.execAddress realExecer) then realExecer
        else keyExecer
      (cfg.loadDriver (execerTx execdriver) index).isFriend execdriver key tx

def checked : Env Loc := {env with
  hash := Transaction.hash cfg.crypto
  checkTx := cfg.checkTx env
  isExpire := fun txs => 0 < env.height ∧ 0 < cfg.blocktime ∧ txs.any cfg.expired
  check := fun txs => (cfg.checkGroup env txs).mapError cfg.err
  checkAddress := fun tx => (cfg.checkAddress tx).mapError .other
  isAllowExec := cfg.isAllowExec env}

end Config

section
variable {env : Env Loc}

abbrev Exec (Loc : Type) := View → Loc → Transaction → ℕ → Reaction Outcome

/-- The same drivers, but for what `Exec` does with some of the transactions. -/
def replaced (bad : Transaction → ℕ → Bool) (exec : Exec Loc) (ld : Transaction → ℕ → Driver Loc)
    (tx : Transaction) (index : ℕ) : Driver Loc :=
  {ld tx index with exec := if bad tx index then exec else (ld tx index).exec}

/-- What the procedures of these two executors do differs only in the `Exec` of those
transactions. -/
abbrev Env.replaced (env : Env Loc) (bad : Transaction → ℕ → Bool) (exec : Exec Loc) : Env Loc :=
  {env with loadDriver := Executor.replaced bad exec env.loadDriver}

variable (bad : Transaction → ℕ → Bool) (exec' : Exec Loc)

lemma consult_replaced {α : Type} (index : ℕ) (r : Reaction α) :
    consult (env.replaced bad exec') index r = consult env index r := by
  cases r <;> rfl

lemma execFee_replaced (tx : Transaction) (index : ℕ) :
    execFee (env.replaced bad exec') tx index = execFee env tx index := by
  have ho : checkOwn (env.replaced bad exec') tx index = checkOwn env tx index := by
    unfold checkOwn
    rfl
  unfold execFee
  rw [ho]
  rfl

variable {bad} {fe : Receipt} {tx : Transaction} {index : ℕ}

lemma execTxOne_replaced (h : bad tx index = false) (f : Receipt) :
    execTxOne (env.replaced bad exec') f tx index = execTxOne env f tx index := by
  have he : exec (env.replaced bad exec') tx index = exec env tx index := by
    unfold exec
    simp only [consult_replaced,Executor.replaced,h]
    rfl
  unfold execTxOne
  rw [he]
  rfl

lemma execTxOne_address {err : Err} (h : env.checkAddress tx = .error err)
    (f : Receipt) (index : ℕ) : execTxOne env f tx index = do startTx env; return (f.addLog err,some err) := by
  unfold execTxOne exec
  rw [h]
  rfl

/-- What follows `execTxOne` does not matter after a bad address, where it fails. -/
theorem bind_execTxOne_replaced {β : Type}
    {f g : Receipt × Option Err → M Loc β} (hb : env.checkAddress tx = .ok () → bad tx index = false)
    (hf : ∀ re err, f (re,some err) = g (re,some err))
    (ho : env.checkAddress tx = .ok () → ∀ re, f (re,none) = g (re,none)) :
    (execTxOne (env.replaced bad exec') fe tx index >>= f) = (execTxOne env fe tx index >>= g) := by
  cases ha : env.checkAddress tx with
  | error err =>
    have hot : (env.replaced bad exec').checkAddress tx = .error err := ha
    rw [execTxOne_address ha,execTxOne_address hot]
    simp only [bind_assoc,pure_bind,hf]
    rfl
  | ok =>
    rw [execTxOne_replaced exec' (hb ha)]
    congr 1
    funext r
    obtain ⟨re,_ | err⟩ := r
    · exact ho ha re
    · exact hf re err

variable (bad) in
/-- No bad transaction can come to its driver: one with a bad address ends the group. -/
def Clean (checkAddress : Transaction → Except Err Unit) : List Transaction → ℕ → Prop
  | [], _ => True
  | tx :: txs, index => checkAddress tx = .ok () → bad tx index = false ∧ Clean checkAddress txs (index+1)

variable (env bad) in
/-- The checks before the fee stop a transaction, or a group with a bad member. -/
def Guarded (tx : Transaction) (members : List Transaction) (index : ℕ) : Prop :=
  (if tx.groupCount = 0 then env.checkTx tx index = .ok ()
    else checkTxGroup env (tx :: members) = .ok ()) → Clean bad env.checkAddress (tx :: members) index

variable {txs ms : List Transaction}

lemma execMembers_replaced (h : Clean bad env.checkAddress txs index)
    (rl : Receipt) (done : List Receipt) : execMembers (env.replaced bad exec') rl done txs index =
      execMembers env rl done txs index := by
  induction txs generalizing done index with
  | nil => rfl
  | cons tx txs ih =>
    exact bind_execTxOne_replaced exec' (fun ha => (h ha).1) (fun _ _ => rfl)
      fun ha _ => ih (h ha).2 _

lemma execTxGroup_replaced
    (h : checkTxGroup env txs = .ok () → Clean bad env.checkAddress txs index) :
    execTxGroup (env.replaced bad exec') txs index = execTxGroup env txs index := by
  have hck : checkTxGroup (env.replaced bad exec') txs = checkTxGroup env txs := rfl
  unfold execTxGroup
  rw [hck]
  cases ho : checkTxGroup env txs with
  | error err => rfl
  | ok =>
    cases txs with
    | nil => rfl
    | cons head ms =>
      have hc := h ho
      simp only [execFee_replaced]
      congr 1
      funext r
      cases r with
      | error err => rfl
      | ok f =>
        have hb : begin (env.replaced bad exec') = begin env := rfl
        simp only [hb]
        congr 1
        funext _
        exact bind_execTxOne_replaced exec' (fun ha => (hc ha).1) (fun _ _ => rfl)
          fun ha _ => execMembers_replaced exec' (hc ha).2 _ _

lemma execTx_replaced (hheight : env.height ≠ 0)
    (h : env.checkTx tx index = .ok () → Clean bad env.checkAddress [tx] index) :
    execTx (env.replaced bad exec') tx index = execTx env tx index := by
  unfold execTx
  rw [if_neg hheight,if_neg (show (env.replaced bad exec').height ≠ 0 from hheight)]
  have hck : (env.replaced bad exec').checkTx tx index = env.checkTx tx index := rfl
  rw [hck]
  cases ho : env.checkTx tx index with
  | error err => rfl
  | ok =>
    have hc := h ho
    simp only [execFee_replaced]
    congr 1
    funext r
    cases r with
    | error err => rfl
    | ok f =>
      have hb : begin (env.replaced bad exec') = begin env := rfl
      simp only [hb]
      congr 1
      funext _
      exact bind_execTxOne_replaced exec' (fun ha => (hc ha).1) (fun _ _ => rfl)
        fun _ _ => rfl

lemma execUnit_replaced (hheight : env.height ≠ 0)
    (hs : tx.groupCount = 0 → ms = []) (h : Guarded env bad tx ms index) :
    execUnit (env.replaced bad exec') tx ms index = execUnit env tx ms index := by
  unfold Guarded at h
  unfold execUnit
  by_cases hc : tx.groupCount = 0
  · rw [if_pos hc,hs hc] at h
    rw [if_pos hc,if_pos hc,execTx_replaced exec' hheight h]
  · rw [if_neg hc] at h
    rw [if_neg hc,if_neg hc,execTxGroup_replaced exec' h]

def apiErr : Err := .apiEnv []

variable (Loc bad) in
/-- Nothing costs a fee, and `Exec` succeeds without a receipt except on bad transactions. -/
def telling (tx : Transaction) (index : ℕ) : Driver Loc where
  isFree := true
  execLocalSameTime := false
  checkTx := fun _ _ _ _ => .reply (.ok ())
  exec := fun _ _ _ _ => .reply ⟨[],.ok (if bad tx index then .error apiErr else .ok none)⟩
  execLocalTx := fun _ loc _ _ _ => .ok (loc,none)

variable (Loc) in
def panicking : Exec Loc := fun _ _ _ _ => .reply ⟨[],.error .panic⟩

/-- A procedure that ends with an API error here and with a panic there. -/
def Told (m m' : M Loc (Except Err (List Receipt))) : Prop :=
  ∀ s, (m.exec s).1 = .ok (.error apiErr) ∧ (m'.exec s).1 = .error .panic

variable (env bad) in
/-- The executor with these drivers, and with a panic for bad transactions. -/
abbrev tellingEnv : Env Loc := {env with loadDriver := telling Loc bad}

variable (env bad) in
abbrev panickingEnv : Env Loc := (tellingEnv env bad).replaced bad (panicking Loc)

lemma execFee_telling (tx : Transaction) (index : ℕ) (s : State Loc) :
    (execFee (tellingEnv env bad) tx index).exec s = (.ok (.ok packReceipt),s) := by
  have ho : (checkOwn (tellingEnv env bad) tx index).exec s = (.ok (.ok ()),s) := by
    refine (exec_bind_ok rfl).trans ?_
    dsimp only
    split <;> rfl
  refine (exec_bind_ok ho).trans ?_
  have hf : ¬(¬env.isPara = true ∧ 0 < env.minTxFeeRate ∧ ¬(telling Loc bad tx index).isFree = true) :=
    fun h => h.2.2 rfl
  rw [if_neg hf]
  rfl

def started (env : Env Loc) (s : State Loc) : State Loc :=
  {s with stateDB := s.stateDB.startTx, localDB := env.localStartTx s.localDB}

lemma startTx_exec (env : Env Loc) (s : State Loc) : (startTx env).exec s = (.ok (),started env s) := rfl

lemma execTxOne_telling (ha : env.checkAddress tx = .ok ())
    (hb : bad tx index = false) (f : Receipt) (s : State Loc) :
    ∃ s', (execTxOne (tellingEnv env bad) f tx index).exec s = (.ok (f,none),s') := by
  have he : ∀ s, (exec (tellingEnv env bad) tx index).exec s = (.ok (.ok none),s) := by
    intro s
    unfold exec
    simp only [ha,telling,hb]
    rfl
  have hse : ∀ s, ∃ s', (setKVs (tellingEnv env bad) f.kv).exec s = (.ok (),s') := by
    intro s
    unfold setKVs
    split <;> exact ⟨_,rfl⟩
  obtain ⟨s',hs'⟩ := hse (started (tellingEnv env bad) s)
  refine ⟨s',?_⟩
  unfold execTxOne
  rw [exec_bind_ok (startTx_exec _ s),exec_bind_ok (he _)]
  exact exec_bind_ok hs'

lemma execTxOne_told (ha : env.checkAddress tx = .ok ())
    (hb : bad tx index = true) (f : Receipt) (s : State Loc) :
    (∃ s', (execTxOne (tellingEnv env bad) f tx index).exec s = (.ok (f.addLog apiErr,some apiErr),s')) ∧
    ∃ s', (execTxOne (panickingEnv env bad) f tx index).exec s = (.error .panic,s') := by
  unfold execTxOne
  constructor
  · have he : ∀ s, (exec (tellingEnv env bad) tx index).exec s = (.ok (.error apiErr),s) := by
      intro s
      unfold exec
      simp only [ha,telling,hb]
      rfl
    rw [exec_bind_ok (startTx_exec _ s),exec_bind_ok (he _)]
    exact ⟨_,rfl⟩
  · have he : ∀ s, (exec (panickingEnv env bad) tx index).exec s = (.error .panic,s) := by
      intro s
      unfold exec
      simp only [ha,replaced,telling,hb]
      rfl
    rw [exec_bind_ok (startTx_exec _ s),exec_bind_error (he _)]
    exact ⟨_,rfl⟩

lemma bind_execTxOne_told (h : ¬Clean bad env.checkAddress (tx :: txs) index)
    {f g : Receipt × Option Err → M Loc (Except Err (List Receipt))}
    (he : f (fe.addLog apiErr,some apiErr) = return .error apiErr)
    (hn : ¬Clean bad env.checkAddress txs (index+1) → Told (f (fe,none)) (g (fe,none))) :
    Told (execTxOne (tellingEnv env bad) fe tx index >>= f)
      (execTxOne (panickingEnv env bad) fe tx index >>= g) := by
  intro s
  obtain ⟨ha,hc⟩ := Classical.not_imp.mp h
  cases hb : bad tx index with
  | false =>
    rw [execTxOne_replaced (panicking Loc) hb]
    obtain ⟨s',hs'⟩ := execTxOne_telling ha hb fe s
    rw [exec_bind_ok hs',exec_bind_ok hs']
    exact hn (fun hr => hc ⟨hb,hr⟩) s'
  | true =>
    obtain ⟨⟨s1,hs1⟩,s2,hs2⟩ := execTxOne_told ha hb fe s
    rw [exec_bind_ok hs1,exec_bind_error hs2,he]
    exact ⟨rfl,rfl⟩

lemma execMembers_told (h : ¬Clean bad env.checkAddress txs index)
    (rl : Receipt) (done : List Receipt) : Told (execMembers (tellingEnv env bad) rl done txs index)
      (execMembers (panickingEnv env bad) rl done txs index) := by
  induction txs generalizing done index with
  | nil => exact absurd trivial h
  | cons tx txs ih => exact bind_execTxOne_told h rfl fun hr => ih hr _

lemma begin_exec (env : Env Loc) (s : State Loc) : ∃ s', (begin env).exec s = (.ok (),s') := by
  unfold begin
  split <;> exact ⟨_,rfl⟩

lemma execTxGroup_told (ho : checkTxGroup env txs = .ok ())
    (h : ¬Clean bad env.checkAddress txs index) :
    Told (execTxGroup (tellingEnv env bad) txs index) (execTxGroup (panickingEnv env bad) txs index) := by
  intro s
  cases txs with
  | nil => exact absurd trivial h
  | cons head ms =>
    have ho1 : checkTxGroup (tellingEnv env bad) (head :: ms) = .ok () := ho
    have ho2 : checkTxGroup (panickingEnv env bad) (head :: ms) = .ok () := ho
    unfold execTxGroup
    rw [ho1,ho2]
    dsimp only
    rw [execFee_replaced,exec_bind_ok (execFee_telling head index s),
      exec_bind_ok (execFee_telling head index s)]
    obtain ⟨s0,hs0⟩ := begin_exec (tellingEnv env bad) s
    have hs0' : (begin (panickingEnv env bad)).exec s = (.ok (),s0) := hs0
    rw [exec_bind_ok hs0,exec_bind_ok hs0']
    exact bind_execTxOne_told h rfl (fun hr => execMembers_told hr _ _) s0

variable (env bad) in
/-- It does not matter what `Exec` does with bad transactions: none of them reaches it. -/
def NeverRun (tx : Transaction) (members : List Transaction) (index : ℕ) : Prop :=
  ∀ (exec : Exec Loc) (s : State Loc), (execUnit (env.replaced bad exec) tx members index).exec s =
    (execUnit env tx members index).exec s

lemma neverRun_group_iff [Inhabited Loc] (hheight : env.height ≠ 0)
    (hct : tx.groupCount ≠ 0) :
    (∀ ld, NeverRun {env with loadDriver := ld} bad tx ms index) ↔
      Guarded env bad tx ms index := by
  refine ⟨fun h ho => ?_,fun h ld e s => ?_⟩
  · rw [if_neg hct] at ho
    by_contra hc
    have ht := execTxGroup_told ho hc ⟨.new (fun _ => none) false,default,[]⟩
    have hs := h (telling Loc bad) (panicking Loc) ⟨.new (fun _ => none) false,default,[]⟩
    unfold execUnit at hs
    rw [if_neg hct,if_neg hct,exec_bind,exec_bind] at hs
    rcases h1 : (execTxGroup (tellingEnv env bad) (tx :: ms) index).exec
      ⟨.new (fun _ => none) false,default,[]⟩ with ⟨r1,s1⟩
    rcases h2 : (execTxGroup (panickingEnv env bad) (tx :: ms) index).exec
      ⟨.new (fun _ => none) false,default,[]⟩ with ⟨r2,s2⟩
    rw [h1,h2] at ht
    obtain ⟨rfl,rfl⟩ := ht
    rw [h1,h2] at hs
    cases hs
  · rw [@execUnit_replaced Loc {env with loadDriver := ld} bad e tx index ms hheight
      (fun h => absurd h hct) h]

lemma execTxs_replaced (hheight : env.height ≠ 0) (txs : List Transaction) (skip index : ℕ)
    (s : State Loc) (h : ∀ v ∈ visits env txs skip index s, ∀ tx ms,
      v.txs = tx :: ms → Guarded env bad tx ms v.index) :
    (execTxs (env.replaced bad exec') txs skip index).exec s = (execTxs env txs skip index).exec s := by
  have hs : ∀ tx rest, unitSize (env.replaced bad exec') tx rest = unitSize env tx rest := fun _ _ => rfl
  revert h
  refine visits_induction (P := fun txs skip index s vs => (∀ v ∈ vs, ∀ tx ms,
    v.txs = tx :: ms → Guarded env bad tx ms v.index) →
      (execTxs (env.replaced bad exec') txs skip index).exec s = (execTxs env txs skip index).exec s)
        ?_ ?_ ?_ ?_ ?_ ?_ txs skip index s
  · exact fun _ _ _ _ => rfl
  · exact fun tx rest skip index s ih => ih
  · intro tx rest index s err he ih ha
    simp only [execTxs,hs,he,exec_bind,ih fun v hv => ha v (mem_cons_of_mem _ hv)]
  · intro tx rest index s n r s' hn hrun hst ha
    have hu := execUnit_replaced exec' hheight (single_of_unitSize hn) (ha _ mem_cons_self tx _ rfl)
    rcases r with st | ⟨err | rs⟩
    · simp only [execTxs,hs,hn,hu,exec_bind,hrun]
    · have happi : err.isAPIEnvError = true := by simpa [Visit.Processed] using hst
      simp only [execTxs,hs,hn,hu,exec_bind,hrun,happi,if_true]
    · exact absurd trivial hst
  · intro tx rest index s n err s' hn hrun happi ih ha
    have hu := execUnit_replaced exec' hheight (single_of_unitSize hn) (ha _ mem_cons_self tx _ rfl)
    simp [execTxs,hs,hn,hu,exec_bind,hrun,happi,ih fun v hv => ha v (mem_cons_of_mem _ hv),-bind_pure_comp]
  · intro tx rest index s n res s' hn hrun ih ha
    have hu := execUnit_replaced exec' hheight (single_of_unitSize hn) (ha _ mem_cons_self tx _ rfl)
    simp only [execTxs,hs,hn,hu,exec_bind,hrun,ih fun v hv => ha v (mem_cons_of_mem _ hv)]

end

namespace Config
variable (cfg : Config) (env : Env Loc)

def unaccepted (tx : Transaction) (index : ℕ) : Bool := !cfg.accepts tx index

/-- A group that passes `checkTxGroup` has no member with a name that is not accepted, up to
the first one whose address stops the group. -/
def MembersAccepted (txs : List Transaction) (index : ℕ) : Prop :=
  ∀ head ∈ txs.head?, head.groupCount ≠ 0 → checkTxGroup (cfg.checked env) txs = .ok () →
    Clean cfg.unaccepted (cfg.checked env).checkAddress txs index

variable {cfg env} {tx : Transaction} {index : ℕ}

lemma accepts_of_checkTx (h : cfg.checkTx env tx index = .ok ()) : cfg.unaccepted tx index = false := by
  unfold checkTx at h
  split_ifs at h <;> cases hc : cfg.check env tx <;> simp_all [unaccepted]

lemma guarded_iff {ms : List Transaction} (hs : tx.groupCount = 0 → ms = []) :
    Guarded (cfg.checked env) cfg.unaccepted tx ms index ↔ cfg.MembersAccepted env (tx :: ms) index := by
  unfold Guarded MembersAccepted
  by_cases hc : tx.groupCount = 0
  · rw [if_pos hc,hs hc]
    refine ⟨fun _ head hh hne => ?_,fun _ ho _ => ⟨accepts_of_checkTx ho,trivial⟩⟩
    cases hh
    exact absurd hc hne
  · rw [if_neg hc]
    refine ⟨fun h head hh _ => h,fun h => h tx rfl hc⟩

/-- **Unaccepted names**: no driver is run for a transaction of an unaccepted name, alone or
in a group, exactly if no group with such a member passes `checkTxGroup`; and a list in which
every group that comes up is of that kind is executed without it. -/
theorem unaccepted_neverRun (cfg : Config) (env : Env Loc) [Inhabited Loc] (hheight : env.height ≠ 0) :
    (∀ (tx : Transaction) (members : List Transaction) (index : ℕ), (tx.groupCount = 0 → members = []) →
        ((∀ ld, NeverRun {cfg.checked env with loadDriver := ld} cfg.unaccepted tx members index) ↔
          cfg.MembersAccepted env (tx :: members) index)) ∧
    ∀ (txs : List Transaction) (stateDB : StateDB) (localDB : Loc),
      (∀ visit ∈ listVisits (cfg.checked env) txs stateDB localDB,
        cfg.MembersAccepted env visit.txs visit.index) →
      ∀ exec, procExecTxList ((cfg.checked env).replaced cfg.unaccepted exec) txs stateDB localDB =
        procExecTxList (cfg.checked env) txs stateDB localDB := by
  constructor
  · intro tx members index hs
    by_cases hc : tx.groupCount = 0
    · have hg : cfg.MembersAccepted env (tx :: members) index := by
        intro head hh hne
        cases hh
        exact absurd hc hne
      refine ⟨fun _ => hg,fun _ ld exec s => ?_⟩
      rw [@execUnit_replaced Loc {cfg.checked env with loadDriver := ld} cfg.unaccepted exec tx index members
        hheight hs ((guarded_iff hs).mpr hg)]
    · exact (@neverRun_group_iff Loc (cfg.checked env) cfg.unaccepted tx index members _ hheight
        hc).trans (guarded_iff hs)
  · intro txs stateDB localDB h exec
    unfold procExecTxList
    rw [@execTxs_replaced Loc {cfg.checked env with txs := txs} cfg.unaccepted exec hheight txs 0 0
      ⟨stateDB,localDB,[]⟩ ?_]
    intro visit hv tx members ht
    have hs := visits_single txs 0 0 _ visit hv tx members ht
    have ha := h visit hv
    rw [ht] at ha
    exact (guarded_iff hs).mpr ha

end Config

def coinsConfig : Config where
  crypto := TxGroup.flatCrypto
  decodeTxs := fun _ => none
  decodeErr := []
  blocktime := 1
  expired := fun _ => false
  checkAddress := fun _ => .ok ()
  execAddress := id
  forkBlockCheck := true
  forkTxGroupPara := true
  forkExecKey := true
  maxTxFee := 0
  title := []
  allowUserExec := [noneX,Bytes.ofString "coins"]
  registed := fun name => if name = Bytes.ofString "coins" then
    some ⟨Bytes.ofString "coins",fun _ _ => true,fun _ _ _ => false⟩ else none
  noneDriver := ⟨noneX,fun _ _ => true,fun _ _ _ => false⟩

def quiet : Outcome := ⟨[],.ok (.ok none)⟩

/-- A group of two whose members name these executors. -/
def namedPair (execer execer' : Bytes) : List Transaction :=
  [⟨execer,[1],none,0,0,0,[],2,replicate 32 7,replicate 32 7⟩,
    ⟨execer',[2],none,0,0,0,[],2,replicate 32 7,[]⟩]

def quietEnv : Env Unit := openEnv (fun _ => true) fun _ _ => fixedDriver quiet

def shortPair : List Transaction := namedPair (Bytes.ofString "coins") (Bytes.ofString "ab")

/-- The second member of the group is executed: what its driver does decides the reply. Alone
a transaction of that name is refused. -/
theorem unaccepted_runs : (∀ tx ∈ shortPair[1]?, coinsConfig.accepts tx 1 = false ∧
      coinsConfig.checkTx quietEnv {tx with groupCount := 0, header := []} 1 = .error errExecNameNotAllow) ∧
    procExecTxList (coinsConfig.checked quietEnv) shortPair (.new (fun _ => none) false) () =
      .ok (.ok [packReceipt,packReceipt]) ∧
    procExecTxList ((coinsConfig.checked quietEnv).replaced coinsConfig.unaccepted (panicking Unit))
      shortPair (.new (fun _ => none) false) () = .error .panic := by
  refine ⟨?_,rfl,rfl⟩
  intro tx ht
  cases ht
  exact ⟨rfl,rfl⟩

def coinsPair : List Transaction := namedPair (Bytes.ofString "coins") (Bytes.ofString "coins")

theorem unaccepted_neverRun_coins : quietEnv.height ≠ 0 ∧
    ∀ exec, procExecTxList ((coinsConfig.checked quietEnv).replaced coinsConfig.unaccepted exec) coinsPair
      (.new (fun _ => none) false) () =
        procExecTxList (coinsConfig.checked quietEnv) coinsPair (.new (fun _ => none) false) () := by
  refine ⟨by decide,(Config.unaccepted_neverRun coinsConfig quietEnv (by decide)).2 coinsPair _ () ?_⟩
  intro visit hv
  obtain rfl := mem_singleton.mp hv
  exact fun _ _ _ _ _ => ⟨rfl,fun _ => ⟨rfl,trivial⟩⟩

end Dpos.Executor
