import Dpos.ExecName

/-! The caches of `loadDriver`: one by executor name, and one for the current transaction. -/
namespace Dpos.DriverCache
open Function
open Executor (getRealExecName DriverInfo)

/-- The drivers by name, with the height from which they are loaded, and `Allow`. The
driver `none` is there from the start. -/
structure Registry (D : Type) where
  registed : Bytes → Option (D × ℤ)
  noneDriver : D
  registed_none : registed (Bytes.ofString "none") = some (noneDriver,0)
  allow : D → Transaction → ℤ → ℤ → Bool

abbrev Cache (D : Type) := Bytes → Option D

/-- The fields of the executor. Transactions are pointers. -/
structure Exec (D : Type) where
  driverCache : Cache D
  currExecTx : Option ℕ
  currTxIdx : ℤ
  currDriver : Option D

def newExecutor (D : Type) : Exec D := ⟨fun _ => none,none,-1,none⟩

section
variable {D : Type} (reg : Registry D) (height : ℤ) (isFork : Bool) (txs : ℕ → Transaction)

def loadDriverWithClient (name : Bytes) : Option D :=
  match reg.registed (getRealExecName name) with
  | none => none
  | some (driver,h) => if h ≤ height ∨ height = -1 then some driver else none

/-- The driver `none`, which is loaded at height 0. -/
def loadNoneDriver (cache : Cache D) : D × Cache D :=
  match cache (Bytes.ofString "none") with
  | some driver => (driver,cache)
  | none => (reg.noneDriver,update cache (Bytes.ofString "none") reg.noneDriver)

/-- The driver of a name, before `Allow` is asked. -/
def named (cache : Cache D) (name : Bytes) : D × Cache D :=
  match cache name with
  | some driver => (driver,cache)
  | none =>
    let r := match loadDriverWithClient reg height name with
      | some driver => (driver,cache)
      | none => loadNoneDriver reg cache
    (r.1,update r.2 name r.1)

/-- Before the fork a cached driver is not asked, and `none` takes the place of one that refuses. -/
def allowed (cache : Cache D) (tx : Transaction) (index : ℤ) : D × Cache D :=
  let r := named reg height cache tx.execer
  if (cache tx.execer).isSome && !isFork || reg.allow r.1 tx index height then r
  else
    let n := loadNoneDriver reg r.2
    (n.1,if isFork then n.2 else update n.2 tx.execer n.1)

def loadDriver (e : Exec D) (tx : ℕ) (index : ℤ) : Option D × Exec D :=
  if e.currExecTx = some tx ∧ e.currTxIdx = index then (e.currDriver,e)
  else
    let r := allowed reg height isFork e.driverCache (txs tx) index
    (some r.1,if e.currExecTx ≠ some tx ∧ e.currTxIdx ≠ index then ⟨r.2,some tx,index,some r.1⟩
      else {e with driverCache := r.2})

def run (e : Exec D) (calls : List (ℕ × ℤ)) : Exec D :=
  calls.foldl (fun e call => (loadDriver reg height isFork txs e call.1 call.2).2) e

def base (name : Bytes) : D := (loadDriverWithClient reg height name).getD reg.noneDriver

def choice (tx : Transaction) (index : ℤ) : D :=
  if reg.allow (base reg height tx.execer) tx index height then base reg height tx.execer else reg.noneDriver

/-- The choice is the driver that the checks of the executor ask. -/
theorem choice_eq_loadDriver {reg : Registry DriverInfo} {cfg : Executor.Config} (hn : cfg.noneDriver = reg.noneDriver)
    (hr : ∀ name, cfg.registed (getRealExecName name) = loadDriverWithClient reg height name)
    {tx : Transaction} {index : ℕ} (ha : ∀ driver, driver.allow tx index = reg.allow driver tx index height) :
    choice reg height tx index = cfg.loadDriver tx index := by
  rw [choice,Executor.Config.loadDriver,hr,base,hn]
  cases loadDriverWithClient reg height tx.execer with
  | none => exact ite_self _
  | some driver =>
    dsimp only [Option.getD_some]
    rw [ha]

/-- The cache by name has what would be loaded. -/
def Clear (cache : Cache D) : Prop := ∀ name driver, cache name = some driver → driver = base reg height name

structure Transparent (e : Exec D) : Prop where
  cache : Clear reg height e.driverCache
  curr : ∀ tx, e.currExecTx = some tx → e.currDriver = some (choice reg height (txs tx) e.currTxIdx)

variable {reg height txs} {cache : Cache D} {e : Exec D}

lemma base_none : base reg height (Bytes.ofString "none") = reg.noneDriver := by
  have he : getRealExecName (Bytes.ofString "none") = Bytes.ofString "none" := by decide
  rw [base,loadDriverWithClient,he,reg.registed_none]
  dsimp only
  split_ifs <;> rfl

section
variable (h : Clear reg height cache)
include h

lemma Clear.update {name : Bytes} {driver : D} (hd : driver = base reg height name) :
    Clear reg height (update cache name driver) := by
  intro name' driver' he
  rcases eq_or_ne name' name with rfl | hn
  · rw [update_self] at he
    exact Option.some.inj he ▸ hd
  · rw [update_of_ne hn] at he
    exact h name' driver' he

lemma Clear.loadNoneDriver : (loadNoneDriver reg cache).1 = reg.noneDriver ∧
    Clear reg height (loadNoneDriver reg cache).2 := by
  rw [DriverCache.loadNoneDriver]
  split
  · rename_i he
    exact ⟨(h _ _ he).trans base_none,h⟩
  · exact ⟨rfl,h.update base_none.symm⟩

lemma Clear.named (name : Bytes) :
    (named reg height cache name).1 = base reg height name ∧ Clear reg height (named reg height cache name).2 := by
  rw [DriverCache.named]
  split
  · rename_i he
    exact ⟨h _ _ he,h⟩
  · cases hl : loadDriverWithClient reg height name with
    | none =>
      have hb : (DriverCache.loadNoneDriver reg cache).1 = base reg height name := by
        rw [base,hl]
        exact h.loadNoneDriver.1
      exact ⟨hb,h.loadNoneDriver.2.update hb⟩
    | some driver =>
      have hb : driver = base reg height name := by
        rw [base,hl]
        rfl
      exact ⟨hb,h.update hb⟩

lemma Clear.allowed (tx : Transaction) (index : ℤ) :
    (allowed reg height true cache tx index).1 = choice reg height tx index ∧
      Clear reg height (allowed reg height true cache tx index).2 := by
  obtain ⟨hd,hc⟩ := h.named tx.execer
  simp only [DriverCache.allowed,choice,hd,Bool.not_true,Bool.and_false,Bool.false_or,if_true]
  split_ifs
  · exact ⟨hd,hc⟩
  · exact hc.loadNoneDriver

end

/-- One call gives the driver that is chosen without caches, and leaves them transparent. -/
theorem Transparent.loadDriver (h : Transparent reg height txs e) (tx : ℕ) (index : ℤ) :
    (loadDriver reg height true txs e tx index).1 = some (choice reg height (txs tx) index) ∧
      Transparent reg height txs (loadDriver reg height true txs e tx index).2 := by
  obtain ⟨hd,hc⟩ := h.cache.allowed (txs tx) index
  rw [DriverCache.loadDriver]
  split_ifs with he hn
  · exact ⟨he.2 ▸ h.curr tx he.1,h⟩
  · refine ⟨congrArg some hd,hc,?_⟩
    rintro tx' ht
    cases ht
    exact congrArg some hd
  · exact ⟨congrArg some hd,hc,h.curr⟩

/-- The driver of a call is the one that a new executor loads, whatever was called before. -/
theorem loadDriver_run (calls : List (ℕ × ℤ)) (tx : ℕ) (index : ℤ) :
    (loadDriver reg height true txs (run reg height true txs (newExecutor D) calls) tx index).1 =
      (loadDriver reg height true txs (newExecutor D) tx index).1 := by
  have hn : Transparent reg height txs (newExecutor D) := ⟨by rintro _ _ ⟨⟩,by rintro _ ⟨⟩⟩
  have hr : Transparent reg height txs (run reg height true txs (newExecutor D) calls) :=
    List.foldlRecOn calls _ hn fun e he call _ => (he.loadDriver call.1 call.2).2
  rw [(hr.loadDriver tx index).1,(hn.loadDriver tx index).1]

end
end Dpos.DriverCache
