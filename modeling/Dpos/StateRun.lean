import Dpos.StateDB

/-! Runs of the state database within a block, against the writes that survive. -/
namespace Dpos.Executor

open KeyIndex

variable {s : StateDB}

/-- The writes that survive so far: `kept` was made outside of transactions or committed,
and `opened` belongs to the transaction that is open. -/
structure Writes where
  kept : List KV
  opened : Option (List KV)

namespace Writes
variable (w : Writes)

def empty : Writes := ⟨[],none⟩

def all : List KV := w.kept ++ w.opened.getD []

def set (kv : KV) : Writes :=
  match w.opened with
  | none => ⟨w.kept ++ [kv],none⟩
  | some opened => ⟨w.kept,some (opened ++ [kv])⟩

def begin : Writes := ⟨w.kept,some []⟩

def commit : Writes := ⟨w.all,none⟩

def rollback : Writes := ⟨w.kept,none⟩

@[simp] lemma all_set (kv : KV) : (w.set kv).all = w.all ++ [kv] := by
  unfold set all
  cases w.opened <;> simp

@[simp] lemma all_begin : w.begin.all = w.kept := List.append_nil _
@[simp] theorem all_commit : w.commit.all = w.all := List.append_nil _
@[simp] theorem all_rollback : w.rollback.all = w.kept := List.append_nil _

end Writes

inductive StateOp
  | get (key : Bytes)
  | set (kv : KV)
  | begin
  | commit
  | rollback

def Writes.step (w : Writes) : StateOp → Writes
  | .get _ => w
  | .set kv => w.set kv
  | .begin => w.begin
  | .commit => w.commit
  | .rollback => w.rollback

def Writes.run (w : Writes) (ops : List StateOp) : Writes := ops.foldl Writes.step w

namespace StateDB

def new (store : View) (mvcc : Bool) : StateDB := ⟨store,mvcc,fun _ => none,some fun _ => none,[],false⟩

def step (fork : Bool) (s : StateDB) : StateOp → StateDB
  | .get key => (s.get key).2
  | .set kv => s.set kv
  | .begin => s.begin fork
  | .commit => s.commit fork
  | .rollback => s.rollback

def run (fork : Bool) (s : StateDB) (ops : List StateOp) : StateDB := ops.foldl (step fork) s

/-- What the transaction cache holds, in a transaction or left over from one. -/
def left (s : StateDB) : View := s.txcache.getD fun _ => none

/-- What the transaction cache holds is there below it. -/
def Agrees (s : StateDB) : Prop := ∀ key value, s.left key = some value → s.below key = some value

/-- When a call keeps to the writes that survive: a delete finds no value below the cache
it writes to, and a cache left over from before ForkExecRollback does not matter. -/
def Meets (fork : Bool) (s : StateDB) : StateOp → Prop
  | .set (key,none) => if s.intx then s.below key = none else s.store key = none
  | .begin => fork = true ∨ s.Agrees
  | .commit => s.intx = true ∨ s.Agrees
  | _ => True

def AllMeet (fork : Bool) (s : StateDB) : List StateOp → Prop
  | [] => True
  | op :: ops => s.Meets fork op ∧ (s.step fork op).AllMeet fork ops

/-- The view is that of the store after the surviving writes. -/
def Shows (store : View) (s : StateDB) (w : Writes) : Prop := ∀ key, (s.get key).1 = writeAll store w.all key

/-- What holds in a run whose steps all meet the condition. -/
structure Tracks (store : View) (s : StateDB) (w : Writes) : Prop where
  same : s.store = store
  intx : s.intx = w.opened.isSome
  below : s.below = writeAll store w.kept
  view : s.view = writeAll store w.all

lemma shows_iff {store : View} {w : Writes} : Shows store s w ↔ s.view = writeAll store w.all := by
  simp only [Shows,get_value,funext_iff]

lemma Tracks.new (store : View) (m : Bool) : Tracks store (new store m) .empty := ⟨rfl,rfl,rfl,rfl⟩

lemma set_of_intx (hi : s.intx = true) (kv : KV) :
    s.set kv = {s with txcache := some (write s.left kv), keys := s.keys ++ [kv.1]} := if_pos hi

lemma set_of_idle (hi : s.intx = false) (kv : KV) :
    s.set kv = {s with cache := write s.cache kv} := if_neg (by simp [hi])

lemma view_of_intx (hi : s.intx = true) : s.view = overlay s.left s.below := by
  rw [view,pending,if_pos hi]
  rfl

lemma commit_view (fork : Bool) (s : StateDB) : (s.commit fork).view = overlay s.left s.below := by
  have hb : (s.commit fork).below = overlay (overlay s.left s.cache) s.store := by cases fork <;> rfl
  rw [view_of_idle (by cases fork <;> rfl),hb,overlay_assoc]
  rfl

section
variable {store : View} {w : Writes} {f : Bool} (h : Tracks store s w) {op : StateOp}
include h

lemma Tracks.get (key : Bytes) : Tracks store (s.get key).2 w := by
  have hv : (s.get key).2.view = s.view := by rw [StateDB.view,get_pending,get_below,StateDB.view]
  obtain ⟨c,hs,-⟩ := s.get_state key
  exact ⟨by rw [hs,h.same],by rw [get_intx,h.intx],by rw [get_below,h.below],by rw [hv,h.view]⟩

lemma Tracks.idle (hi : s.intx = false) : w.opened = none ∧ w.all = w.kept := by
  have hn : w.opened = none := by simpa [hi] using h.intx.symm
  exact ⟨hn,by simp [Writes.all,hn]⟩

lemma Tracks.set_iff (kv : KV) : (s.set kv).view = writeAll store (w.set kv).all ↔ s.Meets f (.set kv) := by
  have hw : writeAll store (w.set kv).all = write s.view kv := by
    rw [Writes.all_set,writeAll_append,← h.view]
    rfl
  have hm : s.Meets f (.set kv) ↔ (kv.2 = none → (if s.intx then s.below kv.1 else s.store kv.1) = none) := by
    obtain ⟨k,_ | v⟩ := kv
    · cases hi : s.intx <;> simp [Meets,hi]
    · simp [Meets]
  rw [hw,hm]
  cases hi : s.intx with
  | true =>
    have hv : (s.set kv).view = overlay (write s.left kv) s.below := by
      rw [set_of_intx hi,view_of_intx (by exact hi)]
      rfl
    rw [hv,view_of_intx hi,overlay_write_eq_iff]
    rfl
  | false =>
    have hv : (s.set kv).view = overlay (write s.cache kv) s.store := by
      rw [set_of_idle hi,view_of_idle (by exact hi)]
      rfl
    rw [hv,view_of_idle hi,StateDB.below,overlay_write_eq_iff]
    rfl

lemma Tracks.set {kv : KV} (hm : s.Meets f (.set kv)) : Tracks store (s.set kv) (w.set kv) := by
  have hv := (h.set_iff kv).mpr hm
  cases hi : s.intx with
  | true =>
    obtain ⟨o,ho⟩ := Option.isSome_iff_exists.mp (h.intx.symm.trans hi)
    have hs : w.set kv = ⟨w.kept,some (o ++ [kv])⟩ := by rw [Writes.set,ho]
    rw [set_of_intx hi] at hv ⊢
    rw [hs] at hv ⊢
    exact ⟨h.same,hi,h.below,hv⟩
  | false =>
    obtain ⟨ho,-⟩ := h.idle hi
    have hs : w.set kv = ⟨w.kept ++ [kv],none⟩ := by rw [Writes.set,ho]
    rw [set_of_idle hi] at hv ⊢
    rw [hs] at hv ⊢
    rw [Writes.all,Option.getD_none,List.append_nil] at hv
    exact ⟨h.same,hi,(view_of_idle (by exact hi)).symm.trans hv,by simpa [Writes.all] using hv⟩

lemma Tracks.begin_iff : (s.begin f).view = writeAll store w.begin.all ↔ s.Meets f .begin := by
  rw [Writes.all_begin,← h.below]
  cases f with
  | true => exact iff_of_true rfl (.inl rfl)
  | false =>
    have hv : (s.begin false).view = overlay s.left s.below := rfl
    rw [hv,overlay_eq_right_iff]
    simp [Meets,Agrees]

lemma Tracks.begin (hm : s.Meets f .begin) : Tracks store (s.begin f) w.begin :=
  ⟨h.same,rfl,h.below,h.begin_iff.mpr hm⟩

lemma Tracks.commit_iff : (s.commit f).view = writeAll store w.commit.all ↔ s.Meets f .commit := by
  rw [commit_view,Writes.all_commit,← h.view]
  cases hi : s.intx with
  | true => exact iff_of_true (view_of_intx hi).symm (.inl hi)
  | false =>
    rw [view_of_idle hi,overlay_eq_right_iff]
    simp [Meets,Agrees,hi]

lemma Tracks.commit (hm : s.Meets f .commit) : Tracks store (s.commit f) w.commit := by
  have hv := h.commit_iff.mpr hm
  have hidle : (s.commit f).intx = false := by cases f <;> rfl
  refine ⟨?_,hidle,?_,hv⟩
  · rw [← h.same]
    cases f <;> rfl
  · rw [← view_of_idle hidle,hv,Writes.all_commit]
    rfl

lemma Tracks.rollback : Tracks store s.rollback w.rollback := by
  refine ⟨h.same,rfl,h.below,?_⟩
  rw [Writes.all_rollback,← h.below]
  rfl

lemma Tracks.step (hm : s.Meets f op) : Tracks store (s.step f op) (w.step op) := by
  cases op with
  | get key => exact h.get key
  | set kv => exact h.set hm
  | begin => exact h.begin hm
  | commit => exact h.commit hm
  | rollback => exact h.rollback

/-- A step that does not meet the condition shows it at once. -/
theorem Tracks.meets (hs : Shows store (s.step f op) (w.step op)) : s.Meets f op := by
  rw [shows_iff] at hs
  cases op with
  | get key => trivial
  | set kv => exact (h.set_iff kv).mp hs
  | begin => exact h.begin_iff.mp hs
  | commit => exact h.commit_iff.mp hs
  | rollback => trivial

lemma Tracks.run_iff (ops : List StateOp) :
    (∀ n ≤ ops.length, Shows store (s.run f (ops.take n)) (w.run (ops.take n))) ↔ s.AllMeet f ops := by
  induction ops generalizing s w with
  | nil => simpa [AllMeet,run,Writes.run] using shows_iff.mpr h.view
  | cons op ops ih =>
    constructor
    · intro ha
      have hm := h.meets (ha 1 (by simp))
      refine ⟨hm,(ih (h.step hm)).mp fun n hn => ?_⟩
      exact ha (n+1) (by simpa using hn)
    · rintro ⟨hm,ha⟩ n hn
      cases n with
      | zero => exact shows_iff.mpr h.view
      | succ n => exact (ih (h.step hm)).mpr ha n (by simpa using hn)

end
end StateDB

/-- In a block, every state of a run answers as the store does after the surviving writes
if and only if every call meets the condition. -/
theorem stateDB_survivors (fork : Bool) (store : View) (mvcc : Bool) (ops : List StateOp) :
    (∀ n ≤ ops.length, ∀ key, (((StateDB.new store mvcc).run fork (ops.take n)).get key).1 =
        writeAll store (Writes.empty.run (ops.take n)).all key) ↔ (StateDB.new store mvcc).AllMeet fork ops :=
  (StateDB.Tracks.new store mvcc).run_iff ops

/-- A delete of a key that the store has. -/
theorem stateDB_delete_shows :
    (((StateDB.new (fun _ => some [7]) false).run true [.set ([1],none)]).get [1]).1 = some [7] ∧
      writeAll (fun _ => some [7]) (Writes.empty.run [.set ([1],none)]).all [1] = none := by
  decide

end Dpos.Executor
