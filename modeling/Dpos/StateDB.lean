import Dpos.Bytes
import Dpos.KeyIndex

/-! The state database of the executor: a cache over the store, and inside a
transaction a second cache over the first. -/
namespace Dpos.Executor

open KeyIndex

abbrev View := Bytes → Option Bytes

abbrev KV := Bytes × Option Bytes

/-- `StateDB`. `store` is what the store answers or, with MVCC, the version table. -/
structure StateDB where
  store : View
  mvcc : Bool
  cache : View
  txcache : Option View
  keys : List Bytes
  intx : Bool

inductive Call
  | get (key : Bytes)
  | set (kv : KV)
  deriving DecidableEq, Repr

def Call.sets : List Call → List KV := List.filterMap fun call =>
  match call with
  | .get _ => none
  | .set kv => some kv

@[simp] lemma Call.sets_nil : Call.sets [] = [] := rfl
@[simp] theorem Call.sets_get (key : Bytes) (calls : List Call) :
    Call.sets (.get key :: calls) = Call.sets calls := rfl
@[simp] lemma Call.sets_set (kv : KV) (calls : List Call) :
    Call.sets (.set kv :: calls) = kv :: Call.sets calls := rfl

namespace StateDB

def pending (s : StateDB) : View := if s.intx then s.txcache.getD fun _ => none else fun _ => none

/-- What is there outside of the running transaction. -/
def below (s : StateDB) : View := overlay s.cache s.store

def view (s : StateDB) : View := overlay s.pending s.below

/-- `Get`: a value that the store has is kept in the cache. -/
def get (s : StateDB) (key : Bytes) : Option Bytes × StateDB :=
  match s.pending key with
  | some value => (some value,s)
  | none =>
    match s.cache key with
    | some value => (some value,s)
    | none =>
      if s.mvcc then (s.store key,s)
      else match s.store key with
        | none => (none,s)
        | some value => (some value,{s with cache := write s.cache (key,some value)})

/-- `Set`: a nil value takes the key out of the cache that is written to. -/
def set (s : StateDB) (kv : KV) : StateDB :=
  if s.intx then
    {s with txcache := some (write (s.txcache.getD fun _ => none) kv), keys := s.keys ++ [kv.1]}
  else {s with cache := write s.cache kv}

def setAll (s : StateDB) (kvs : List KV) : StateDB := kvs.foldl set s

def call (s : StateDB) : Call → StateDB
  | .get key => (s.get key).2
  | .set kv => s.set kv

def callAll (s : StateDB) (calls : List Call) : StateDB := calls.foldl call s

def resetTx (s : StateDB) : StateDB := {s with intx := false, txcache := none, keys := []}

/-- `Begin`, where `fork` tells whether ForkExecRollback is active. -/
def begin (fork : Bool) (s : StateDB) : StateDB :=
  {s with intx := true, keys := [], txcache := if fork then none else s.txcache}

def commit (fork : Bool) (s : StateDB) : StateDB :=
  let s := {s with cache := overlay (s.txcache.getD fun _ => none) s.cache, intx := false, keys := []}
  if fork then s.resetTx else s

def rollback (s : StateDB) : StateDB := s.resetTx

def startTx (s : StateDB) : StateDB := {s with keys := []}

variable (s : StateDB) (key : Bytes)

lemma get_value : (s.get key).1 = s.view key := by
  unfold get view below overlay
  cases s.pending key with
  | some v => rfl
  | none =>
    cases s.cache key with
    | some v => rfl
    | none =>
      cases hm : s.mvcc with
      | true => rfl
      | false => cases hs : s.store key <;> simp

lemma get_state : ∃ cache, (s.get key).2 = {s with cache := cache} ∧ overlay cache s.store = s.below := by
  unfold get
  split
  · exact ⟨_,rfl,rfl⟩
  · split
    · exact ⟨_,rfl,rfl⟩
    · rename_i hc
      split_ifs
      · exact ⟨_,rfl,rfl⟩
      · split
        · exact ⟨_,rfl,rfl⟩
        · rename_i value hs
          refine ⟨_,rfl,?_⟩
          rw [overlay_write_some]
          funext k
          by_cases hk : k = key
          · subst hk
            simp [write,below,overlay,hc,hs]
          · simp [write,hk,below]

@[simp] lemma get_pending : (s.get key).2.pending = s.pending := by
  obtain ⟨c,hs,-⟩ := s.get_state key
  rw [hs]
  rfl

@[simp] lemma get_below : (s.get key).2.below = s.below := by
  obtain ⟨c,hs,hb⟩ := s.get_state key
  rw [hs]
  exact hb

@[simp] lemma get_intx : (s.get key).2.intx = s.intx := by
  obtain ⟨c,hs,-⟩ := s.get_state key
  rw [hs]

@[simp] lemma get_keys : (s.get key).2.keys = s.keys := by
  obtain ⟨c,hs,-⟩ := s.get_state key
  rw [hs]

lemma view_of_idle {s : StateDB} (h : s.intx = false) : s.view = s.below := by simp [view,pending,h]

/-- Inside a transaction, `kvs` being what it has set over `base` and `keys` the keys
set since the last `StartTx`. -/
structure InTx (base : View) (kvs : List KV) (keys : List Bytes) (s : StateDB) : Prop where
  intx : s.intx = true
  below : s.below = base
  pending : s.pending = writeAll (fun _ => none) kvs
  keys : s.keys = keys

section
variable {base : View} {kvs : List KV} {keys : List Bytes} {s : StateDB}

section
variable (h : InTx base kvs keys s)
include h

lemma InTx.view : s.view = overlay (writeAll (fun _ => none) kvs) base := by rw [StateDB.view,h.pending,h.below]

lemma InTx.set (kv : KV) : InTx base (kvs ++ [kv]) (keys ++ [kv.1]) (s.set kv) := by
  have hs : s.set kv = {s with
      txcache := some (write (s.txcache.getD fun _ => none) kv), keys := s.keys ++ [kv.1]} := by
    rw [StateDB.set,if_pos h.intx]
  have hp : s.txcache.getD (fun _ => none) = writeAll (fun _ => none) kvs := by
    rw [← h.pending,StateDB.pending,if_pos h.intx]
  rw [hs]
  refine ⟨h.intx,h.below,?_,by simp [h.keys]⟩
  simp only [StateDB.pending,h.intx,if_true,Option.getD_some,hp,writeAll_append]
  rfl

lemma InTx.get (key : Bytes) : InTx base kvs keys (s.get key).2 :=
  ⟨by rw [get_intx,h.intx],by rw [get_below,h.below],by rw [get_pending,h.pending],by rw [get_keys,h.keys]⟩

lemma InTx.setAll (new : List KV) : InTx base (kvs ++ new) (keys ++ new.map Prod.fst) (s.setAll new) := by
  induction new generalizing s kvs keys with
  | nil => simpa [StateDB.setAll] using h
  | cons kv new ih => simpa [StateDB.setAll] using ih (h.set kv)

lemma InTx.callAll (cs : List Call) :
    InTx base (kvs ++ Call.sets cs) (keys ++ (Call.sets cs).map Prod.fst) (s.callAll cs) := by
  induction cs generalizing s kvs keys with
  | nil => simpa [StateDB.callAll] using h
  | cons c cs ih =>
    cases c with
    | get key => simpa [StateDB.callAll,StateDB.call] using ih (h.get key)
    | set kv => simpa [StateDB.callAll,StateDB.call] using ih (h.set kv)

lemma InTx.startTx : InTx base kvs [] s.startTx := ⟨h.intx,h.below,h.pending,rfl⟩

end

/-- Only the last value of a key counts: what a later write names anyway may be left out. -/
theorem InTx.absorb {kvs1 kvs2 : List KV} (h : InTx base (kvs ++ kvs1 ++ kvs2) keys s)
    (hc : ∀ kv ∈ kvs1, kv.1 ∈ kvs2.map Prod.fst) : InTx base (kvs ++ kvs2) keys s := by
  refine ⟨h.intx,h.below,?_,h.keys⟩
  rw [h.pending]
  funext k
  simp only [writeAll_append]
  apply writeAll_congr
  rcases writeAll_cases (writeAll (fun _ => none) kvs) kvs1 k with ⟨-,he⟩ | hm
  · exact .inl he
  · obtain ⟨kv,hk,rfl⟩ := List.mem_map.mp (hc _ hm)
    exact .inr ⟨kv.2,hk⟩

lemma begin_inTx (h : s.intx = false) : InTx s.view [] [] (s.begin true) := ⟨rfl,(view_of_idle h).symm,rfl,rfl⟩

lemma InTx.rollback (h : InTx base kvs keys s) : s.rollback.view = base := by
  rw [view_of_idle rfl,← h.below]
  rfl

lemma InTx.commit (h : InTx base kvs keys s) : (s.commit true).view = s.view := by
  rw [view_of_idle rfl]
  have hp : s.txcache.getD (fun _ => none) = s.pending := by rw [StateDB.pending,if_pos h.intx]
  have hb : (s.commit true).below = overlay (overlay (s.txcache.getD fun _ => none) s.cache) s.store := rfl
  rw [hb,hp,overlay_assoc]
  rfl

end
end StateDB
end Dpos.Executor
