import Dpos.LocalDB
import Dpos.StateRun

/-! The local database of the executor: maps for what was read and set, over a local
transaction at the block chain that gets the pairs set when a list needs them. -/
namespace Dpos.Executor

open List Option Function

variable {maindb : Store}

open DB (isDeleted found Store)

inductive LocalErr
  | disableRead | disableWrite | notFound
  deriving DecidableEq, Repr

/-- `LocalDB`. A nil value in `cache` is a key not found, and `remote` is the transaction of `txid`.
-/
structure LocalDB where
  cache : Bytes → Option (Option Bytes)
  txcache : Option View
  keys : List Bytes
  intx : Bool
  hasbegin : Bool
  kvs : List KV
  remote : DB.LocalDB
  disableread : Bool
  disablewrite : Bool

namespace LocalDB
variable (l : LocalDB)

def new (maindb : Store) (readOnly : Bool) : LocalDB :=
  ⟨fun _ => none,none,[],false,false,[],.new maindb readOnly,false,false⟩

def resetTx : LocalDB := {l with intx := false, txcache := none, keys := [], hasbegin := false}

def «begin» : LocalDB := {l with intx := true, keys := [], txcache := none, hasbegin := false}

/-- `localSet` of the block chain, `none` where it panics. -/
def localSet (remote : DB.LocalDB) (kvs : List KV) : Option DB.LocalDB :=
  kvs.foldlM (fun remote kv => remote.set kv.1 (kv.2.getD [])) remote

def save : Option LocalDB :=
  if l.kvs = [] then some l
  else (localSet (if l.hasbegin then l.remote else l.remote.begin) l.kvs).map fun remote =>
    {l with remote := remote, hasbegin := true, kvs := []}

/-- What the loop of `Commit` makes of the cache. -/
def committed (key : Bytes) : Option (Option Bytes) :=
  match l.txcache.bind (· key) with
  | some value => some (some value)
  | none => l.cache key

def commit : Option LocalDB :=
  ({l with cache := l.committed} : LocalDB).save.map fun l =>
    {l with remote := if l.hasbegin then l.remote.commit else l.remote}.resetTx

def rollback : LocalDB := {l with remote := if l.hasbegin then l.remote.rollback else l.remote}.resetTx

def answer (value : Option Bytes) : Except LocalErr Bytes :=
  match value with
  | some value => .ok value
  | none => .error .notFound

def get (key : Bytes) : Except LocalErr Bytes × LocalDB :=
  if l.disableread then (.error .disableRead,l)
  else match (if l.intx then l.txcache else none).bind (· key) with
    | some value => (.ok value,l)
    | none => match l.cache key with
      | some value => (answer value,l)
      | none => (answer (l.remote.get key).1,
          {l with cache := update l.cache key (some (l.remote.get key).1), remote := (l.remote.get key).2})

def setCache (kv : KV) : Bytes → Option (Option Bytes) := update l.cache kv.1 (kv.2.map some)

def set (kv : KV) : Except LocalErr Unit × LocalDB :=
  if l.disablewrite then (.error .disableWrite,l)
  else if l.intx then
    (.ok (),{l with
      txcache := some (KeyIndex.write (l.txcache.getD fun _ => none) kv)
      keys := l.keys ++ [kv.1]
      kvs := l.kvs ++ [kv]})
  else (.ok (),{l with cache := l.setCache kv, kvs := l.kvs ++ [kv]})

def list (encode : Bytes × Bytes → Bytes) (pre key : Bytes) (count direction : BitVec 32) :
    Option (Except LocalErr (List Bytes) × LocalDB) :=
  if l.disableread then some (.error .disableRead,l)
  else l.save.map fun l =>
    let values := l.remote.list encode pre key count direction
    (if values = [] then .error .notFound else .ok values,l)

end LocalDB

/-- The calls on the local database. What a list asks for does not change what it leaves. -/
inductive ExecOp
  | get (key : Bytes)
  | set (kv : KV)
  | begin
  | commit
  | rollback
  | list
  | disableRead (disable : Bool)
  | disableWrite (disable : Bool)

namespace LocalDB
variable (l : LocalDB)

def step : ExecOp → Option LocalDB
  | .get key => some (l.get key).2
  | .set kv => some (l.set kv).2
  | .begin => some l.begin
  | .commit => l.commit
  | .rollback => some l.rollback
  | .list => if l.disableread then some l else l.save
  | .disableRead disable => some {l with disableread := disable}
  | .disableWrite disable => some {l with disablewrite := disable}

def survive (w : Writes) : ExecOp → Writes
  | .set kv => if l.disablewrite then w else w.set kv
  | .begin => w.begin
  | .commit => w.commit
  | .rollback => w.rollback
  | _ => w

def run (l : LocalDB) (w : Writes) : List ExecOp → Option (LocalDB × Writes)
  | [] => some (l,w)
  | op :: ops => (l.step op).bind fun l' => l'.run (l.survive w op) ops

/-- When a call leaves nothing of a transaction behind: no transaction that has written
is dropped by `Begin`, none is rolled back with pairs that are still to be sent, and inside one
no key is read from the block chain that it has set there. -/
def Meets : ExecOp → Prop
  | .get key => l.disableread = true ∨ key ∉ l.keys ∨ l.hasbegin = false ∨ (l.txcache.bind (· key)).isSome ∨
      (l.cache key).isSome
  | .begin => l.keys = []
  | .rollback => l.keys = [] ∨ l.kvs = []
  | _ => True

instance : DecidablePred l.Meets := fun op =>
  match op with
  | .get key => inferInstanceAs (Decidable (l.disableread = true ∨ key ∉ l.keys ∨ l.hasbegin = false ∨
      (l.txcache.bind (· key)).isSome ∨ (l.cache key).isSome))
  | .begin => inferInstanceAs (Decidable (l.keys = []))
  | .rollback => inferInstanceAs (Decidable (l.keys = [] ∨ l.kvs = []))
  | .set _ | .commit | .list | .disableRead _ | .disableWrite _ => inferInstanceAs (Decidable True)

def AllMeet (l : LocalDB) : List ExecOp → Prop
  | [] => True
  | op :: ops => l.Meets op ∧ ∀ l' ∈ l.step op, l'.AllMeet ops

instance allMeetDecidable : ∀ (l : LocalDB) (ops : List ExecOp), Decidable (l.AllMeet ops)
  | _,[] => inferInstanceAs (Decidable True)
  | l,op :: ops =>
    have : DecidablePred fun l' : LocalDB => l'.AllMeet ops := fun l' => allMeetDecidable l' ops
    inferInstanceAs (Decidable (l.Meets op ∧ ∀ l' ∈ l.step op, l'.AllMeet ops))

end LocalDB

/-- The answer comes from the main database or from one of the writes; an empty value is
not found at the block chain. -/
def Origin (maindb : Store) (ws : List KV) (key : Bytes) (answer : Option Bytes) : Prop :=
  answer = found (maindb.get key) ∨ ∃ value, (key,value) ∈ ws ∧ (answer = value ∨ answer = found value)

section
variable {ws ws' : List KV} {key : Bytes} {answer : Option Bytes}

lemma Origin.mono (h : Origin maindb ws key answer) (hs : ∀ kv ∈ ws, kv ∈ ws') : Origin maindb ws' key answer :=
  h.imp_right fun ⟨v,hm,he⟩ => ⟨v,hs _ hm,he⟩

def Entry (maindb : Store) (ws : List KV) (e : Bytes × Bytes) : Prop :=
  maindb.get e.1 = some e.2 ∨ ∃ value, (e.1,value) ∈ ws ∧ e.2 = value.getD []

lemma found_getD (value : Option Bytes) : found (some (value.getD [])) = found value := by
  cases value <;> rfl

lemma Entry.origin {e : Bytes × Bytes} (h : Entry maindb ws e) : Origin maindb ws e.1 (found (some e.2)) := by
  rcases h with hm | ⟨v,hme,he⟩
  · exact .inl (by rw [hm])
  · exact .inr ⟨v,hme,.inr (by rw [he,found_getD])⟩

lemma Entry.mono {e : Bytes × Bytes} (h : Entry maindb ws e) (hs : ∀ kv ∈ ws, kv ∈ ws') : Entry maindb ws' e :=
  h.imp_right fun ⟨v,hm,he⟩ => ⟨v,hs _ hm,he⟩

end

namespace LocalDB

/-- What the local transaction holds: the writes that survive, above them what was sent
since `Begin`. -/
structure Sent (maindb : Store) (kept sent : List KV) (remote : DB.LocalDB) : Prop where
  refines : ∃ m, remote.Refines m
  main : remote.maindb = maindb
  cache : ∀ cache, remote.cache = some cache → ∀ e ∈ cache.entries, Entry maindb kept e
  txcache : ∀ tx, remote.txcache = some tx → ∀ e ∈ tx.entries, Entry maindb sent e

section
variable {ma : Store} {k s k' s' : List KV} {remote remote' : DB.LocalDB}

lemma Sent.new (ro : Bool) : Sent ma k s (.new ma ro) := by
  refine ⟨⟨_,.new ma ro⟩,?_,?_,?_⟩ <;> cases ro <;> simp [DB.LocalDB.new,SortedStore.empty]

section
variable (h : Sent ma k s remote)
include h

lemma Sent.mono (hk : ∀ kv ∈ k, kv ∈ k') (hs : ∀ kv ∈ s, kv ∈ s') : Sent ma k' s' remote :=
  ⟨h.refines,h.main,fun c hc e he => (h.cache c hc e he).mono hk,
    fun tx ht e he => (h.txcache tx ht e he).mono hs⟩

lemma Sent.begin : Sent ma k k remote.begin := by
  obtain ⟨m,hm⟩ := h.refines
  exact ⟨⟨_,hm.begin⟩,h.main,h.cache,by simp [DB.LocalDB.begin]⟩

lemma Sent.rollback : Sent ma k k remote.rollback := by
  obtain ⟨m,hm⟩ := h.refines
  exact ⟨⟨_,hm.rollback⟩,h.main,h.cache,by simp [DB.LocalDB.rollback,DB.LocalDB.resetTx]⟩

lemma Sent.commit (hs : ∀ kv ∈ k, kv ∈ s) : Sent ma s s remote.commit := by
  obtain ⟨m,hm⟩ := h.refines
  have hco := hm.commit
  cases ht : remote.txcache with
  | none =>
    have heq : remote.commit = remote.resetTx := by rw [DB.LocalDB.commit,ht]
    rw [heq] at hco ⊢
    exact ⟨⟨_,hco⟩,h.main,fun c hc e he => (h.cache c hc e he).mono hs,by simp [DB.LocalDB.resetTx]⟩
  | some tx =>
    refine ⟨⟨_,hco⟩,?_,?_,?_⟩ <;> rw [DB.LocalDB.commit,ht]
    · exact h.main
    · intro c' hca' e he
      obtain ⟨c,hca,rfl⟩ := map_eq_some_iff.mp hca'
      rw [← SortedStore.get_eq_some,DB.LocalDB.commitLoop_iterator] at he
      rcases or_eq_some_iff.mp he with hme | ⟨-,hme⟩
      · exact h.txcache tx ht e (tx.get_eq_some.mp hme)
      · exact (h.cache c hca e (c.get_eq_some.mp hme)).mono hs
    · simp [DB.LocalDB.resetTx]

lemma Sent.set (hi : remote.intx = true) {key v : Bytes}
    (hv : Entry ma s (key,v)) (hs : remote.set key v = some remote') :
    Sent ma k s remote' ∧ remote'.intx = true := by
  obtain ⟨m,hm⟩ := h.refines
  have hr := hm.set hs
  unfold DB.LocalDB.set at hs
  split_ifs at hs
  cases hs
  refine ⟨⟨⟨_,hr⟩,h.main,h.cache,fun tx ht e he => ?_⟩,hi⟩
  cases ht
  rcases (SortedStore.mem_set _).mp he with rfl | ⟨he,-⟩
  · exact hv
  · cases ht' : remote.txcache with
    | none => simp [ht',SortedStore.empty] at he
    | some tx =>
      rw [ht'] at he
      exact h.txcache tx ht' e he

lemma Sent.localSet (hi : remote.intx = true) {kvs : List KV}
    (hkvs : ∀ kv ∈ kvs, kv ∈ s) (hs : localSet remote kvs = some remote') :
    Sent ma k s remote' ∧ remote'.intx = true := by
  induction kvs generalizing remote with
  | nil => exact Option.some.inj hs ▸ ⟨h,hi⟩
  | cons kv kvs ih =>
    obtain ⟨remote1,hs1,hs⟩ := bind_eq_some_iff.mp hs
    obtain ⟨h1,hi1⟩ := h.set hi (.inr ⟨kv.2,hkvs kv mem_cons_self,rfl⟩) hs1
    exact ih h1 hi1 (fun kv hk => hkvs kv (mem_cons_of_mem _ hk)) hs

lemma Sent.getCached (key : Bytes) : ((remote.getCached key).1 = none ∧ ma.get key = none) ∨
      ∃ v, (remote.getCached key).1 = some v ∧ (Entry ma s (key,v) ∨ Entry ma k (key,v)) := by
  unfold DB.LocalDB.getCached
  cases ht : (if remote.intx then remote.txcache else none).bind (·.get key) with
  | some v =>
    refine .inr ⟨v,rfl,.inl ?_⟩
    obtain ⟨tx,ht,hg⟩ := bind_eq_some_iff.mp ht
    split_ifs at ht
    exact h.txcache tx ht _ (tx.get_eq_some.mp hg)
  | none =>
    cases hca : remote.cache.bind (·.get key) with
    | some v =>
      refine .inr ⟨v,rfl,.inr ?_⟩
      obtain ⟨c,hc,hg⟩ := bind_eq_some_iff.mp hca
      exact h.cache c hc _ (c.get_eq_some.mp hg)
    | none =>
      rw [h.main]
      cases hm : ma.get key with
      | none => exact .inl ⟨rfl,rfl⟩
      | some v => exact .inr ⟨v,rfl,.inl (.inl hm)⟩

/-- A read of a key that was not sent since `Begin` finds what survives. -/
theorem Sent.get_origin {key : Bytes}
    (hk : ∀ v, (key,v) ∈ s → (key,v) ∈ k) : Origin ma k key (remote.get key).1 := by
  have he : ∀ v, Entry ma s (key,v) ∨ Entry ma k (key,v) →
      Origin ma k key (found (some v)) := by
    rintro v ((hm | ⟨v',hme,heq⟩) | hkp)
    · exact Entry.origin (.inl hm)
    · exact Entry.origin (.inr ⟨v',hk _ hme,heq⟩)
    · exact hkp.origin
  rcases h.getCached key with ⟨hn,hm⟩ | ⟨v,hs,hv⟩
  · exact .inl (by rw [DB.LocalDB.get,hn,hm]; rfl)
  · have hg : (remote.get key).1 = found (some v) := by rw [DB.LocalDB.get,hs]; rfl
    rw [hg]
    exact he v hv

lemma Sent.get (key : Bytes) : Sent ma k s (remote.get key).2 ∧ (remote.get key).2.intx = remote.intx := by
  obtain ⟨m,hm⟩ := h.refines
  have hr := hm.get key
  obtain heq | ⟨v,-,hma,heq⟩ := remote.getCached_cases key
  · have heq : (remote.get key).2 = remote := heq
    rw [heq]
    exact ⟨h,rfl⟩
  · have heq : (remote.get key).2 = {remote with cache := remote.cache.map (·.set key v)} := heq
    rw [heq] at hr ⊢
    refine ⟨⟨⟨m,hr⟩,h.main,fun cache' hc' e he => ?_,h.txcache⟩,rfl⟩
    obtain ⟨cache,hc,rfl⟩ := map_eq_some_iff.mp hc'
    rcases (SortedStore.mem_set _).mp he with rfl | ⟨he,-⟩
    · exact .inl (h.main ▸ hma)
    · exact h.cache cache hc e he

end

end

/-! ### Steps and runs -/

def sent (l : LocalDB) (w : Writes) : List KV := if l.hasbegin then w.all else w.kept

/-- Nothing but surviving writes and those of the open transaction is anywhere, and what
outlives the transaction has none of its own. -/
structure Clean (maindb : Store) (l : LocalDB) (w : Writes) : Prop where
  remote : Sent maindb w.kept (l.sent w) l.remote
  begun : l.hasbegin = true → l.remote.intx = true
  cache : ∀ key answer, l.cache key = some answer → Origin maindb w.kept key answer
  txcache : ∀ key value, l.txcache.bind (· key) = some value → (key,some value) ∈ w.opened.getD []
  keys : l.keys = (w.opened.getD []).map Prod.fst
  kvs : ∀ kv ∈ l.kvs, kv ∈ w.all
  intx : l.intx = w.opened.isSome

section
variable {l l' : LocalDB} {w : Writes}

lemma kept_sub_all (w : Writes) : ∀ kv ∈ w.kept, kv ∈ w.all := fun _ => mem_append_left _

lemma sent_sub_all (l : LocalDB) (w : Writes) : ∀ kv ∈ l.sent w, kv ∈ w.all := by
  unfold sent
  split_ifs
  · exact fun _ => id
  · exact kept_sub_all w

lemma Clean.new (maindb : Store) (ro : Bool) : Clean maindb (.new maindb ro) .empty :=
  ⟨.new ro,by simp [LocalDB.new],by simp [LocalDB.new],by simp [LocalDB.new],rfl,by simp [LocalDB.new],rfl⟩

lemma Clean.all_eq_kept (h : Clean maindb l w) (hk : l.keys = []) : w.all = w.kept := by
  have ho : w.opened.getD [] = [] := map_eq_nil_iff.mp (h.keys.symm.trans hk)
  rw [Writes.all,ho,append_nil]

lemma Clean.kept_of_not_mem (h : Clean maindb l w) {key : Bytes} (hk : key ∉ l.keys) {v : Option Bytes}
    (hm : (key,v) ∈ w.all) : (key,v) ∈ w.kept := by
  refine (mem_append.mp hm).resolve_right fun ho => hk ?_
  rw [h.keys]
  exact mem_map.mpr ⟨_,ho,rfl⟩

def fetched (l : LocalDB) (key : Bytes) : LocalDB :=
  {l with cache := update l.cache key (some (l.remote.get key).1), remote := (l.remote.get key).2}

lemma get_cases (l : LocalDB) (key : Bytes) : (l.disableread = true ∧ l.get key = (.error .disableRead,l)) ∨
      (∃ v, l.txcache.bind (· key) = some v ∧ l.get key = (answer (some v),l)) ∨
      (∃ v, l.cache key = some v ∧ l.get key = (answer v,l)) ∨
      (l.disableread = false ∧ (if l.intx then l.txcache else none).bind (· key) = none ∧ l.cache key = none ∧
        l.get key = (answer (l.remote.get key).1,l.fetched key)) := by
  unfold LocalDB.get
  cases hr : l.disableread with
  | true => exact .inl ⟨rfl,rfl⟩
  | false =>
    right
    rw [if_neg (by simp)]
    cases ht : (if l.intx then l.txcache else none).bind (· key) with
    | some v =>
      obtain ⟨tx,hs,hv⟩ := bind_eq_some_iff.mp ht
      split_ifs at hs
      exact .inl ⟨v,by rw [hs]; exact hv,rfl⟩
    | none =>
      right
      cases hc : l.cache key with
      | some v => exact .inl ⟨v,rfl,rfl⟩
      | none => exact .inr ⟨rfl,rfl,rfl,by rw [fetched,hr]⟩

lemma Clean.get (h : Clean maindb l w) {key : Bytes} (hme : l.Meets (.get key)) : Clean maindb (l.get key).2 w := by
  obtain ⟨-,he⟩ | ⟨v,-,he⟩ | ⟨v,-,he⟩ | ⟨hre,ht,hc,he⟩ := l.get_cases key <;> rw [he]
  · exact h
  · exact h
  · exact h
  · have ht : l.txcache.bind (· key) = none := by
      cases hi : l.intx with
      | true => simpa [hi] using ht
      | false =>
        by_contra hne
        obtain ⟨v,hv⟩ := ne_none_iff_exists'.mp hne
        have hm := h.txcache key v hv
        have hn : w.opened = none := by simpa [hi] using h.intx.symm
        simp [hn] at hm
    -- nothing of the open transaction is at the block chain for this key
    have ho : Origin maindb w.kept key (l.remote.get key).1 := by
      refine h.remote.get_origin fun v hm => ?_
      have hcs : key ∉ l.keys ∨ l.hasbegin = false := by simpa [Meets,hre,ht,hc] using hme
      rcases hcs with hky | hb
      · exact h.kept_of_not_mem hky (sent_sub_all l w _ hm)
      · simpa [sent,hb] using hm
    obtain ⟨hr,hi⟩ := h.remote.get key
    refine ⟨hr,fun hb => hi.trans (h.begun hb),fun k answer hk => ?_,h.txcache,h.keys,h.kvs,h.intx⟩
    have hk : update l.cache key (some (l.remote.get key).1) k = some answer := hk
    by_cases hky : k = key
    · subst hky
      rw [update_self] at hk
      exact Option.some.inj hk ▸ ho
    · rw [update_of_ne hky] at hk
      exact h.cache k answer hk

lemma Clean.set (h : Clean maindb l w) {kv : KV} (hwr : l.disablewrite = false) :
    Clean maindb (l.set kv).2 (w.set kv) := by
  have hs : ∀ kv' ∈ w.all, kv' ∈ (w.set kv).all := fun kv' hm => by
    rw [Writes.all_set]
    exact mem_append_left _ hm
  have hkvs : ∀ kv' ∈ l.kvs ++ [kv], kv' ∈ (w.set kv).all := fun kv' hm => by
    rw [Writes.all_set]
    exact mem_append.mpr ((mem_append.mp hm).imp_left (h.kvs kv'))
  have hsn : ∀ kv' ∈ l.sent w, kv' ∈ l.sent (w.set kv) := by
    unfold sent
    split_ifs
    · exact hs
    · intro kv' hm
      unfold Writes.set
      cases w.opened with
      | none => exact mem_append_left _ hm
      | some o => exact hm
  rw [LocalDB.set,if_neg (by simp [hwr])]
  cases hi : l.intx with
  | true =>
    obtain ⟨o,ho⟩ := isSome_iff_exists.mp (h.intx.symm.trans hi)
    have hw : w.set kv = ⟨w.kept,some (o ++ [kv])⟩ := by rw [Writes.set,ho]
    have htx := h.txcache
    have hke := h.keys
    rw [ho,getD_some] at htx hke
    rw [hw] at hs hkvs hsn ⊢
    rw [if_pos rfl]
    refine ⟨h.remote.mono (fun _ => id) hsn,h.begun,h.cache,fun key v hv => ?_,by simp [hke],hkvs,rfl⟩
    rw [getD_some]
    rw [bind_some,KeyIndex.write] at hv
    by_cases hk : key = kv.1
    · subst hk
      rw [update_self] at hv
      exact mem_append_right _ (by simp [← hv])
    · rw [update_of_ne hk] at hv
      refine mem_append_left _ (htx key v ?_)
      cases ht : l.txcache with
      | none => simp [ht] at hv
      | some tx => simpa [ht] using hv
  | false =>
    have ho : w.opened = none := by simpa [hi] using h.intx.symm
    have hw : w.set kv = ⟨w.kept ++ [kv],none⟩ := by rw [Writes.set,ho]
    have htx := h.txcache
    have hke := h.keys
    rw [ho,getD_none] at htx hke
    rw [hw] at hs hkvs hsn ⊢
    rw [if_neg (by simp)]
    have hkp : ∀ kv' ∈ w.kept, kv' ∈ w.kept ++ [kv] := fun _ => mem_append_left _
    refine ⟨h.remote.mono hkp hsn,h.begun,fun key answer hk => ?_,htx,hke,hkvs,rfl⟩
    have hk : update l.cache kv.1 (kv.2.map some) key = some answer := hk
    by_cases hky : key = kv.1
    · subst hky
      rw [update_self] at hk
      obtain ⟨v,hv,rfl⟩ := map_eq_some_iff.mp hk
      exact .inr ⟨some v,mem_append_right _ (by simp [← hv]),.inl rfl⟩
    · rw [update_of_ne hky] at hk
      exact (h.cache key answer hk).mono hkp

lemma save_spec (hr : Sent maindb w.kept (l.sent w) l.remote) (hb : l.hasbegin = true → l.remote.intx = true)
    (hkvs : ∀ kv ∈ l.kvs, kv ∈ w.all) (hsave : l.save = some l') :
    Sent maindb w.kept (l'.sent w) l'.remote ∧ (l'.hasbegin = true → l'.remote.intx = true) ∧
      ∃ remote hasbegin, l' = {l with remote := remote, hasbegin := hasbegin, kvs := []} := by
  unfold save at hsave
  by_cases hn : l.kvs = []
  · rw [if_pos hn] at hsave
    cases hsave
    exact ⟨hr,hb,l.remote,l.hasbegin,by rw [← hn]⟩
  · rw [if_neg hn] at hsave
    obtain ⟨remote,hs,rfl⟩ := map_eq_some_iff.mp hsave
    have hst : Sent maindb w.kept w.all (if l.hasbegin then l.remote else l.remote.begin) ∧
        (if l.hasbegin then l.remote else l.remote.begin).intx = true := by
      cases hbe : l.hasbegin with
      | true => exact ⟨by simpa [sent,hbe] using hr,hb hbe⟩
      | false => exact ⟨hr.begin.mono (fun _ => id) (kept_sub_all w),rfl⟩
    obtain ⟨hsn,hi⟩ := hst.1.localSet hst.2 hkvs hs
    exact ⟨by simpa [sent] using hsn,fun _ => hi,remote,true,rfl⟩

section
variable (h : Clean maindb l w)
include h

lemma Clean.save (hsave : l.save = some l') : Clean maindb l' w := by
  obtain ⟨hr,hb,remote,hasbegin,rfl⟩ := save_spec h.remote h.begun h.kvs hsave
  exact ⟨hr,hb,h.cache,h.txcache,h.keys,by simp,h.intx⟩

lemma Clean.commit (hc : l.commit = some l') : Clean maindb l' w.commit := by
  obtain ⟨l1,hsave,rfl⟩ := map_eq_some_iff.mp hc
  obtain ⟨hr,-,remote,hasbegin,rfl⟩ := save_spec (l := {l with cache := l.committed}) h.remote h.begun h.kvs hsave
  refine ⟨?_,by simp [resetTx],fun key answer hk => ?_,by simp [resetTx],rfl,by simp [resetTx],rfl⟩
  · cases hb : hasbegin with
    | true => exact (by simpa [sent,hb] using hr : Sent maindb w.kept w.all remote).commit (kept_sub_all w)
    | false =>
      exact (by simpa [sent,hb] using hr : Sent maindb w.kept w.kept remote).mono (kept_sub_all w) (kept_sub_all w)
  · have hk : l.committed key = some answer := hk
    unfold committed at hk
    cases ht : l.txcache.bind (· key) with
    | some v =>
      rw [ht] at hk
      exact .inr ⟨some v,mem_append_right _ (h.txcache key v ht),.inl (Option.some.inj hk).symm⟩
    | none =>
      rw [ht] at hk
      exact (h.cache key answer hk).mono (kept_sub_all w)

lemma Clean.rollback (hm : l.Meets .rollback) : Clean maindb l.rollback w.rollback := by
  refine ⟨?_,by simp [LocalDB.rollback,resetTx],h.cache,by simp [LocalDB.rollback,resetTx],rfl,fun kv hk => ?_,rfl⟩
  · have hr := h.remote
    unfold LocalDB.rollback
    cases hb : l.hasbegin with
    | true => exact hr.rollback
    | false => simpa [sent,hb,resetTx,Writes.rollback] using hr
  · have hk : kv ∈ l.kvs := hk
    rcases hm with hke | hn
    · simpa [h.all_eq_kept hke] using h.kvs kv hk
    · simp [hn] at hk

lemma Clean.begin (hm : l.Meets .begin) : Clean maindb l.begin w.begin := by
  have ha := h.all_eq_kept hm
  have hr := h.remote
  refine ⟨?_,by simp [LocalDB.begin],h.cache,by simp [LocalDB.begin],rfl,fun kv hk => ?_,rfl⟩
  · rw [sent,ha,ite_self] at hr
    exact hr
  · simpa [ha] using h.kvs kv hk

lemma Clean.step {op : ExecOp} (hm : l.Meets op) (hs : l.step op = some l') :
    Clean maindb l' (l.survive w op) := by
  cases op with
  | get key => exact Option.some.inj hs ▸ h.get hm
  | set kv =>
    cases hs
    cases hw : l.disablewrite with
    | true => simpa [survive,LocalDB.set,hw] using h
    | false => simpa [survive,hw] using h.set hw
  | begin => exact Option.some.inj hs ▸ h.begin hm
  | commit => exact h.commit hs
  | rollback => exact Option.some.inj hs ▸ h.rollback hm
  | list =>
    unfold LocalDB.step at hs
    split_ifs at hs
    · exact Option.some.inj hs ▸ h
    · exact h.save hs
  | disableRead d
  | disableWrite d =>
    cases hs
    exact ⟨h.remote,h.begun,h.cache,h.txcache,h.keys,h.kvs,h.intx⟩

lemma Clean.run {w' : Writes} {ops : List ExecOp} (hm : l.AllMeet ops)
    (hrun : l.run w ops = some (l',w')) : Clean maindb l' w' := by
  induction ops generalizing l w with
  | nil =>
    cases hrun
    exact h
  | cons op ops ih =>
    obtain ⟨l1,hs,hrun⟩ := bind_eq_some_iff.mp hrun
    exact ih (h.step hm.1 hs) (hm.2 l1 hs) hrun

/-- An answer of `Get` comes from what survives or from the open transaction. -/
theorem Clean.get_answer (key : Bytes) :
    (l.get key).1 = .error .disableRead ∨ ∃ value, (l.get key).1 = answer value ∧ Origin maindb w.all key value := by
  obtain ⟨-,he⟩ | ⟨value,hv,he⟩ | ⟨value,hv,he⟩ | ⟨-,-,-,he⟩ := l.get_cases key <;> rw [he]
  · exact .inl rfl
  · exact .inr ⟨some value,rfl,.inr ⟨some value,mem_append_right _ (h.txcache key value hv),.inl rfl⟩⟩
  · exact .inr ⟨value,rfl,(h.cache key value hv).mono (kept_sub_all w)⟩
  · exact .inr ⟨_,rfl,(h.remote.mono (kept_sub_all w) (sent_sub_all l w)).get_origin fun _ => id⟩

lemma Clean.entry : ∀ db ∈ l.remote.dblist, ∀ e ∈ db.entries, Entry maindb w.all e := by
  have ha := h.remote.mono (kept_sub_all w) (sent_sub_all l w)
  intro db hdb e he
  simp only [DB.LocalDB.dblist,mem_append,mem_toList,mem_singleton] at hdb
  rcases hdb with (ht | hc) | rfl
  · exact ha.txcache db ht e he
  · exact ha.cache db hc e he
  · refine .inl ?_
    rw [← h.remote.main]
    exact (SortedStore.get_eq_some _).mpr he

end

end

/-- What a list returns; an error stands for no values. -/
def values (result : Except LocalErr (List Bytes)) : List Bytes :=
  match result with
  | .ok values => values
  | .error _ => []

lemma Clean.lookup {maindb : Store} {l : LocalDB} {w : Writes} (h : Clean maindb l w) (key : Bytes) :
    Origin maindb w.all key (found (l.remote.lookup key)) := by
  cases hl : l.remote.lookup key with
  | none =>
    rw [← DB.LocalDB.findSome?_dblist] at hl
    have hm := List.findSome?_eq_none_iff.mp hl l.remote.maindb (by simp [DB.LocalDB.dblist])
    exact .inl (by rw [← h.remote.main,hm])
  | some v =>
    rw [← DB.LocalDB.findSome?_dblist] at hl
    obtain ⟨db,hdb,hg⟩ := exists_of_findSome?_eq_some hl
    exact (h.entry db hdb (key,v) ((SortedStore.get_eq_some _).mp hg)).origin

end LocalDB

/-- In a run whose steps all meet the condition, what `Get` answers, what a list reads and
what is still to be sent comes from the main database, from writes that survive or from those of
the open transaction: nothing that was rolled back is there. -/
theorem localDB_hides_undone (maindb : Store) (readOnly : Bool) (ops : List ExecOp) (l : LocalDB) (w : Writes)
    (hrun : (LocalDB.new maindb readOnly).run .empty ops = some (l,w))
    (hme : (LocalDB.new maindb readOnly).AllMeet ops) : (∀ key, (l.get key).1 = .error .disableRead ∨
        ∃ value, (l.get key).1 = LocalDB.answer value ∧ Origin maindb w.all key value) ∧
      (∀ kv ∈ l.kvs, kv ∈ w.all) ∧ ∃ m : Store, (∀ key, Origin maindb w.all key (m.get key)) ∧
        ∀ encode pre key count direction result l', l.disableread = false →
          l.list encode pre key count direction = some (result,l') →
          (key = [] → LocalDB.values result = DB.LocalDB.scanOf encode m pre count direction) ∧
          ∀ b ∈ LocalDB.values result, ∃ k v, Origin maindb w.all k (some v) ∧ (b = k ∨ b = v ∨ b = encode (k,v)) := by
  have h := (LocalDB.Clean.new maindb readOnly).run hme hrun
  refine ⟨h.get_answer,h.kvs,?_⟩
  cases hsave : l.save with
  | none =>
    refine ⟨(DB.TxMap.new maindb).base,fun key => .inl (DB.TxMap.get_new maindb key),?_⟩
    intro encode pre key count direction result l' hr hl
    simp [LocalDB.list,hr,hsave] at hl
  | some saved =>
    have hs := h.save hsave
    obtain ⟨m,hm⟩ := hs.remote.refines
    refine ⟨m.view,fun key => hm.view key ▸ hs.lookup key,?_⟩
    intro encode pre key count direction result l' hr hl
    have hv : LocalDB.values result = saved.remote.list encode pre key count direction := by
      rw [LocalDB.list,if_neg (by simp [hr]),hsave] at hl
      cases hl
      split_ifs with hn
      · exact hn.symm
      · rfl
    rw [hv]
    refine ⟨fun hk => ?_,fun b hb => ?_⟩
    · rw [hk,hm.list]
    · obtain ⟨e,he,hlv,hb⟩ := DB.LocalDB.mem_list hs.entry hb
      have hf : found (some e.2) = some e.2 := by simp [found,filter_some,hlv]
      exact ⟨e.1,e.2,hf ▸ he.origin,hb⟩

/-- A transaction that sends its write with a list before it is rolled back, and one that
commits. -/
def sentThenUndone : List ExecOp :=
  [.begin,.set ([1],some [7]),.list,.get [1],.rollback,.begin,.set ([2],some [8]),.commit,.get [1]]

theorem localDB_hides_undone_sent : ∃ l w, (LocalDB.new .empty false).run .empty sentThenUndone = some (l,w) ∧
      (LocalDB.new .empty false).AllMeet sentThenUndone ∧ w.all = [([2],some [8])] ∧
      ∀ kv ∈ l.kvs, kv ∈ [(([2] : Bytes),some ([8] : Bytes))] := by
  have hm : (LocalDB.new .empty false).AllMeet sentThenUndone := by decide +kernel
  exact ⟨_,_,rfl,hm,rfl,(localDB_hides_undone .empty false sentThenUndone _ _ rfl hm).2.1⟩

/-- The write that was rolled back is still to be sent, and a list shows it. -/
theorem localDB_sends_undone :
    ∃ l w, (LocalDB.new .empty false).run .empty [.begin,.set ([1],some [7]),.rollback] = some (l,w) ∧ w.all = [] ∧
      l.kvs = [([1],some [7])] ∧ ∃ l', l.list Prod.fst [1] [] 0 DB.listASC = some (.ok [[7]],l') := by
  refine ⟨_,_,rfl,rfl,rfl,_,rfl⟩

end Dpos.Executor
