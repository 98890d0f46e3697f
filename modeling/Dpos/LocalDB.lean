import Dpos.ListHelper

/-! The local database of `common/db/localdb.go`: a main database under a cache, with the
writes of a transaction above it. It refines one map that an empty value erases from. -/
namespace Dpos.DB

open HeadMerge List Option SortedStore

structure LocalDB where
  txcache : Option Store
  cache : Option Store
  maindb : Store
  intx : Bool
  readOnly : Bool

namespace LocalDB
variable (l : LocalDB)

def new (maindb : Store) (readOnly : Bool) : LocalDB :=
  if readOnly then ⟨none,none,maindb,false,true⟩ else ⟨some .empty,some .empty,maindb,false,false⟩

def getCached (key : Bytes) : Option Bytes × LocalDB :=
  match (if l.intx then l.txcache else none).bind (·.get key) with
  | some value => (some value,l)
  | none => match l.cache.bind (·.get key) with
    | some value => (some value,l)
    | none => match l.maindb.get key with
      | none => (none,l)
      | some value => (some value,{l with cache := l.cache.map (·.set key value)})

/-- `Get`, where an empty value is not found. -/
def get (key : Bytes) : Option Bytes × LocalDB :=
  ((l.getCached key).1.filter fun value => !isDeleted value,(l.getCached key).2)

/-- `Set`, `none` where it panics. -/
def set (key value : Bytes) : Option LocalDB :=
  if l.readOnly then none
  else if l.intx then some {l with txcache := some ((l.txcache.getD .empty).set key value)}
  else some {l with cache := l.cache.map (·.set key value)}

def «begin» : LocalDB := {l with intx := true, txcache := none}

def resetTx : LocalDB := {l with intx := false, txcache := none}

def rollback : LocalDB := l.resetTx

def commitLoop : ℕ → DBIt → Store → Store
  | 0,_,cache => cache
  | fuel+1,it,cache =>
    if it.next.1 then commitLoop fuel it.next.2 (cache.set (it.next.2.key.getD []) it.next.2.value) else cache

def commit : LocalDB :=
  match l.txcache with
  | none => l.resetTx
  | some tx =>
    let it := iterator tx [] none false
    {l with cache := l.cache.map (commitLoop (tx.entries.length+1) it)}.resetTx

/-- The databases of a merged list, the upper ones first. -/
def dblist : List Store := l.txcache.toList ++ l.cache.toList ++ [l.maindb]

def mergedIterator (pre : Bytes) (reverse : Bool) : MergedIterator :=
  .new (l.dblist.map fun db => iterator db pre none reverse)

def list (encode : Bytes × Bytes → Bytes) (pre key : Bytes) (count direction : BitVec 32) : List Bytes :=
  DB.list encode l.mergedIterator pre key count direction

def prefixCount (pre : Bytes) : ℕ := DB.prefixCount l.mergedIterator pre

end LocalDB

inductive LocalOp
  | set (key value : Bytes)
  | get (key : Bytes)
  | begin
  | commit
  | rollback

def LocalDB.step (l : LocalDB) : LocalOp → Option LocalDB
  | .set key value => l.set key value
  | .get key => some (l.get key).2
  | .begin => some l.begin
  | .commit => some l.commit
  | .rollback => some l.rollback

def LocalDB.run (l : LocalDB) (ops : List LocalOp) : Option LocalDB := ops.foldlM LocalDB.step l

/-- A map with at most one open transaction: `base` is the map outside of it and `own` the
one inside. -/
structure TxMap where
  base : Store
  own : Option Store

namespace TxMap
variable (m : TxMap)

def new (maindb : Store) : TxMap := ⟨⟨live maindb.entries,maindb.sorted.filter _⟩,none⟩

def view : Store := m.own.getD m.base

def write (s : Store) (key value : Bytes) : Store := if isDeleted value then s.erase key else s.set key value

def step : LocalOp → TxMap
  | .set key value => match m.own with
    | some own => ⟨m.base,some (write own key value)⟩
    | none => ⟨write m.base key value,none⟩
  | .get _ => m
  | .begin => ⟨m.base,some m.base⟩
  | .commit => ⟨m.view,none⟩
  | .rollback => ⟨m.base,none⟩

def run (ops : List LocalOp) : TxMap := ops.foldl step m

def under (pre : Bytes) (direction : BitVec 32) : List (Bytes × Bytes) :=
  let es := m.view.entries.filter fun e => pre.isPrefixOf e.1
  if isASC direction then es else es.reverse

def list (encode : Bytes × Bytes → Bytes) (pre : Bytes) (count direction : BitVec 32) : List Bytes :=
  ((m.under pre direction).take (listLimit count)).map (collect encode direction)

def prefixCount (pre : Bytes) : ℕ := (m.view.entries.filter fun e => pre.isPrefixOf e.1).length

end TxMap

def found (value : Option Bytes) : Option Bytes := value.filter fun value => !isDeleted value

lemma TxMap.get_new (ma : Store) (key : Bytes) : (TxMap.new ma).base.get key = found (ma.get key) := by
  apply Option.ext
  intro v
  simp [TxMap.new,live,found]

lemma TxMap.get_write (s : Store) (key v k : Bytes) :
    (TxMap.write s key v).get k = if k = key then found (some v) else s.get k := by
  unfold TxMap.write found
  rw [filter_some]
  cases hdel : isDeleted v with
  | true => simp [get_erase]
  | false => simp [get_set]

namespace LocalDB
variable {l : LocalDB} {m : TxMap}

/-- What the layers below the transaction hold. -/
def below (l : LocalDB) (key : Bytes) : Option Bytes := (l.cache.bind (·.get key)).or (l.maindb.get key)

def lookup (l : LocalDB) (key : Bytes) : Option Bytes := (l.txcache.bind (·.get key)).or (l.below key)

lemma findSome?_dblist (l : LocalDB) (key : Bytes) : l.dblist.findSome? (·.get key) = l.lookup key := by
  have ht : ∀ o : Option Store, o.toList.findSome? (·.get key) = o.bind (·.get key) := by
    intro o
    cases o <;> simp
  rw [dblist,findSome?_append,findSome?_append,ht,ht,Option.or_assoc]
  simp [lookup,below]

structure Refines (l : LocalDB) (m : TxMap) : Prop where
  view : ∀ key, m.view.get key = found (l.lookup key)
  base : ∀ key, m.base.get key = found (l.below key)
  intx : l.intx = m.own.isSome
  /-- outside of a transaction the upper layer is empty -/
  outside : l.intx = false → ∀ key, l.txcache.bind (·.get key) = none
  cache : l.cache.isSome = !l.readOnly
  readOnly : l.readOnly = true → l.txcache = none

lemma Refines.new (ma : Store) (ro : Bool) : Refines (.new ma ro) (.new ma) := by
  cases ro <;>
    exact ⟨fun key => TxMap.get_new ma key,fun key => TxMap.get_new ma key,rfl,fun _ _ => rfl,rfl,by simp [LocalDB.new]⟩

lemma Refines.getCached (h : Refines l m) (key : Bytes) : (l.getCached key).1 = l.lookup key := by
  have ht : (if l.intx then l.txcache else none).bind (·.get key) = l.txcache.bind (·.get key) := by
    cases hi : l.intx with
    | true => rfl
    | false => exact (h.outside hi key).symm
  unfold LocalDB.getCached lookup below
  rw [ht]
  cases l.txcache.bind (·.get key) with
  | some v => rfl
  | none =>
    cases l.cache.bind (·.get key) with
    | some v => rfl
    | none => cases l.maindb.get key <;> rfl

/-- A read leaves the layers as they are, or brings a value from the main database up. -/
theorem getCached_cases (l : LocalDB) (key : Bytes) :
    (l.getCached key).2 = l ∨ ∃ v, l.cache.bind (·.get key) = none ∧ l.maindb.get key = some v ∧
      (l.getCached key).2 = {l with cache := l.cache.map (·.set key v)} := by
  unfold LocalDB.getCached
  cases (if l.intx then l.txcache else none).bind (·.get key) with
  | some v => exact .inl rfl
  | none =>
    cases hc : l.cache.bind (·.get key) with
    | some v => exact .inl rfl
    | none =>
      cases hm : l.maindb.get key with
      | none => exact .inl rfl
      | some v => exact .inr ⟨v,rfl,rfl,rfl⟩

lemma below_getCached (l : LocalDB) (key k : Bytes) : (l.getCached key).2.below k = l.below k := by
  obtain he | ⟨v,hca,hm,he⟩ := l.getCached_cases key
  · rw [he]
  · rw [he]
    unfold below
    cases hc : l.cache with
    | none => rfl
    | some c =>
      rw [hc] at hca
      by_cases hk : k = key
      · subst hk
        simp only [map_some,bind_some,get_set,if_true,hca,hm,some_or,none_or]
      · simp [get_set,hk]

lemma Refines.get (h : Refines l m) (key : Bytes) : Refines (l.get key).2 m := by
  have hb := l.below_getCached key
  have hk : (l.getCached key).2.txcache = l.txcache ∧ (l.getCached key).2.intx = l.intx ∧
      (l.getCached key).2.readOnly = l.readOnly ∧ (l.getCached key).2.cache.isSome = l.cache.isSome := by
    obtain he | ⟨v,_,_,he⟩ := l.getCached_cases key <;> simp [he]
  obtain ⟨ht,hi,hr,hc⟩ := hk
  constructor
  · intro k
    rw [h.view k,lookup,lookup]
    show _ = found (((l.getCached key).2.txcache.bind _).or ((l.getCached key).2.below k))
    rw [ht,hb]
  · intro k
    exact (h.base k).trans (congrArg found (hb k).symm)
  · exact hi.trans h.intx
  · intro ho
    exact ht ▸ h.outside (hi.symm.trans ho)
  · exact hc.trans (h.cache.trans (congrArg not hr.symm))
  · intro hro
    exact ht.trans (h.readOnly (hr.symm.trans hro))

variable {l' : LocalDB}

lemma Refines.set (h : Refines l m) {key v : Bytes} (hs : l.set key v = some l') :
    Refines l' (m.step (.set key v)) := by
  unfold LocalDB.set at hs
  have ho := h.intx
  split_ifs at hs with hr hi
  · cases hs
    rw [hi] at ho
    obtain ⟨own,ho⟩ := isSome_iff_exists.mp ho.symm
    have hv := h.view
    simp only [TxMap.view,ho,getD_some] at hv
    simp only [TxMap.step,ho]
    refine ⟨fun k => ?_,h.base,hi,fun hou => absurd hi (by simp [show l.intx = false from hou]),h.cache,
      fun hre => absurd hre hr⟩
    rw [TxMap.view,getD_some,TxMap.get_write,hv]
    simp only [lookup,below,bind_some,get_set]
    split_ifs with hk
    · rfl
    · cases l.txcache <;> simp
  · cases hs
    have hou : l.intx = false := by simpa using hi
    rw [hou] at ho
    have ho : m.own = none := by simpa using ho.symm
    obtain ⟨cache,hc⟩ := isSome_iff_exists.mp (h.cache.trans (by simpa using hr))
    have hb : ∀ k, (TxMap.write m.base key v).get k =
        found (({l with cache := l.cache.map (·.set key v)} : LocalDB).below k) := by
      intro k
      rw [TxMap.get_write,h.base]
      simp only [below,hc,map_some,bind_some,get_set]
      split_ifs with hk <;> rfl
    simp only [TxMap.step,ho]
    refine ⟨fun k => ?_,hb,by simpa using hou,fun _ => h.outside hou,by simpa using h.cache,h.readOnly⟩
    rw [TxMap.view,getD_none,hb,lookup,h.outside hou k,none_or]

lemma Refines.begin (h : Refines l m) : Refines l.begin (m.step .begin) :=
  ⟨h.base,h.base,rfl,fun _ _ => rfl,h.cache,fun _ => rfl⟩

lemma Refines.of_below (h : Refines l m) {cache : Option Store} {base : Store}
    (hc : cache.isSome = l.cache.isSome)
    (hb : ∀ key, base.get key = found ((cache.bind (·.get key)).or (l.maindb.get key))) :
    Refines {l with cache := cache}.resetTx ⟨base,none⟩ :=
  ⟨hb,hb,rfl,fun _ _ => rfl,hc.trans h.cache,fun _ => rfl⟩

lemma Refines.rollback (h : Refines l m) : Refines l.rollback (m.step .rollback) := h.of_below rfl h.base

variable {es : List (Bytes × Bytes)}

lemma commitLoop_get {it : DBIt} {f : ℕ} (hm : it.Moves es it.next)
    (hor : Ordered false es) (hfu : es.length < f) (c : Store) (k : Bytes) :
    (commitLoop f it c).get k = (valueAt es k).or (c.get k) := by
  induction es generalizing it f c with
  | nil =>
    obtain ⟨f,rfl⟩ := Nat.exists_eq_add_one.mpr hfu
    have ho : it.next.1 = false := hm.ok
    simp [commitLoop,ho]
  | cons e es ih =>
    obtain ⟨f,rfl⟩ := Nat.exists_eq_add_one.mpr (Nat.zero_lt_of_lt hfu)
    have ho : it.next.1 = true := hm.ok
    have hky : it.next.2.key = some e.1 := by rw [DBIt.key_eq,hm.ahead]; rfl
    have hv : it.next.2.value = e.2 := by rw [DBIt.value_eq,hm.ahead]; rfl
    have hnext := it.next.2.next_moves (by simp [hm.ahead])
    rw [hm.ahead] at hnext
    obtain ⟨hf1,hr⟩ := pairwise_cons.mp hor
    rw [commitLoop,if_pos ho,ih hnext hr (Nat.lt_of_succ_lt_succ hfu),valueAt_cons,hky,hv,
      getD_some,get_set]
    by_cases hk : k = e.1
    · have hn : valueAt es k = none := valueAt_eq_none.mpr fun e' he' => hk ▸ (hf1 e' he').ne.symm
      simp [hk ▸ hn,hk]
    · simp [hk,Ne.symm hk]

lemma commitLoop_iterator (tx c : Store) (k : Bytes) :
    (commitLoop (tx.entries.length+1) (iterator tx [] none false) c).get k = (tx.get k).or (c.get k) := by
  have hr := (iterator tx [] none false).rewind_moves
  have hg : valueAt (iterator tx [] none false).walk k = tx.get k := by
    rw [DBIt.valueAt_walk]
    simp [iterator,bytesPrefix,get_restrict,inRange,nil_le]
  rw [← hg]
  refine commitLoop_get hr (iterator tx [] none false).ordered_walk ?_ c k
  exact Nat.lt_succ_of_le (length_filter_le _ _)

lemma Refines.commit (h : Refines l m) : Refines l.commit (m.step .commit) := by
  unfold LocalDB.commit
  cases ht : l.txcache with
  | none =>
    refine h.of_below rfl fun key => ?_
    rw [h.view,lookup,ht]
    rfl
  | some tx =>
    refine h.of_below (by simp) fun key => ?_
    have hr : l.readOnly = false := by
      by_contra hre
      simp [h.readOnly (by simpa using hre)] at ht
    obtain ⟨c,hc⟩ := isSome_iff_exists.mp (h.cache.trans (by simp [hr]))
    rw [h.view,lookup,below,ht,hc]
    simp only [Option.map_some,Option.bind_some,commitLoop_iterator,Option.or_assoc]

lemma Refines.step (h : Refines l m) {op : LocalOp} (hs : l.step op = some l') : Refines l' (m.step op) := by
  cases op with
  | set key v => exact h.set hs
  | get key => exact Option.some.inj hs ▸ h.get key
  | begin => exact Option.some.inj hs ▸ h.begin
  | commit => exact Option.some.inj hs ▸ h.commit
  | rollback => exact Option.some.inj hs ▸ h.rollback

lemma Refines.run (h : Refines l m) {ops : List LocalOp} (hrun : l.run ops = some l') :
    Refines l' (m.run ops) := by
  induction ops generalizing l m with
  | nil => exact Option.some.inj hrun ▸ h
  | cons op ops ih =>
    obtain ⟨l1,hs,hrun⟩ := bind_eq_some_iff.mp hrun
    exact ih (h.step hs) hrun

def scanned (pre key : Bytes) : Bool :=
  inRange pre (if bytesPrefix pre = some emptyValue then none else bytesPrefix pre) key

section
variable (l : LocalDB) (pre : Bytes) (reverse : Bool)

lemma reverse_dblist : ∀ it ∈ l.dblist.map fun db => iterator db pre none reverse, it.reverse = reverse := by
  simp [iterator]

lemma findSome?_iterator (key : Bytes) :
    (l.dblist.map fun db => iterator db pre none reverse).findSome? (fun it => it.raw.store.get key) =
      if scanned pre key then l.lookup key else none := by
  have hg : ∀ db : Store, (iterator db pre none reverse).raw.store.get key =
      if scanned pre key then db.get key else none := fun db => get_restrict ..
  rw [findSome?_map]
  simp only [Function.comp_def,hg]
  split_ifs with hs
  · exact l.findSome?_dblist key
  · simp

end

lemma Refines.drain (h : Refines l m) (pre : Bytes) (reverse : Bool) :
    live (drain ((l.mergedIterator pre reverse).size+1) (l.mergedIterator pre reverse).rewind.2) =
      if reverse then (m.view.entries.filter fun e => scanned pre e.1).reverse
      else m.view.entries.filter fun e => scanned pre e.1 := by
  obtain ⟨out,hd,ho,hm⟩ := MergedIterator.drain_new (l.reverse_dblist pre reverse)
  rw [mergedIterator,hd _ (Nat.lt_succ_self _)]
  have hs := m.view.sorted.filter fun e => scanned pre e.1
  have hv : ∀ e, e ∈ live out ↔ e ∈ m.view.entries.filter fun e => scanned pre e.1 := by
    intro e
    rw [live,mem_filter,mem_filter,← m.view.get_eq_some,h.view,hm e.1 e.2,l.findSome?_iterator]
    cases scanned pre e.1 with
    | false => simp
    | true => simp [found,filter_eq_some_iff]
  refine Ordered.eq_of_mem (ho.filter _) (?_ : Ordered reverse _) fun e => ?_
  · cases reverse with
    | false => exact hs
    | true => exact pairwise_reverse.mpr hs
  · cases reverse with
    | false => exact hv e
    | true => exact (hv e).trans mem_reverse.symm

def scanOf (encode : Bytes × Bytes → Bytes) (db : Store) (pre : Bytes) (count dir : BitVec 32) : List Bytes :=
  let es := db.entries.filter fun e => scanned pre e.1
  ((if isASC dir then es else es.reverse).take (listLimit count)).map (collect encode dir)

lemma Refines.list (h : Refines l m) (e : Bytes × Bytes → Bytes) (pre : Bytes) (c dir : BitVec 32) :
    l.list e pre [] c dir = scanOf e m.view pre c dir := by
  have hd := h.drain pre
  rw [LocalDB.list,DB.list,if_neg (by simp),if_pos rfl,scanOf]
  cases isASC dir with
  | true =>
    rw [if_pos rfl,if_pos rfl,iteratorScan_eq]
    exact congrArg (fun es => (es.take (listLimit c)).map (collect e dir)) (hd false)
  | false =>
    rw [if_neg (by simp),if_neg (by simp),iteratorScan_eq]
    exact congrArg (fun es => (es.take (listLimit c)).map (collect e dir)) (hd true)

lemma Refines.prefixCount (h : Refines l m) (pre : Bytes) :
    l.prefixCount pre = (m.view.entries.filter fun e => scanned pre e.1).length := by
  rw [LocalDB.prefixCount,prefixCount_eq]
  exact (congrArg length (h.drain pre true)).trans length_reverse

variable {pre key : Bytes}

lemma scanned_of_isPrefixOf (h : pre.isPrefixOf key = true) : scanned pre key = true := by
  have hran := (inRange_bytesPrefix pre key).mpr (List.isPrefixOf_iff_prefix.mp h)
  unfold scanned
  split_ifs with he
  · simpa [inRange] using (Bool.and_eq_true_iff.mp hran).1
  · exact hran

/-- The keys of the walk begin with the prefix, unless its limit reads as no end. -/
theorem scanned_eq_iff : (∀ e ∈ es, scanned pre e.1 = pre.isPrefixOf e.1) ↔
      (bytesPrefix pre = some emptyValue → ∀ e ∈ es, pre ≤ e.1 → pre <+: e.1) := by
  by_cases hen : bytesPrefix pre = some emptyValue
  · refine ⟨fun h _ e he hl => ?_,fun h e he => ?_⟩
    · rw [← isPrefixOf_iff_prefix,← h e he]
      simpa [scanned,hen,inRange] using hl
    · refine Bool.eq_iff_iff.mpr ⟨fun hs => ?_,scanned_of_isPrefixOf⟩
      rw [List.isPrefixOf_iff_prefix]
      exact h hen e he (by simpa [scanned,hen,inRange] using hs)
  · refine ⟨fun _ heq => absurd heq hen,fun _ e _ => Bool.eq_iff_iff.mpr ?_⟩
    rw [scanned,if_neg hen,inRange_bytesPrefix,List.isPrefixOf_iff_prefix]

lemma scanned_eq_of_length
    (h : (es.filter fun e => scanned pre e.1).length = (es.filter fun e => pre.isPrefixOf e.1).length) :
    ∀ e ∈ es, scanned pre e.1 = pre.isPrefixOf e.1 := by
  have hs : List.Sublist (es.filter fun e => pre.isPrefixOf e.1) (es.filter fun e => scanned pre e.1) :=
    monotone_filter_right es fun e he => scanned_of_isPrefixOf he
  have heq := hs.eq_of_length h.symm
  intro e he
  refine Bool.eq_iff_iff.mpr ⟨fun hsc => ?_,scanned_of_isPrefixOf⟩
  have hm : e ∈ es.filter fun e => pre.isPrefixOf e.1 := heq ▸ mem_filter.mpr ⟨he,hsc⟩
  exact (mem_filter.mp hm).2

/-- Also with a start key, what a list gives is taken from entries of the databases. -/
theorem mem_list {P : Bytes × Bytes → Prop} (h : ∀ db ∈ l.dblist, ∀ e ∈ db.entries, P e)
    {en : Bytes × Bytes → Bytes} {c d : BitVec 32} {b : Bytes} (hb : b ∈ l.list en pre key c d) :
    ∃ e, P e ∧ isDeleted e.2 = false ∧ (b = e.1 ∨ b = e.2 ∨ b = en e) := by
  refine (MergedIterator.stays P).list (fun pre reverse => ?_) hb
  refine MergedIterator.Holds.new fun it hi e he => ?_
  obtain ⟨db,hdb,rfl⟩ := mem_map.mp hi
  exact h db hdb e (mem_of_mem_filter he)

end LocalDB

/-- A local database after any calls answers as the map does. Where the limit of a prefix
is the value that stands for no end, lists and counts go on to the last key. -/
theorem localDB_refines (maindb : Store) (readOnly : Bool) (ops : List LocalOp) (l : LocalDB)
    (hrun : (LocalDB.new maindb readOnly).run ops = some l) :
    (∀ key, (l.get key).1 = ((TxMap.new maindb).run ops).view.get key) ∧
      ∀ pre, ((∀ encode count dir, l.list encode pre [] count dir =
          ((TxMap.new maindb).run ops).list encode pre count dir) ∧
          l.prefixCount pre = ((TxMap.new maindb).run ops).prefixCount pre ↔
        (bytesPrefix pre = some emptyValue →
          ∀ e ∈ ((TxMap.new maindb).run ops).view.entries, pre ≤ e.1 → pre <+: e.1)) := by
  have h := (LocalDB.Refines.new maindb readOnly).run hrun
  refine ⟨fun key => ?_,fun pre => ?_⟩
  · rw [h.view,← h.getCached]
    rfl
  · rw [← LocalDB.scanned_eq_iff]
    refine ⟨fun hl => ?_,fun he => ?_⟩
    · exact LocalDB.scanned_eq_of_length ((h.prefixCount pre).symm.trans hl.2)
    · have hf := filter_congr he
      refine ⟨fun encode count dir => ?_,?_⟩
      · rw [h.list,LocalDB.scanOf,hf]
        rfl
      · rw [h.prefixCount,hf]
        rfl

/-- A transaction that writes a key and erases one of the main database. -/
def erasing : List LocalOp := [.begin,.set [1,3] [8],.set [1,2] []]

theorem localDB_refines_erasing :
    ∃ l, (LocalDB.new (empty.set [1,2] [7]) false).run erasing = some l ∧
      (l.get [1,2]).1 = none ∧ ∀ encode, l.list encode [1] [] 0 listASC = [[8]] := by
  refine ⟨_,rfl,?_⟩
  have h := localDB_refines (empty.set [1,2] [7]) false erasing _ rfl
  refine ⟨(h.1 [1,2]).trans (by decide),fun encode => ?_⟩
  exact (((h.2 [1]).mpr (by decide)).1 encode 0 listASC).trans rfl

/-- The prefix whose limit is `types.EmptyValue`. -/
def endPrefix : Bytes := Bytes.ofString "FFFFFFFFemptyBVBiCj5jvE15pEiwro8TQRGnJSNsJE"

/-- No key begins with the prefix, and the list has the last key. -/
theorem localDB_lists_beyond : ∃ l, (LocalDB.new (empty.set [255] [7]) false).run [] = some l ∧
      l.list Prod.fst endPrefix [] 0 listASC = [[7]] ∧ l.prefixCount endPrefix = 1 ∧
      ((TxMap.new (empty.set [255] [7])).run []).list Prod.fst endPrefix 0 listASC = [] ∧
      ((TxMap.new (empty.set [255] [7])).run []).prefixCount endPrefix = 0 := by
  refine ⟨_,rfl,?_⟩
  decide +kernel

lemma head?_eq_find? {α : Type} {p : α → Bool} {l : List α} : l.head? = l.find? p ↔ ∀ e ∈ l.head?, p e = true := by
  cases l with
  | nil => simp
  | cons e l =>
    cases hp : p e with
    | true => simp [hp]
    | false =>
      have hn : some e ≠ l.find? p := fun h => by simpa [hp] using find?_some h.symm
      simpa [hp] using hn

/-- When a seek over the entries `es` replies with the greatest live entry of the prefix that does not come after the
key: the first entry from the key on is not deleted, or no entry down from the key is live. There are entries without
the prefix only where its limit stands for no end, and without a key it is no seek. -/
def SeekHits (es : List (Bytes × Bytes)) (pre key : Bytes) : Prop :=
  if key = [] then live es = []
  else if (es.find? (key ≤ ·.1)).any (isDeleted ·.2) then
    ∀ e ∈ (liveDown es key).head?, pre.isPrefixOf e.1 = false ∧
      ∀ e' ∈ (liveDown es key).tail.head?, pre.isPrefixOf e'.1 = true
  else ∀ e ∈ (liveDown es key).head?, pre.isPrefixOf e.1 = true

/-- For any iterator that seeks and walks down over the entries `es`. -/
theorem list_seekHits {σ : Type} [Iter σ] (encode : Bytes × Bytes → Bytes) {iterator : Bytes → Bool → σ} {pre key : Bytes}
    {es : List (Bytes × Bytes)} (hs : es.Pairwise fun a b => a.1 < b.1)
    (hd : drain (Iter.size (iterator pre true)+1) (Iter.rewind (iterator pre true)).2 = es.reverse)
    (h : SeeksDown es key (Iter.seek (iterator pre true) key)) :
    list encode iterator pre key 1 listSeek = entryReply ((liveDown es key).find? fun e => pre.isPrefixOf e.1) ↔
      SeekHits es pre key := by
  rw [list,SeekHits]
  by_cases hk : key = []
  · rw [if_neg fun h => h.1 hk,if_pos hk,if_neg (by decide),if_pos hk,iteratorScan_eq,hd]
    have hr : live es.reverse = (live es).reverse := filter_reverse ..
    have hl : liveDown es key <+ live es.reverse := filter_sublist.reverse.filter _
    rw [← reverse_eq_nil_iff,← hr]
    cases h : live es.reverse with
    | nil => simp [sublist_nil.mp (h ▸ hl),entryReply]
    | cons e l => cases (liveDown es key).find? fun e => pre.isPrefixOf e.1 <;> simp [entryReply,listLimit]
  · have hn : es.Nodup := hs.imp fun h => ne_of_apply_ne Prod.fst h.ne
    have hn : (liveDown es key).Nodup := (nodup_reverse.mpr (hn.filter _)).filter _
    have hi : ∀ {a b}, entryReply a = entryReply b ↔ a = b := fun {a b} => by
      cases a <;> cases b <;> simp [entryReply,Prod.ext_iff]
    rw [if_pos ⟨hk,rfl,rfl⟩,if_neg hk,h.nextKeyValue_eq hs,hi]
    generalize liveDown es key = l at hn
    split_ifs
    · cases l with
      | nil => simp
      | cons e l =>
        cases hp : pre.isPrefixOf e.1 with
        | true => simpa [hp] using fun h => (nodup_cons.mp hn).1 (mem_of_head? h)
        | false =>
          rw [find?_cons_of_neg (by simp [hp])]
          refine head?_eq_find?.trans ⟨?_,fun h => (h e rfl).2⟩
          rintro h _ ⟨rfl⟩
          exact ⟨hp,h⟩
    · exact head?_eq_find?

/-- **A seek**, over one database or over the merged databases of a `LocalDB` with the same content. -/
theorem list_seek_iff (encode : Bytes × Bytes → Bytes) (db : Store) (l : LocalDB) (hdb : ∀ k, db.get k = l.lookup k)
    (pre key : Bytes) :
    let es := db.entries.filter fun e => LocalDB.scanned pre e.1
    let reply := entryReply ((liveDown db.entries key).find? fun e => pre.isPrefixOf e.1)
    (list encode (dbIterator db) pre key 1 listSeek = reply ↔ SeekHits es pre key) ∧
      (l.list encode pre key 1 listSeek = reply ↔ SeekHits es pre key) := by
  have hd : (liveDown (db.entries.filter fun e => LocalDB.scanned pre e.1) key).find? (fun e => pre.isPrefixOf e.1) =
      (liveDown db.entries key).find? fun e => pre.isPrefixOf e.1 := by
    have hc : liveDown (db.entries.filter fun e => LocalDB.scanned pre e.1) key =
        (liveDown db.entries key).filter fun e => LocalDB.scanned pre e.1 := by
      simp [liveDown,live,List.filter_filter,Bool.and_assoc,Bool.and_comm,Bool.and_left_comm]
    rw [hc,find?_filter]
    congr 1
    funext e
    cases hp : pre.isPrefixOf e.1 <;> simp [LocalDB.scanned_of_isPrefixOf,hp]
  have hs := (dbIterator db pre true).raw.store.sorted
  have hold : MergedIterator.Holding (l.dblist.map fun db => iterator db pre none true)
      (db.entries.filter fun e => LocalDB.scanned pre e.1) := by
    refine ⟨hs,fun k v => ?_⟩
    rw [l.findSome?_iterator,mem_filter,← get_eq_some,hdb]
    cases LocalDB.scanned pre k <;> simp
  dsimp only
  rw [← hd]
  constructor
  · exact list_seekHits encode hs (dbIterator db pre true).drain_rewind ((dbIterator db pre true).seek_reverse rfl key)
  · have hsa := l.reverse_dblist pre true
    obtain ⟨out,hdr,ho,hm⟩ := MergedIterator.drain_new hsa
    refine list_seekHits encode hs ((hdr _ (Nat.lt_succ_self _)).trans ?_) (hold.seek_reverse hsa key)
    exact ho.eq_of_mem (pairwise_reverse.mpr hs) fun e =>
      (hm e.1 e.2).trans ((hold.mem e.1 e.2).symm.trans mem_reverse.symm)

/-- The second key is deleted in the database on top, which the first one has no entry in. -/
def seekDB : LocalDB :=
  ⟨some ⟨[([98],[])],by decide⟩,some ⟨[([97],[1]),([98],[2])],by decide⟩,⟨[([97],[9])],by decide⟩,true,false⟩

def seekContent : Store := ⟨[([97],[1]),([98],[])],by decide⟩

lemma get_seekContent (k : Bytes) : seekContent.get k = seekDB.lookup k := by
  by_cases ha : [97] = k <;> by_cases hb : [98] = k <;>
    simp [seekContent,seekDB,LocalDB.lookup,LocalDB.below,SortedStore.get,valueAt,ha,hb]
  simp [← ha] at hb

/-- From a key behind all entries. -/
theorem list_seek_iff_merged : list Prod.snd (dbIterator seekContent) [] [99] 1 listSeek = [[97],[1]] ∧
    seekDB.list Prod.snd [] [99] 1 listSeek = [[97],[1]] := by
  have h := list_seek_iff Prod.snd seekContent seekDB get_seekContent [] [99]
  have hh : SeekHits (seekContent.entries.filter fun e => LocalDB.scanned [] e.1) [] [99] := by
    rw [SeekHits,if_neg (by decide),if_neg (by decide +kernel)]
    decide +kernel
  exact ⟨(h.1.mpr hh).trans (by decide +kernel),(h.2.mpr hh).trans (by decide +kernel)⟩

/-- The key itself is deleted, and the entry before it is passed over. -/
theorem list_seek_passes : (∀ k, seekContent.get k = seekDB.lookup k) ∧
    list Prod.snd (dbIterator seekContent) [] [98] 1 listSeek = [] ∧ seekDB.list Prod.snd [] [98] 1 listSeek = [] ∧
    (liveDown seekContent.entries [98]).head? = some ([97],[1]) :=
  ⟨get_seekContent,by decide +kernel⟩

end Dpos.DB
