import Dpos.Bytes
import Dpos.HeadMerge
import Dpos.KeyIndex

/-! The iterators of `common/db` over one database. -/
namespace Dpos.DB

open HeadMerge List

abbrev Store := SortedStore Bytes Bytes

abbrev KeyValue := Bytes × Option Bytes

/-- The pairs written to the database; a nil value deletes. -/
def applyKVs (db : Store) (kvs : List KeyValue) : Store :=
  kvs.foldl (fun db kv => match kv.2 with
    | none => db.erase kv.1
    | some value => db.set kv.1 value) db

lemma get_applyKVs (db : Store) (kvs : List KeyValue) : (applyKVs db kvs).get = KeyIndex.writeAll db.get kvs := by
  induction kvs generalizing db with
  | nil => rfl
  | cons kv kvs ih =>
    obtain ⟨k,v⟩ := kv
    refine (ih _).trans (congrArg (KeyIndex.writeAll · kvs) (funext fun k' => ?_))
    cases v with
    | none => simp [KeyIndex.write,SortedStore.get_erase,Function.update_apply]
    | some v => simp [KeyIndex.write,SortedStore.get_set,Function.update_apply]

/-- `types.EmptyValue`, which as the end of a range stands for no end. -/
def emptyValue : Bytes := Bytes.ofString "FFFFFFFFemptyBVBiCj5jvE15pEiwro8TQRGnJSNsJF"

/-- `bytesPrefix`: the first key behind all keys with the given beginning. -/
def bytesPrefix (pre : Bytes) : Option Bytes :=
  match pre.reverse.dropWhile (· = 255) with
  | [] => none
  | c :: rest => some ((c+1) :: rest).reverse

/-- The `util.Range` of goleveldb, without its limit. -/
def inRange (start : Bytes) (limit : Option Bytes) (key : Bytes) : Bool := start ≤ key && limit.all (key < ·)

def checkKey (start : Bytes) (limit : Option Bytes) (key : Bytes) : Bool := start ≤ key && limit.all (key ≤ ·)

lemma checkKey_of_inRange {s key : Bytes} {li : Option Bytes} (h : inRange s li key = true) :
    checkKey s li key = true := by
  obtain ⟨hs,hl⟩ := Bool.and_eq_true_iff.mp h
  refine Bool.and_eq_true_iff.mpr ⟨hs,?_⟩
  cases li with
  | none => rfl
  | some l => exact decide_eq_true (of_decide_eq_true hl).le

lemma nil_le (key : Bytes) : [] ≤ key := not_lt.mp (not_lt_nil key)

lemma cons_le_cons {a b : UInt8} {l m : Bytes} : a :: l ≤ b :: m ↔ a < b ∨ (a = b ∧ l ≤ m) := by
  rw [← not_lt,cons_lt_cons_iff,← not_lt]
  rcases lt_trichotomy a b with h | rfl | h
  · simp [h,h.ne',h.not_gt]
  · simp
  · simp [h,h.ne',h.not_gt]

lemma bytesPrefix_cons (a : UInt8) (pre : Bytes) : bytesPrefix (a :: pre) = match bytesPrefix pre with
      | some l => some (a :: l)
      | none => if a = 255 then none else some [a+1] := by
  unfold bytesPrefix
  rw [reverse_cons,dropWhile_append]
  cases h : pre.reverse.dropWhile (· = 255) with
  | nil => by_cases ha : a = 255 <;> simp [ha]
  | cons c rest => simp

lemma lt_add_one_iff {a b : UInt8} (ha : a ≠ 255) : b < a+1 ↔ b ≤ a := by
  have hlt : a.toNat < 255 := lt_of_le_of_ne (by have := a.toNat_lt; omega) fun h => ha (UInt8.toNat_inj.mp h)
  rw [UInt8.lt_iff_toNat_lt,UInt8.le_iff_toNat_le,UInt8.toNat_add]
  simp only [UInt8.toNat_one]
  omega

lemma inRange_bytesPrefix (pre key : Bytes) : inRange pre (bytesPrefix pre) key = true ↔ pre <+: key := by
  induction pre generalizing key with
  | nil => simp [inRange,bytesPrefix,nil_le]
  | cons a pre ih =>
    cases key with
    | nil => simp [inRange]
    | cons b key =>
      have ih := ih key
      simp only [inRange,Bool.and_eq_true,decide_eq_true_eq] at ih ⊢
      rw [cons_prefix_cons,← ih,bytesPrefix_cons,cons_le_cons]
      cases bytesPrefix pre with
      | some l =>
        simp only [Option.all_some,decide_eq_true_eq,cons_lt_cons_iff]
        constructor
        · rintro ⟨hab | ⟨rfl,hp⟩,hba | ⟨hba,hl⟩⟩
          · exact absurd hba hab.not_gt
          · exact absurd hba.symm hab.ne
          · exact absurd hba (lt_irrefl _)
          · exact ⟨rfl,hp,hl⟩
        · rintro ⟨rfl,hp,hl⟩
          exact ⟨.inr ⟨rfl,hp⟩,.inr ⟨rfl,hl⟩⟩
      | none =>
        simp only [Option.all_none,and_true]
        by_cases ha : a = 255
        · have hb : ¬a < b := not_lt.mpr (ha ▸ UInt8.le_iff_toNat_le.mpr (Nat.le_of_lt_succ b.toNat_lt))
          simp [ha,ha ▸ hb]
        · simp only [if_neg ha,Option.all_some,decide_eq_true_eq,cons_lt_cons_iff,not_lt_nil,
            and_false,or_false,lt_add_one_iff ha]
          constructor
          · rintro ⟨hab | ⟨rfl,hp⟩,hba⟩
            · exact absurd hab hba.not_gt
            · exact ⟨rfl,hp⟩
          · rintro ⟨rfl,hp⟩
            exact ⟨.inr ⟨rfl,hp⟩,le_rfl⟩

/-- The `Iterator` interface, with a bound for the steps of a walk. -/
class Iter (σ : Type) where
  rewind : σ → Bool × σ
  seek : σ → Bytes → Bool × σ
  next : σ → Bool × σ
  valid : σ → Bool
  /-- nil off the entries -/
  key : σ → Option Bytes
  value : σ → Bytes
  size : σ → ℕ

/-- The keys and values of `for it.Rewind(); it.Valid(); it.Next()`, from the loop test on. -/
def drain {σ : Type} [Iter σ] : ℕ → σ → List (Bytes × Bytes)
  | 0,_ => []
  | fuel+1,it =>
    if Iter.valid it then ((Iter.key it).getD [],Iter.value it) :: drain fuel (Iter.next it).2 else []

section
variable {σ : Type} [Iter σ]

/-- The iterator stands on the first of the entries and goes over the others in their order. -/
def Faces : σ → List (Bytes × Bytes) → Prop
  | it,[] => Iter.valid it = false
  | it,e :: es => Iter.valid it = true ∧ Iter.key it = some e.1 ∧ Iter.value it = e.2 ∧ es.length ≤ Iter.size it ∧
      Faces (Iter.next it).2 es

lemma Faces.drain_eq {it : σ} {es : List (Bytes × Bytes)} (h : Faces it es) {fuel : ℕ} (hf : es.length ≤ fuel) :
    drain fuel it = es := by
  induction fuel generalizing it es with
  | zero => exact (length_eq_zero_iff.mp (Nat.le_zero.mp hf)).symm
  | succ fuel ih =>
    rw [drain]
    cases es with
    | nil => rw [if_neg (by simp [show Iter.valid it = false from h])]
    | cons e es =>
      obtain ⟨hva,hk,hv,-,hnext⟩ := h
      rw [if_pos hva,hk,hv,ih hnext (by simpa using hf)]
      rfl

/-- `Seek` downwards over the entries `R` stops at the first entry from the key on, with the entries below the key
ahead of it, or else behind all entries. -/
def SeeksDown (R : List (Bytes × Bytes)) (key : Bytes) (r : Bool × σ) : Prop :=
  R.find? (key ≤ ·.1) = none ∧ r.1 = false ∧ Faces r.2 [] ∧ Faces (Iter.next r.2).2 (R.filter (·.1 < key)).reverse ∨
    ∃ e, R.find? (key ≤ ·.1) = some e ∧ r.1 = true ∧ Faces r.2 (e :: (R.filter (·.1 < key)).reverse)

end

/-! ### Cursors -/

/-- An iterator of goleveldb: the entries of its range and the one it stands on. Off the entries it
is behind them if it moved forward, and before them if not. -/
structure LevelIt where
  store : Store
  pos : Option (Fin store.entries.length)
  forward : Bool

namespace LevelIt
variable (it : LevelIt)

def current : Option (Bytes × Bytes) := it.pos.map fun i => it.store.entries.get i

def first : LevelIt where
  store := it.store
  pos := if h : 0 < it.store.entries.length then some ⟨0,h⟩ else none
  forward := true

def last : LevelIt where
  store := it.store
  pos := if h : 0 < it.store.entries.length then some ⟨it.store.entries.length-1,Nat.sub_one_lt_of_lt h⟩ else none
  forward := false

def seek (key : Bytes) : LevelIt where
  store := it.store
  pos := it.store.entries.findFinIdx? fun e => key ≤ e.1
  forward := true

def next : LevelIt :=
  match it.pos with
  | none => if it.forward then it else it.first
  | some i => ⟨it.store,if h : i.1+1 < it.store.entries.length then some ⟨i.1+1,h⟩ else none,true⟩

def prev : LevelIt :=
  match it.pos with
  | none => if it.forward then it.last else it
  | some i => ⟨it.store,if 0 < i.1 then some ⟨i.1-1,(Nat.sub_le _ _).trans_lt i.2⟩ else none,false⟩

@[simp] lemma store_next : it.next.store = it.store := by
  unfold next
  split
  · split_ifs <;> rfl
  · rfl

@[simp] lemma store_prev : it.prev.store = it.store := by
  unfold prev
  split
  · split_ifs <;> rfl
  · rfl

/-- What a walk has ahead of it, beginning with the entry it stands on. -/
def ahead (reverse : Bool) : List (Bytes × Bytes) :=
  match it.pos with
  | none => []
  | some i => if reverse then (it.store.entries.take (i.1+1)).reverse else it.store.entries.drop i.1

lemma head?_ahead (r : Bool) : (it.ahead r).head? = it.current := by
  unfold ahead current
  cases it.pos with
  | none => rfl
  | some i => cases r <;> simp [List.head?_drop,List.getLast?_take]

lemma ahead_first : it.first.ahead false = it.store.entries := by
  unfold ahead first
  dsimp only
  split_ifs with h
  · rfl
  · exact (length_eq_zero_iff.mp (Nat.eq_zero_of_not_pos h)).symm

lemma ahead_last : it.last.ahead true = it.store.entries.reverse := by
  unfold ahead last
  dsimp only
  split_ifs with h
  · simp [Nat.sub_add_cancel h]
  · simp [length_eq_zero_iff.mp (Nat.eq_zero_of_not_pos h)]

lemma ahead_next (h : it.pos.isSome) : it.next.ahead false = (it.ahead false).tail := by
  obtain ⟨s,_ | i,f⟩ := it
  · simp at h
  · simp only [ahead,next,Bool.false_eq_true,if_false,tail_drop]
    split_ifs with hlt
    · rfl
    · exact (drop_eq_nil_of_le (not_lt.mp hlt)).symm

lemma ahead_prev (h : it.pos.isSome) : it.prev.ahead true = (it.ahead true).tail := by
  obtain ⟨s,_ | i,f⟩ := it
  · simp at h
  · have hi : (s.entries.take (i.1+1)).dropLast = s.entries.take i.1 := by
      have := i.2
      rw [dropLast_eq_take,length_take,take_take]
      congr 1
      omega
    simp only [ahead,prev,if_true,tail_reverse,hi]
    split_ifs with hp
    · simp [Nat.sub_add_cancel hp]
    · simp [Nat.eq_zero_of_not_pos hp]

end LevelIt

/-- `goLevelDBIt`, whose cursor was made for its range. -/
structure DBIt where
  raw : LevelIt
  start : Bytes
  limit : Option Bytes
  reverse : Bool
  inRange : ∀ e ∈ raw.store.entries, checkKey start limit e.1 = true

def iterator (db : Store) (start : Bytes) (end_ : Option Bytes) (reverse : Bool) : DBIt :=
  let limit := end_.or (bytesPrefix start)
  let limit := if limit = some emptyValue then none else limit
  ⟨⟨db.restrict (DB.inRange start limit),none,false⟩,start,limit,reverse,fun e he =>
    checkKey_of_inRange (by simpa using of_mem_filter he)⟩

namespace DBIt
variable (it : DBIt)

def valid : Bool := it.raw.current.any fun e => checkKey it.start it.limit e.1

def key : Option Bytes := it.raw.current.map Prod.fst

def value : Bytes := (it.raw.current.map Prod.snd).getD []

def moved (raw : LevelIt) (h : raw.store = it.raw.store) : Bool × DBIt :=
  let it' : DBIt := ⟨raw,it.start,it.limit,it.reverse,h ▸ it.inRange⟩
  (raw.current.isSome && it'.valid,it')

def rewind : Bool × DBIt := if it.reverse then it.moved it.raw.last rfl else it.moved it.raw.first rfl

def next : Bool × DBIt :=
  if it.reverse then it.moved it.raw.prev it.raw.store_prev else it.moved it.raw.next it.raw.store_next

def seek (key : Bytes) : Bool × DBIt := ((it.raw.seek key).current.isSome,(it.moved (it.raw.seek key) rfl).2)

instance : Iter DBIt := ⟨rewind,seek,next,valid,key,value,fun it => it.raw.store.entries.length⟩

@[simp] lemma store_rewind : it.rewind.2.raw.store = it.raw.store := by
  unfold rewind
  split_ifs <;> rfl

@[simp] lemma store_next : it.next.2.raw.store = it.raw.store := by
  unfold next
  split_ifs
  · exact it.raw.store_prev
  · exact it.raw.store_next

@[simp] lemma store_seek (key : Bytes) : (it.seek key).2.raw.store = it.raw.store := rfl

def ahead : List (Bytes × Bytes) := it.raw.ahead it.reverse

@[simp] lemma valid_eq : it.valid = it.raw.current.isSome := by
  cases hc : it.raw.current with
  | none => simp [valid,hc]
  | some e =>
    obtain ⟨i,_,rfl⟩ := Option.map_eq_some_iff.mp hc
    rw [valid,hc]
    exact it.inRange _ (get_mem _ i)

lemma key_eq : it.key = it.ahead.head?.map Prod.fst := by rw [ahead,LevelIt.head?_ahead,key]

lemma value_eq : it.value = (it.ahead.head?.map Prod.snd).getD [] := by rw [ahead,LevelIt.head?_ahead,value]

def walk : List (Bytes × Bytes) := if it.reverse then it.raw.store.entries.reverse else it.raw.store.entries

lemma ordered_walk : Ordered it.reverse it.walk := by
  unfold walk
  cases it.reverse with
  | false => exact it.raw.store.sorted
  | true => exact pairwise_reverse.mpr it.raw.store.sorted

structure Moves (es : List (Bytes × Bytes)) (r : Bool × DBIt) : Prop where
  ok : r.1 = es.head?.isSome
  ahead : r.2.ahead = es
  reverse : r.2.reverse = it.reverse
  store : r.2.raw.store = it.raw.store

lemma moves_moved (raw : LevelIt) (h : raw.store = it.raw.store) :
    it.Moves (raw.ahead it.reverse) (it.moved raw h) where
  ok := by simp [moved,LevelIt.head?_ahead]
  ahead := rfl
  reverse := rfl
  store := h

lemma rewind_moves : it.Moves it.walk it.rewind := by
  unfold rewind walk
  cases hr : it.reverse with
  | false =>
    have h := it.moves_moved it.raw.first rfl
    rw [hr,LevelIt.ahead_first] at h
    exact h
  | true =>
    have h := it.moves_moved it.raw.last rfl
    rw [hr,LevelIt.ahead_last] at h
    exact h

lemma next_moves (hne : it.ahead ≠ []) : it.Moves it.ahead.tail it.next := by
  have hp : it.raw.pos.isSome := by
    by_contra hn
    exact hne (by simp [ahead,LevelIt.ahead,Option.not_isSome_iff_eq_none.mp hn])
  unfold next ahead
  cases hr : it.reverse with
  | false =>
    have h := it.moves_moved it.raw.next it.raw.store_next
    rw [hr,it.raw.ahead_next hp] at h
    exact h
  | true =>
    have h := it.moves_moved it.raw.prev it.raw.store_prev
    rw [hr,it.raw.ahead_prev hp] at h
    exact h

variable {it}

lemma valid_iff : it.valid = true ↔ it.ahead ≠ [] := by
  rw [valid_eq,← LevelIt.head?_ahead it.raw it.reverse,isSome_head?]
  simp [ahead]

lemma length_ahead_le : it.ahead.length ≤ Iter.size it := by
  show _ ≤ it.raw.store.entries.length
  unfold ahead LevelIt.ahead
  split
  · simp
  · split_ifs <;> simp

variable (it)

lemma faces_ahead : Faces it it.ahead := by
  induction hn : it.ahead.length generalizing it with
  | zero =>
    rw [length_eq_zero_iff.mp hn]
    exact Bool.eq_false_iff.mpr fun hv => valid_iff.mp hv (length_eq_zero_iff.mp hn)
  | succ n ih =>
    have hm := it.next_moves (by rw [← length_pos_iff]; omega)
    have hnext := ih it.next.2 (by rw [hm.ahead,length_tail,hn]; rfl)
    have hl := it.length_ahead_le
    rw [hm.ahead] at hnext
    cases ha : it.ahead with
    | nil => simp [ha] at hn
    | cons e es =>
      rw [ha] at hnext hl
      refine ⟨valid_iff.mpr (by simp [ha]),?_,?_,(Nat.le_succ _).trans hl,hnext⟩
      · show it.key = _
        rw [key_eq,ha]
        rfl
      · show it.value = _
        rw [value_eq,ha]
        rfl

lemma drain_rewind : drain (Iter.size it+1) (Iter.rewind it).2 = it.walk := by
  have hm := it.rewind_moves
  have hl := it.rewind.2.length_ahead_le
  have hs : Iter.size it.rewind.2 = Iter.size it := congrArg (fun s => s.entries.length) it.store_rewind
  exact (it.rewind.2.faces_ahead.drain_eq (by omega)).trans hm.ahead

end DBIt

lemma filter_eq_of_sorted {R : List (Bytes × Bytes)} (hs : R.Pairwise fun a b => a.1 < b.1) (key : Bytes) :
    R.filter (·.1 < key) = R.take (R.findIdx (key ≤ ·.1)) ∧
      R.filter (·.1 ≤ key) = R.filter (·.1 < key) ++ (R.find? (key ≤ ·.1)).toList.filter (·.1 ≤ key) := by
  induction R with
  | nil => simp
  | cons e R ih =>
    obtain ⟨he,hs⟩ := pairwise_cons.mp hs
    by_cases hk : key ≤ e.1
    · have hn : R.filter (·.1 ≤ key) = [] := filter_eq_nil_iff.mpr fun a ha => by simpa using hk.trans_lt (he a ha)
      have hn' : R.filter (·.1 < key) = [] := filter_eq_nil_iff.mpr fun a ha => by simpa using (hk.trans_lt (he a ha)).le
      simp [filter_cons,findIdx_cons,hk,hn,hn',hk.not_gt]
    · simp [findIdx_cons,hk,not_le.mp hk,(not_le.mp hk).le,ih hs]

namespace DBIt
variable (it : DBIt)

lemma seek_cases (hr : it.reverse = true) (key : Bytes) :
    it.raw.store.entries.find? (key ≤ ·.1) = none ∧ (it.seek key).1 = false ∧ (it.seek key).2.ahead = [] ∧
        (it.seek key).2.next.2.ahead = (it.raw.store.entries.filter (·.1 < key)).reverse ∨
      ∃ e, it.raw.store.entries.find? (key ≤ ·.1) = some e ∧ (it.seek key).1 = true ∧
        (it.seek key).2.ahead = e :: (it.raw.store.entries.filter (·.1 < key)).reverse := by
  obtain ⟨⟨s,pos,f⟩,st,l,reverse,hran⟩ := it
  obtain rfl : reverse = true := hr
  obtain ⟨ht,-⟩ := filter_eq_of_sorted s.sorted key
  dsimp only
  rw [ht,findIdx_eq_getD_findIdx?,findIdx?_eq_map_findFinIdx?_val,find?_eq_map_findFinIdx?_getElem]
  show _ ∧ (LevelIt.seek ⟨s,pos,f⟩ key).current.isSome = false ∧ (LevelIt.seek ⟨s,pos,f⟩ key).ahead true = [] ∧
      (LevelIt.seek ⟨s,pos,f⟩ key).prev.ahead true = _ ∨
    ∃ e, _ ∧ (LevelIt.seek ⟨s,pos,f⟩ key).current.isSome = true ∧ (LevelIt.seek ⟨s,pos,f⟩ key).ahead true = _
  unfold LevelIt.seek
  cases s.entries.findFinIdx? fun e => decide (key ≤ e.1) with
  | none => exact .inl ⟨rfl,rfl,rfl,(LevelIt.ahead_last ⟨s,none,true⟩).trans (by simp)⟩
  | some i =>
    refine .inr ⟨_,rfl,rfl,?_⟩
    show (s.entries.take (i.1+1)).reverse = _
    rw [take_add_one,getElem?_eq_getElem i.2]
    simp

theorem seek_reverse (hr : it.reverse = true) (key : Bytes) : SeeksDown it.raw.store.entries key (Iter.seek it key) := by
  rcases it.seek_cases hr key with ⟨hf,hok,ha,hn⟩ | ⟨e,hf,hok,ha⟩
  · exact .inl ⟨hf,hok,ha ▸ (it.seek key).2.faces_ahead,hn ▸ (it.seek key).2.next.2.faces_ahead⟩
  · exact .inr ⟨e,hf,hok,ha ▸ (it.seek key).2.faces_ahead⟩

end DBIt

end Dpos.DB
