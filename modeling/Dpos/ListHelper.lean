import Dpos.MergeIter

/-! Listing the entries of a database, as in `list_helper.go`. Entries with an empty value
count as deleted. -/
namespace Dpos.DB

open HeadMerge List

variable {P : Bytes × Bytes → Prop}

def listDESC : BitVec 32 := 0
def listASC : BitVec 32 := 1
def listSeek : BitVec 32 := 2
def listWithKey : BitVec 32 := 4
def listKeyOnly : BitVec 32 := 8

def isASC (direction : BitVec 32) : Bool := direction &&& listASC = listASC

def isReverse (direction : BitVec 32) : Bool := !isASC direction

def isDeleted (d : Bytes) : Bool := d.isEmpty

variable {key : Bytes}

section
variable {σ : Type} [Iter σ] (encode : Bytes × Bytes → Bytes)

/-- `collect`, where `encode` gives the bytes of a `types.KeyValue`. -/
def collect (direction : BitVec 32) (e : Bytes × Bytes) : Bytes :=
  if direction &&& listKeyOnly ≠ 0 then e.1
  else if direction &&& listWithKey ≠ 0 then encode e
  else e.2

/-- The loop of a scan; `i` counts what is collected. -/
def scanLoop (count direction : BitVec 32) : ℕ → σ → BitVec 32 → List Bytes
  | 0,_,_ => []
  | fuel+1,it,i =>
    if Iter.valid it = false then []
    else if isDeleted (Iter.value it) then scanLoop count direction fuel (Iter.next it).2 i
    else collect encode direction ((Iter.key it).getD [],Iter.value it) ::
      if i+1 = count then [] else scanLoop count direction fuel (Iter.next it).2 (i+1)

def iteratorScan (iterator : Bytes → Bool → σ) (pre : Bytes) (count : BitVec 32) (reverse : Bool)
    (direction : BitVec 32) : List Bytes :=
  let it := iterator pre reverse
  scanLoop encode count direction (Iter.size it+1) (Iter.rewind it).2 0

def iteratorScanFrom (iterator : Bytes → Bool → σ) (pre key : Bytes) (count direction : BitVec 32) :
    List Bytes :=
  let it := (Iter.seek (iterator pre (isReverse direction)) key).2
  if Iter.valid it = false then []
  else scanLoop encode count direction (Iter.size it+1) (Iter.next it).2 0

/-- Goes on while the entry is deleted; `none` where the entries end. -/
def skipDeleted : ℕ → σ → Option σ
  | 0,_ => none
  | fuel+1,it =>
    if Iter.valid it && isDeleted (Iter.value it) then
      let it := (Iter.next it).2
      if Iter.valid it then skipDeleted fuel it else none
    else some it

def keyValue (it : σ) : List Bytes := [(Iter.key it).getD [],Iter.value it]

def nextLive (it : σ) : List Bytes :=
  if Iter.valid (Iter.next it).2 = false then []
  else match skipDeleted (Iter.size (Iter.next it).2+1) (Iter.next it).2 with
    | none => []
    | some it => keyValue it

/-- `nextKeyValue`: the entry at the key, or else the one before. -/
def nextKeyValue (iterator : Bytes → Bool → σ) (pre key : Bytes) : List Bytes :=
  let sought := Iter.seek (iterator pre true) key
  match skipDeleted (Iter.size sought.2+1) sought.2 with
  | none => []
  | some it => if sought.1 = false ∨ key ≠ (Iter.key it).getD [] then nextLive it else keyValue it

def list (iterator : Bytes → Bool → σ) (pre key : Bytes) (count direction : BitVec 32) : List Bytes :=
  if key ≠ [] ∧ count = 1 ∧ direction = listSeek then nextKeyValue iterator pre key
  else if key = [] then
    if isASC direction then iteratorScan encode iterator pre count false direction
    else iteratorScan encode iterator pre count true direction
  else iteratorScanFrom encode iterator pre key count direction

def countLoop : ℕ → σ → ℕ → ℕ
  | 0,_,count => count
  | fuel+1,it,count =>
    if Iter.valid it = false then count
    else countLoop fuel (Iter.next it).2 (if isDeleted (Iter.value it) then count else count+1)

def prefixCount (iterator : Bytes → Bool → σ) (pre : Bytes) : ℕ :=
  let it := iterator pre true
  countLoop (Iter.size it+1) (Iter.rewind it).2 0

def live (es : List (Bytes × Bytes)) : List (Bytes × Bytes) := es.filter fun e => !isDeleted e.2

/-- How many entries a scan may collect. The counter has 32 bits, so that a count of zero or
below is met when it comes round. -/
def listLimit (count : BitVec 32) : ℕ := (count-1).toNat+1

variable (iterator : Bytes → Bool → σ) (pre : Bytes) (count direction : BitVec 32) (fuel : ℕ) (it : σ)

lemma scanLoop_eq (i : BitVec 32) : scanLoop encode count dir fuel it i =
      ((live (drain fuel it)).take (listLimit (count-i))).map (collect encode dir) := by
  induction fuel generalizing it i with
  | zero => simp [scanLoop,drain,live]
  | succ fuel ih =>
    rw [scanLoop,drain]
    cases hv : Iter.valid it with
    | false => simp [live]
    | true =>
      cases hdel : isDeleted (Iter.value it) with
      | true =>
        have hl : live (((Iter.key it).getD [],Iter.value it) :: drain fuel (Iter.next it).2) =
            live (drain fuel (Iter.next it).2) := by simp [live,hdel]
        simp only [Bool.true_eq_false,if_false,if_true,hl]
        exact ih _ i
      | false =>
        have hl : live (((Iter.key it).getD [],Iter.value it) :: drain fuel (Iter.next it).2) =
            ((Iter.key it).getD [],Iter.value it) :: live (drain fuel (Iter.next it).2) := by simp [live,hdel]
        simp only [Bool.true_eq_false,Bool.false_eq_true,if_false,if_true,hl]
        rw [listLimit,take_succ_cons,map_cons]
        split_ifs with hi
        · have hz : (count-i-1).toNat = 0 := by bv_omega
          rw [hz,take_zero]
          rfl
        · have hr : listLimit (count-(i+1)) = (count-i-1).toNat := by
            unfold listLimit
            bv_omega
          rw [ih,hr]

lemma countLoop_eq (count : ℕ) : countLoop fuel it count = count+(live (drain fuel it)).length := by
  induction fuel generalizing it count with
  | zero => simp [countLoop,drain,live]
  | succ fuel ih =>
    rw [countLoop,drain]
    cases hv : Iter.valid it with
    | false => simp [live]
    | true =>
      rw [ih]
      cases hdel : isDeleted (Iter.value it) with
      | true => simp [live,hdel]
      | false =>
        simp [live,hdel]
        omega

lemma iteratorScan_eq (r : Bool) (dir : BitVec 32) : iteratorScan encode iterator pre count r dir =
      ((live (drain (Iter.size (iterator pre r)+1) (Iter.rewind (iterator pre r)).2)).take
        (listLimit count)).map (collect encode dir) := by
  have hz : count-0 = count := by simp
  rw [iteratorScan,scanLoop_eq,hz]

lemma prefixCount_eq : prefixCount iterator pre =
      (live (drain (Iter.size (iterator pre true)+1) (Iter.rewind (iterator pre true)).2)).length := by
  rw [prefixCount,countLoop_eq,Nat.zero_add]

lemma list_congr {iterator iterator' : Bytes → Bool → σ} {pre : Bytes}
    (h : ∀ r, iterator pre r = iterator' pre r) (key : Bytes) (count dir : BitVec 32) :
    list encode iterator pre key count dir = list encode iterator' pre key count dir := by
  simp only [list,nextKeyValue,iteratorScan,iteratorScanFrom,h]

/-- A test of states that the moves keep and that gives `P` of the entry it stands on. -/
structure Stays (P : Bytes × Bytes → Prop) (I : σ → Prop) : Prop where
  rewind : ∀ {it}, I it → I (Iter.rewind it).2
  seek : ∀ {it} key, I it → I (Iter.seek it key).2
  next : ∀ {it}, I it → I (Iter.next it).2
  found : ∀ {it} key, I it → (Iter.seek it key).1 = true → Iter.valid (Iter.seek it key).2 = true
  entry : ∀ {it}, I it → Iter.valid it = true → P ((Iter.key it).getD [],Iter.value it)

section
variable {encode} {I : σ → Prop} (h : Stays P I)
include h

variable {it : σ} {c d : BitVec 32} {f : ℕ} {b : Bytes}

lemma Stays.drain (hi : I it) (f : ℕ) : ∀ e ∈ drain f it, P e := by
  induction f generalizing it with
  | zero => simp [DB.drain]
  | succ f ih =>
    rw [DB.drain]
    cases hv : Iter.valid it with
    | false => simp
    | true =>
      rw [if_pos rfl]
      exact forall_mem_cons.mpr ⟨h.entry hi hv,ih (h.next hi)⟩

lemma Stays.scanLoop (hi : I it) {i : BitVec 32} (hb : b ∈ scanLoop encode c d f it i) :
    ∃ e, P e ∧ isDeleted e.2 = false ∧ (b = e.1 ∨ b = e.2 ∨ b = encode e) := by
  rw [scanLoop_eq] at hb
  obtain ⟨e,he,rfl⟩ := mem_map.mp hb
  obtain ⟨hm,hl⟩ := mem_filter.mp (mem_of_mem_take he)
  refine ⟨e,h.drain hi f e hm,by simpa using hl,?_⟩
  unfold collect
  split_ifs <;> simp

lemma Stays.skipDeleted {it' : σ} (hi : I it) (hs : skipDeleted f it = some it') :
    I it' ∧ (Iter.valid it = true → Iter.valid it' = true ∧ isDeleted (Iter.value it') = false) := by
  induction f generalizing it with
  | zero => simp [DB.skipDeleted] at hs
  | succ f ih =>
    rw [DB.skipDeleted] at hs
    cases hdel : Iter.valid it && isDeleted (Iter.value it) with
    | true =>
      rw [hdel,if_pos rfl] at hs
      dsimp only at hs
      cases hnext : Iter.valid (Iter.next it).2 with
      | false => simp [hnext] at hs
      | true =>
        rw [hnext,if_pos rfl] at hs
        obtain ⟨hi',hl⟩ := ih (h.next hi) hs
        exact ⟨hi',fun _ => hl hnext⟩
    | false =>
      rw [hdel,if_neg (by simp)] at hs
      cases hs
      exact ⟨hi,fun hv => ⟨hv,by simpa [hv] using hdel⟩⟩

/-- What a list gives is taken from entries that satisfy `P` and are not deleted. -/
theorem Stays.list {iterator : Bytes → Bool → σ} (ho : ∀ pre r, I (iterator pre r)) {pre : Bytes}
    (hb : b ∈ list encode iterator pre key c d) :
    ∃ e, P e ∧ isDeleted e.2 = false ∧ (b = e.1 ∨ b = e.2 ∨ b = encode e) := by
  have het : ∀ {it : σ}, I it → Iter.valid it = true → isDeleted (Iter.value it) = false → b ∈ keyValue it →
      ∃ e, P e ∧ isDeleted e.2 = false ∧ (b = e.1 ∨ b = e.2 ∨ b = encode e) := by
    intro it hi hv hl hm
    refine ⟨_,h.entry hi hv,hl,?_⟩
    rcases mem_cons.mp hm with rfl | hm
    · exact .inl rfl
    · exact .inr (.inl (mem_singleton.mp hm))
  unfold DB.list at hb
  split_ifs at hb
  · unfold nextKeyValue at hb
    dsimp only at hb
    split at hb
    · simp at hb
    · rename_i it hsk
      obtain ⟨hi,hl⟩ := h.skipDeleted (h.seek key (ho pre true)) hsk
      split_ifs at hb with hf
      · unfold nextLive at hb
        split_ifs at hb with hv
        · simp at hb
        · split at hb
          · simp at hb
          · rename_i it' hsk'
            obtain ⟨hi',hl'⟩ := h.skipDeleted (h.next hi) hsk'
            obtain ⟨hv',hl'⟩ := hl' (by simpa using hv)
            exact het hi' hv' hl' hb
      · have hf : (Iter.seek (iterator pre true) key).1 = true := by simpa using (not_or.mp hf).1
        obtain ⟨hv,hl⟩ := hl (h.found key (ho pre true) hf)
        exact het hi hv hl hb
  · exact h.scanLoop (h.rewind (ho _ _)) hb
  · exact h.scanLoop (h.rewind (ho _ _)) hb
  · unfold iteratorScanFrom at hb
    dsimp only at hb
    split_ifs at hb
    · simp at hb
    · exact h.scanLoop (h.next (h.seek _ (ho _ _))) hb

end
end

/-! ### One database -/

def dbIterator (db : Store) (pre : Bytes) (reverse : Bool) : DBIt := iterator db pre none reverse

/-- The limit of such a prefix is not the text that stands for no end. -/
theorem bytesPrefix_ne {b : UInt8} (hb : b ≠ 70 ∧ b+1 ≠ 70) {rest : Bytes} : bytesPrefix (b :: rest) ≠ some emptyValue := by
  obtain ⟨l,hl⟩ : ∃ l, emptyValue = 70 :: l := ⟨_,rfl⟩
  rw [bytesPrefix_cons,hl]
  cases bytesPrefix rest with
  | none => simp [hb]
  | some li => simp [hb]

lemma dbIterator_congr {db db' : Store} {pre : Bytes} (he : bytesPrefix pre ≠ some emptyValue)
    (h : ∀ k, pre <+: k → db.get k = db'.get k) (reverse : Bool) : dbIterator db pre reverse = dbIterator db' pre reverse := by
  have hm : ∀ (l : Option Bytes) (s s' : Store) (hs : ∀ e ∈ s.entries, checkKey pre l e.1 = true)
      (hs' : ∀ e ∈ s'.entries, checkKey pre l e.1 = true), s = s' →
      (⟨⟨s,none,false⟩,pre,l,reverse,hs⟩ : DBIt) = ⟨⟨s',none,false⟩,pre,l,reverse,hs'⟩ := by
    rintro l s _ _ _ rfl
    rfl
  refine hm _ _ _ _ _ (SortedStore.ext_get fun k => ?_)
  rw [SortedStore.get_restrict,SortedStore.get_restrict,Option.none_or,if_neg he]
  split_ifs with hk
  · exact h k ((inRange_bytesPrefix pre k).mp hk)
  · rfl

section
variable {σ : Type} [Iter σ] {it : σ} {es : List (Bytes × Bytes)}

/-- The first live entry is found, with the rest ahead of it. -/
theorem Faces.skipDeleted_eq (h : Faces it es) {fuel : ℕ} (hf : es.length ≤ fuel) (hn : es ≠ []) :
    live es = [] ∧ skipDeleted fuel it = none ∨ ∃ it' e rest, skipDeleted fuel it = some it' ∧
      Iter.key it' = some e.1 ∧ Iter.value it' = e.2 ∧ live es = e :: live rest ∧ Faces (Iter.next it').2 rest := by
  induction fuel generalizing it es with
  | zero => exact absurd (length_eq_zero_iff.mp (Nat.le_zero.mp hf)) hn
  | succ fuel ih =>
    obtain ⟨e,es,rfl⟩ := exists_cons_of_ne_nil hn
    obtain ⟨hva,hk,hv,-,hnext⟩ := h
    rw [skipDeleted,hva,hv]
    cases hd : isDeleted e.2 with
    | false => exact .inr ⟨it,e,es,by simp,hk,hv,by simp [live,hd],hnext⟩
    | true =>
      have hl : live (e :: es) = live es := by simp [live,hd]
      rw [hl]
      cases es with
      | nil => exact .inl ⟨rfl,by simp [show Iter.valid (Iter.next it).2 = false from hnext]⟩
      | cons => simpa [hnext.1] using ih hnext (by simpa using hf) (by simp)

/-- The reply with one entry or none. -/
def entryReply (e : Option (Bytes × Bytes)) : List Bytes := e.elim [] fun e => [e.1,e.2]

lemma Faces.nextLive_eq (h : Faces (Iter.next it).2 es) : nextLive it = entryReply (live es).head? := by
  unfold nextLive
  cases es with
  | nil => simp [show Iter.valid (Iter.next it).2 = false from h,live,entryReply]
  | cons e es =>
    rw [if_neg (by simp [h.1])]
    rcases h.skipDeleted_eq (Nat.succ_le_succ h.2.2.2.1) (by simp) with ⟨hl,hs⟩ | ⟨it',e',rest,hs,hk,hv,hl,-⟩ <;>
      rw [hs,hl]
    · rfl
    · simp [keyValue,hk,hv,entryReply]

/-- The live entries from the key down. -/
def liveDown (R : List (Bytes × Bytes)) (key : Bytes) : List (Bytes × Bytes) := live (R.filter (·.1 ≤ key)).reverse

/-- `nextKeyValue` replies with the greatest live entry that does not come after the key, but with the one before
that if the first entry from the key on is deleted. -/
theorem SeeksDown.nextKeyValue_eq {iterator : Bytes → Bool → σ} {pre key : Bytes} {R : List (Bytes × Bytes)}
    (h : SeeksDown R key (Iter.seek (iterator pre true) key)) (hR : R.Pairwise fun a b => a.1 < b.1) :
    nextKeyValue iterator pre key = entryReply
      (if (R.find? (key ≤ ·.1)).any (isDeleted ·.2) then (liveDown R key).tail else liveDown R key).head? := by
  have hle := (filter_eq_of_sorted hR key).2
  unfold nextKeyValue liveDown
  rw [hle,reverse_append]
  dsimp only
  rcases h with ⟨hf,hfl,ha,hnext⟩ | ⟨e,hf,hfl,ha⟩
  · simp [skipDeleted,show Iter.valid _ = false from ha,hfl,hnext.nextLive_eq,hf]
  · have hk : key ≤ e.1 := by simpa using find?_some hf
    have hlo : ∀ e' ∈ (R.filter (·.1 < key)).reverse, key ≠ e'.1 := fun e' he' =>
      ne_of_gt (by simpa using (mem_filter.mp (mem_reverse.mp he')).2)
    generalize (R.filter (·.1 < key)).reverse = lo at ha hlo
    have hX : live ((((some e).toList.filter (·.1 ≤ key)).reverse) ++ lo) =
        if isDeleted e.2 = false ∧ e.1 = key then e :: live lo else live lo := by
      have hk' : e.1 ≤ key ↔ e.1 = key := ⟨fun h => le_antisymm h hk,Eq.le⟩
      by_cases hc : e.1 = key <;> cases hd : isDeleted e.2 <;> simp [live,hk',hc,hd]
    have hlive : live (e :: lo) = if isDeleted e.2 then live lo else e :: live lo := by
      cases hd : isDeleted e.2 <;> simp [live,hd]
    rw [hf,hX]
    rcases ha.skipDeleted_eq (Nat.succ_le_succ ha.2.2.2.1) (by simp) with ⟨hl,hs⟩ | ⟨it',e',rest,hs,hk',hv',hl,hrest⟩ <;>
      rw [hlive] at hl <;> rw [hs] <;> split_ifs at hl with hd
    · simp [hd,hl,entryReply]
    · have hm : e' ∈ lo := mem_of_mem_filter (hl ▸ mem_cons_self : e' ∈ live lo)
      simp [hfl,hk',hrest.nextLive_eq,hd,hl,hlo e' hm]
    · obtain ⟨rfl,hes⟩ := cons.inj hl
      by_cases hc : e.1 = key <;> simp [hfl,hrest.nextLive_eq,hd,hc,@eq_comm _ key,hes,keyValue,hk',hv',entryReply]

end

lemma nextKeyValue_eq (db : Store) (pre key : Bytes) {R : List (Bytes × Bytes)}
    (hR : (dbIterator db pre true).raw.store.entries = R) : nextKeyValue (dbIterator db) pre key = entryReply
      (if (R.find? (key ≤ ·.1)).any (isDeleted ·.2) then (liveDown R key).tail else liveDown R key).head? := by
  subst hR
  exact ((dbIterator db pre true).seek_reverse rfl key).nextKeyValue_eq (dbIterator db pre true).raw.store.sorted

/-- The entry is the last one that does not come after the key. -/
structure IsFloor (es : List (Bytes × Bytes)) (key : Bytes) (e : Bytes × Bytes) : Prop where
  mem : e ∈ es
  le : e.1 ≤ key
  greatest : ∀ e' ∈ es, e'.1 ≤ key → e'.1 ≤ e.1

/-- Among entries that are not deleted, `nextKeyValue` finds the last one that does not come
after the key. -/
theorem nextKeyValue_floor (db : Store) (pre key : Bytes)
    (hli : ∀ e ∈ (dbIterator db pre true).raw.store.entries, isDeleted e.2 = false) :
    (nextKeyValue (dbIterator db) pre key = [] ∧ ∀ e ∈ (dbIterator db pre true).raw.store.entries, key < e.1) ∨
      ∃ e, IsFloor (dbIterator db pre true).raw.store.entries key e ∧
        nextKeyValue (dbIterator db) pre key = [e.1,e.2] := by
  rw [nextKeyValue_eq db pre key rfl]
  have hs := (dbIterator db pre true).raw.store.sorted
  generalize (dbIterator db pre true).raw.store.entries = R at hli hs
  have hd : (R.find? (key ≤ ·.1)).any (isDeleted ·.2) = false := by
    rw [Option.any_eq_false]
    exact fun e he => by simp [hli e (mem_of_find?_eq_some he)]
  have hl : liveDown R key = (R.filter (·.1 ≤ key)).reverse :=
    filter_eq_self.mpr fun e he => by simp [hli e (mem_of_mem_filter (mem_reverse.mp he))]
  rw [hd,if_neg (by simp),hl]
  have hm : ∀ e, e ∈ (R.filter (·.1 ≤ key)).reverse ↔ e ∈ R ∧ e.1 ≤ key := by simp
  have hp := pairwise_reverse.mpr (hs.filter (·.1 ≤ key))
  cases h : (R.filter (·.1 ≤ key)).reverse with
  | nil => exact .inl ⟨rfl,fun e he => not_le.mp fun hle => by simpa [h] using (hm e).mpr ⟨he,hle⟩⟩
  | cons e es =>
    rw [h] at hm hp
    obtain ⟨he,hle⟩ := (hm e).mp mem_cons_self
    refine .inr ⟨e,⟨he,hle,fun e' he' hle' => ?_⟩,rfl⟩
    rcases mem_cons.mp ((hm e').mpr ⟨he',hle'⟩) with rfl | hes
    · exact le_rfl
    · exact ((pairwise_cons.mp hp).1 e' hes).le

/-! ### The entries under a merged iterator -/

namespace MergedIterator
variable {m : MergedIterator}

structure Loaded (P : Bytes × Bytes → Prop) (m : MergedIterator) : Prop where
  stores : ∀ it ∈ m.iters, ∀ e ∈ it.raw.store.entries, P e
  keys : ∀ {i : ℕ} {k : Bytes}, m.keys[i]? = some (some k) → ∃ it : DBIt, m.iters[i]? = some it ∧ it.key = some k

structure Holds (P : Bytes × Bytes → Prop) (m : MergedIterator) : Prop extends Loaded P m where
  stands : m.dir = .forward ∨ m.dir = .seek → ∃ k, m.keys[m.index]? = some (some k)

lemma scan_mem {ir : Bool} {ks : List (Option Bytes)} {x i : ℕ}
    {be : Option (Bytes × ℕ)} (h : m.scan ir ks x be = some (key,i)) :
    be = some (key,i) ∨ ∃ j, ks[j]? = some (some key) ∧ i = x+j := by
  induction ks generalizing x be with
  | nil => exact .inl h
  | cons t ks ih =>
    have hl : ∀ {be}, m.scan ir ks (x+1) be = some (key,i) →
        be = some (key,i) ∨ ∃ j, (t :: ks)[j]? = some (some key) ∧ i = x+j := by
      intro be hs
      refine (ih hs).imp_right ?_
      rintro ⟨j,hj,rfl⟩
      exact ⟨j+1,hj,by omega⟩
    have hh : ∀ {t'}, t = some t' → some (t',x) = some (key,i) →
        ∃ j, (t :: ks)[j]? = some (some key) ∧ i = x+j := by
      rintro t' rfl he
      cases he
      exact ⟨0,rfl,rfl⟩
    cases t with
    | none => exact hl h
    | some t =>
      cases be with
      | none => exact .inr ((hl h).elim (hh rfl) id)
      | some b =>
        rw [scan] at h
        split_ifs at h
        · exact .inr ((hl h).elim (hh rfl) id)
        · exact hl h

lemma Loaded.pick (h : Loaded P m) (ir : Bool) : Holds P (m.pick ir).2 ∧ (m.pick ir).2.err = m.err ∧
      ((m.pick ir).1 = true → (m.pick ir).2.dir = .forward) := by
  unfold MergedIterator.pick
  cases hs : m.scan ir m.keys 0 none with
  | none => exact ⟨⟨⟨h.stores,h.keys⟩,by simp⟩,rfl,by simp⟩
  | some b =>
    obtain ⟨key,i⟩ := b
    obtain ⟨j,hj,rfl⟩ := (scan_mem hs).resolve_left (by simp)
    exact ⟨⟨⟨h.stores,h.keys⟩,fun _ => ⟨key,by simpa using hj⟩⟩,rfl,fun _ => rfl⟩

lemma Loaded.of_moves {ms : List (Bool × DBIt)} (hs : ∀ r ∈ ms, ∀ e ∈ r.2.raw.store.entries, P e)
    (hie : m.iters = ms.map Prod.snd) (hky : m.keys = ms.map fun r => if r.1 then r.2.key else none) :
    Loaded P m := by
  refine ⟨fun it hit => ?_,fun {i k} hi => ?_⟩
  · rw [hie] at hit
    obtain ⟨r,hr,rfl⟩ := mem_map.mp hit
    exact hs r hr
  · rw [hky,getElem?_map] at hi
    obtain ⟨r,hr,hk⟩ := Option.map_eq_some_iff.mp hi
    refine ⟨r.2,by rw [hie,getElem?_map,hr]; rfl,?_⟩
    split_ifs at hk
    exact hk

lemma Loaded.moveAll (h : Loaded P m) {f : DBIt → Bool × DBIt} (hf : ∀ it, (f it).2.raw.store = it.raw.store) :
    Loaded P (m.moveAll (m.iters.map f)) := by
  refine .of_moves (fun r hr => ?_) rfl rfl
  obtain ⟨it,hi,rfl⟩ := mem_map.mp hr
  rw [hf]
  exact h.stores it hi

lemma Holds.rewind (h : Holds P m) : Holds P m.rewind.2 := by
  unfold MergedIterator.rewind
  split_ifs
  · exact h
  · exact ⟨⟨h.stores,h.keys⟩,h.stands⟩
  · exact ((h.toLoaded.moveAll DBIt.store_rewind).pick false).1

lemma Holds.seek (h : Holds P m) (key : Bytes) :
    Holds P (m.seek key).2 ∧ ((m.seek key).1 = true → (m.seek key).2.valid = true) := by
  unfold MergedIterator.seek
  split_ifs with he hd
  · exact ⟨h,by simp⟩
  · exact ⟨⟨⟨h.stores,h.keys⟩,h.stands⟩,by simp⟩
  · obtain ⟨hp,he',ho⟩ := (h.toLoaded.moveAll fun it => it.store_seek key).pick true
    have he' : ((m.moveAll (m.iters.map (DBIt.seek · key))).pick true).2.err = none :=
      he'.trans (by simpa [MergedIterator.moveAll] using he)
    cases hr : (m.moveAll (m.iters.map (DBIt.seek · key))).pick true with
    | mk ok m' =>
      rw [hr] at hp he' ho
      cases ok with
      | false => exact ⟨⟨⟨hp.stores,hp.keys⟩,by simp⟩,by simp⟩
      | true =>
        refine ⟨⟨⟨hp.stores,hp.keys⟩,fun _ => hp.stands (.inl (ho rfl))⟩,fun _ => ?_⟩
        simpa [MergedIterator.valid] using he'

lemma Loaded.move (h : Loaded P m) {ir : DBIt} (hie : m.iters[m.index]? = some ir) {r : Bool × DBIt}
    (hr : r.2.raw.store = ir.raw.store) : Loaded P (m.move r) := by
  obtain ⟨hlt,-⟩ := List.getElem?_eq_some_iff.mp hie
  refine ⟨fun it hit => ?_,fun {i k} hi => ?_⟩
  · rcases mem_or_eq_of_mem_set hit with hit | rfl
    · exact h.stores it hit
    · rw [hr]
      exact h.stores ir (mem_of_getElem? hie)
  · simp only [MergedIterator.move,getElem?_set] at hi ⊢
    by_cases he : m.index = i
    · subst he
      rw [if_pos rfl] at hi ⊢
      rw [if_pos hlt]
      split_ifs at hi with hl ho
      · exact ⟨r.2,rfl,Option.some.inj hi⟩
      · cases hi
    · rw [if_neg he] at hi ⊢
      exact h.keys hi

lemma Loaded.advance (h : Loaded P m) (hlt : m.index < m.iters.length) : Holds P m.advance.2 := by
  have hi := getElem?_eq_getElem hlt
  rw [MergedIterator.advance,hi]
  exact ((h.move hi (DBIt.store_next _)).pick false).1

lemma Loaded.reseek (h : Loaded P m) : Loaded P m.reseek := by
  refine .of_moves (fun r hr => ?_) rfl rfl
  obtain ⟨⟨i,x⟩,hm,rfl⟩ := mem_map.mp hr
  have hs := h.stores i (fst_mem_of_mem_zipIdx hm)
  dsimp only
  split_ifs
  · exact hs
  · simpa using hs
  · simpa using hs

lemma Holds.index_lt (h : Holds P m) (hd : m.dir = .forward ∨ m.dir = .seek) : m.index < m.iters.length := by
  obtain ⟨k,hk⟩ := h.stands hd
  obtain ⟨it,hi,-⟩ := h.keys hk
  exact (List.getElem?_eq_some_iff.mp hi).1

lemma Holds.nextInternal (h : Holds P m) : Holds P m.nextInternal.2.2 := by
  unfold MergedIterator.nextInternal
  by_cases he : m.dir = .eoi ∨ m.err.isSome
  · rw [if_pos he]
    exact h
  · rw [if_neg he]
    cases hd : m.dir with
    | released => exact ⟨⟨h.stores,h.keys⟩,by simp⟩
    | soi => exact h.rewind
    | eoi => exact absurd (.inl hd) he
    | forward => exact h.toLoaded.advance (h.index_lt (.inl hd))
    | seek =>
      have hlt := h.index_lt (.inr hd)
      cases m.reverse with
      | true => exact h.toLoaded.reseek.advance (by simpa [MergedIterator.reseek] using hlt)
      | false => exact h.toLoaded.advance hlt

lemma Holds.nextLoop (h : Holds P m) (fuel : ℕ) : Holds P (m.nextLoop fuel).2 := by
  induction fuel generalizing m with
  | zero => exact h
  | succ fuel ih =>
    have hnext := h.nextInternal
    rw [MergedIterator.nextLoop]
    cases hr : m.nextInternal with
    | mk ok r =>
      rw [hr] at hnext
      dsimp only at hnext ⊢
      split_ifs
      · exact hnext
      · exact hnext
      · exact ⟨⟨hnext.stores,hnext.keys⟩,hnext.stands⟩
      · exact ih hnext

lemma Holds.entry (h : Holds P m) (hva : m.valid = true) : P (m.key.getD [],m.value) := by
  have hd : m.dir = .forward ∨ m.dir = .seek := by simpa using (Bool.and_eq_true_iff.mp hva).2
  obtain ⟨k,hk⟩ := h.stands hd
  obtain ⟨it,hi,hke⟩ := h.keys hk
  rw [MergedIterator.key,MergedIterator.value,if_pos hva,if_pos hva,hk,hi]
  obtain ⟨e,he,rfl⟩ := Option.map_eq_some_iff.mp hke
  obtain ⟨i,-,rfl⟩ := Option.map_eq_some_iff.mp he
  have hv : it.value = (it.raw.store.entries.get i).2 := by rw [DBIt.value,he]; rfl
  simp only [Option.getD_some,Option.map_some,hv]
  exact h.stores it (mem_of_getElem? hi) _ (get_mem _ i)

lemma stays (P : Bytes × Bytes → Prop) : Stays P (Holds P) where
  rewind := Holds.rewind
  seek key h := (h.seek key).1
  next h := h.nextLoop _
  found key h := (h.seek key).2
  entry := Holds.entry

lemma Holds.new {its : List DBIt} (h : ∀ it ∈ its, ∀ e ∈ it.raw.store.entries, P e) : Holds P (.new its) := by
  refine ⟨⟨h,fun {i k} hi => ?_⟩,by simp [MergedIterator.new]⟩
  have hm := mem_of_getElem? hi
  simp [MergedIterator.new] at hm

end MergedIterator
end Dpos.DB
