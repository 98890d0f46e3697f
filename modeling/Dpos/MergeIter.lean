import Dpos.Iterator

/-! The merged iterator, as in `merge_iter.go`: it keeps the current keys of its iterators,
stands on the first of the least ones, and skips keys that it has given before. -/
namespace Dpos.DB

open HeadMerge List SortedStore

inductive Dir
  | released | soi | eoi | forward | seek
  deriving DecidableEq, Repr

inductive IterErr
  | iterReleased
  deriving DecidableEq, Repr

/-- `mergedIterator`. The iterators it is made of report no errors. -/
structure MergedIterator where
  iters : List DBIt
  reverse : Bool
  keys : List (Option Bytes)
  prevKey : Option Bytes
  index : ℕ
  dir : Dir
  err : Option IterErr

/-- The flag of the first iterator; one iterator alone counts as reverse. -/
def mergedReverse : List DBIt → Bool
  | first :: _ :: _ => first.reverse
  | _ => true

def MergedIterator.new (iters : List DBIt) : MergedIterator :=
  ⟨iters,mergedReverse iters,replicate iters.length none,none,0,.soi,none⟩

/-- `NewMergedIterator`, `none` where it panics. -/
def newMergedIterator (iters : List DBIt) : Option MergedIterator :=
  if iters.length < 2 ∨ ∀ it ∈ iters, it.reverse = mergedReverse iters then some (.new iters) else none

namespace MergedIterator
variable (m : MergedIterator)

def valid : Bool := m.err.isNone && (m.dir = .forward || m.dir = .seek)

def compare (tkey key : Option Bytes) (ignoreReverse : Bool) : ℤ :=
  if ignoreReverse then Bytes.compare (tkey.getD []) (key.getD [])
  else match tkey,key with
    | none,some _ => 1
    | some _,none => -1
    | _,_ =>
      let result := Bytes.compare (tkey.getD []) (key.getD [])
      if m.reverse then -result else result

/-- The loop of `next`: the first of the least keys from index `x` on, where `best` is the
one found before. -/
def scan (ignoreReverse : Bool) : List (Option Bytes) → ℕ → Option (Bytes × ℕ) → Option (Bytes × ℕ)
  | [],_,best => best
  | none :: keys,x,best => scan ignoreReverse keys (x+1) best
  | some tkey :: keys,x,none => scan ignoreReverse keys (x+1) (some (tkey,x))
  | some tkey :: keys,x,some (key,i) =>
    if m.compare (some tkey) (some key) ignoreReverse < 0 then scan ignoreReverse keys (x+1) (some (tkey,x))
    else scan ignoreReverse keys (x+1) (some (key,i))

def pick (ignoreReverse : Bool) : Bool × MergedIterator :=
  match m.scan ignoreReverse m.keys 0 none with
  | none => (false,{m with dir := .eoi})
  | some (key,i) =>
    (true,{m with index := i, prevKey := if m.dir = .soi then some key else m.prevKey, dir := .forward})

def moveAll (moves : List (Bool × DBIt)) : MergedIterator :=
  {m with
    iters := moves.map Prod.snd
    keys := moves.map fun r => if r.1 then r.2.key else none
    dir := .soi}

def rewind : Bool × MergedIterator :=
  if m.err.isSome then (false,m)
  else if m.dir = .released then (false,{m with err := some .iterReleased})
  else (m.moveAll (m.iters.map DBIt.rewind)).pick false

def seek (key : Bytes) : Bool × MergedIterator :=
  if m.err.isSome then (false,m)
  else if m.dir = .released then (false,{m with err := some .iterReleased})
  else
    let (ok,m) := (m.moveAll (m.iters.map (DBIt.seek · key))).pick true
    (ok,{m with dir := if ok then .seek else .soi})

def move (r : Bool × DBIt) : MergedIterator :=
  {m with iters := m.iters.set m.index r.2, keys := m.keys.set m.index (if r.1 then r.2.key else none)}

/-- Moves the iterator it stands on, and looks for the least key again. -/
def advance : Bool × MergedIterator :=
  match m.iters[m.index]? with
  | none => (false,m)
  | some iter => (m.move iter.next).pick false

/-- After `Seek` downwards the other iterators go to the entry before the key. -/
def reseek : MergedIterator :=
  let key := ((m.keys[m.index]?).getD none).getD []
  let moves := m.iters.zipIdx.map fun (iter,x) =>
    if x = m.index then (true,iter)
    else
      let (found,iter) := iter.seek key
      if found then iter.next else iter.rewind
  {m with iters := moves.map Prod.snd, keys := moves.map fun r => if r.1 then r.2.key else none}

def nextInternal : Bool × Bool × MergedIterator :=
  if m.dir = .eoi ∨ m.err.isSome then (false,false,m)
  else match m.dir with
    | .released => (false,false,{m with err := some .iterReleased})
    | .soi =>
      let (ok,m) := m.rewind
      (ok,true,m)
    | .seek =>
      let (ok,m) := (if m.reverse then m.reseek else m).advance
      (ok,false,m)
    | _ =>
      let (ok,m) := m.advance
      (ok,false,m)

def key : Option Bytes := if m.valid then (m.keys[m.index]?).getD none else none

def value : Bytes := if m.valid then ((m.iters[m.index]?).map DBIt.value).getD [] else []

def nextLoop : ℕ → MergedIterator → Bool × MergedIterator
  | 0,m => (false,m)
  | fuel+1,m =>
    let (ok,isrewind,m) := m.nextInternal
    if ok = false then (false,m)
    else if isrewind then (true,m)
    else if m.compare m.key m.prevKey true ≠ 0 then (true,{m with prevKey := m.key})
    else nextLoop fuel m

def size : ℕ := (m.iters.map fun it => it.raw.store.entries.length).sum

/-- `Next`. Each round of its loop leaves an entry behind. -/
def next : Bool × MergedIterator := nextLoop (m.size+1) m

instance : Iter MergedIterator := ⟨rewind,seek,next,valid,key,value,size⟩

/-- What `scan` looks for: the first of the least keys. -/
def Best (reverse : Bool) (keys : List (Option Bytes)) : Option (Bytes × ℕ) → Prop
  | none => ∀ key, some key ∉ keys
  | some (key,i) => keys[i]? = some (some key) ∧ (∀ t, some t ∈ keys → t = key ∨ before reverse key t) ∧
      ∀ j < i, ∀ t, keys[j]? = some (some t) → before reverse key t

variable {m} {reverse : Bool} {R : List (List (Bytes × Bytes))} {k : Bytes}

lemma compare_lt {t key : Bytes} : m.compare (some t) (some key) false < 0 ↔ before m.reverse t key := by
  simp only [compare,Bool.false_eq_true,if_false,Option.getD_some,before]
  cases m.reverse with
  | false => simpa using Bytes.compare_neg
  | true =>
    simp only [if_true,Left.neg_neg_iff,Bytes.compare]
    rcases lt_trichotomy t key with h | rfl | h
    · simp [h,h.not_gt]
    · simp
    · simp [h,h.not_gt,h.ne']

variable {keys : List (Option Bytes)} {es : List (Bytes × Bytes)} {e : Bytes × Bytes} {i f : ℕ}

lemma Best.push_none {best : Option (Bytes × ℕ)} (h : Best reverse keys best) :
    Best reverse (keys ++ [none]) best := by
  cases best with
  | none =>
    intro key hm
    exact h key (by simpa using hm)
  | some b =>
    obtain ⟨hi,ha,hf1⟩ := h
    have hlt := (List.getElem?_eq_some_iff.mp hi).1
    refine ⟨by rw [List.getElem?_append_left hlt,hi],fun t ht => ha t (by simpa using ht),fun j hj t ht => ?_⟩
    rw [List.getElem?_append_left (hj.trans hlt)] at ht
    exact hf1 j hj t ht

lemma Best.push_least {tk : Bytes} (h : ∀ t, some t ∈ keys → before reverse tk t) :
    Best reverse (keys ++ [some tk]) (some (tk,keys.length)) := by
  refine ⟨by simp,fun t ht => ?_,fun j hj t ht => ?_⟩
  · rcases mem_append.mp ht with ht | ht
    · exact .inr (h t ht)
    · exact .inl (by simpa using ht)
  · rw [getElem?_append_left hj] at ht
    exact h t (mem_of_getElem? ht)

lemma Best.push_other {tkey key : Bytes} (h : Best reverse keys (some (key,i)))
    (hl : tkey = key ∨ before reverse key tkey) : Best reverse (keys ++ [some tkey]) (some (key,i)) := by
  obtain ⟨hi,ha,hf1⟩ := h
  have hlt := (List.getElem?_eq_some_iff.mp hi).1
  refine ⟨by rw [List.getElem?_append_left hlt,hi],fun t ht => ?_,fun j hj t ht => ?_⟩
  · rcases mem_append.mp ht with ht | ht
    · exact ha t ht
    · obtain rfl : t = tkey := by simpa using ht
      exact hl
  · rw [getElem?_append_left (hj.trans hlt)] at ht
    exact hf1 j hj t ht

/-- The loop of `next`, behind the keys `pre`. The direction matters between two keys. -/
theorem scan_best {pre : List (Option Bytes)} {be : Option (Bytes × ℕ)}
    (hf : m.reverse = reverse ∨ (pre ++ keys).length ≤ 1) (h : Best reverse pre be) :
    Best reverse (pre ++ keys) (m.scan false keys pre.length be) := by
  induction keys generalizing pre be with
  | nil => simpa [scan] using h
  | cons tk keys ih =>
    have hs : pre ++ tk :: keys = (pre ++ [tk]) ++ keys := by simp
    rw [hs] at hf ⊢
    have ih : ∀ be, Best reverse (pre ++ [tk]) be →
        Best reverse (pre ++ [tk] ++ keys) (m.scan false keys (pre ++ [tk]).length be) := fun _ => ih hf
    simp only [length_append,length_singleton] at ih
    cases tk with
    | none => exact ih be h.push_none
    | some tk =>
      cases be with
      | none => exact ih _ (Best.push_least fun t ht => absurd ht (h t))
      | some b =>
        obtain ⟨key,i⟩ := b
        -- two keys, so the flag is the direction of the iterators
        have hr : m.reverse = reverse := by
          refine hf.resolve_right fun hl => ?_
          have := (List.getElem?_eq_some_iff.mp h.1).1
          simp only [length_append,length_singleton] at hl
          omega
        rw [scan]
        split_ifs with hc
        · rw [compare_lt,hr] at hc
          refine ih _ (Best.push_least fun t ht => ?_)
          rcases h.2.1 t ht with rfl | hlt
          · exact hc
          · exact hc.trans hlt
        · rw [compare_lt,hr] at hc
          refine ih _ (h.push_other ?_)
          rcases before_trichotomy reverse tk key with hlt | he | hg
          · exact absurd hlt hc
          · exact .inl he
          · exact .inr hg

/-! ### The lists ahead -/

/-- The iterators have the lists `R` ahead of them. -/
structure Shows (reverse : Bool) (R : List (List (Bytes × Bytes))) (m : MergedIterator) : Prop where
  ahead : m.iters.map DBIt.ahead = R
  same : ∀ it ∈ m.iters, it.reverse = reverse
  keys : m.keys = R.map fun es => es.head?.map Prod.fst
  flag : m.reverse = reverse ∨ R.length ≤ 1
  err : m.err = none

structure On (reverse : Bool) (R : List (List (Bytes × Bytes))) (k : Bytes) (m : MergedIterator) : Prop
    extends Shows reverse R m where
  dir : m.dir = .forward
  least : Least reverse R k
  stands : ∃ v es, R[m.index]? = some ((k,v) :: es) ∧ firstValue R k = some v

lemma On.valid (h : On reverse R k m) : m.valid = true := by simp [MergedIterator.valid,h.err,h.dir]

lemma On.key (h : On reverse R k m) : m.key = some k := by
  obtain ⟨v,es,hi,_⟩ := h.stands
  rw [MergedIterator.key,if_pos h.valid,h.keys,getElem?_map,hi]
  rfl

lemma On.value (h : On reverse R k m) : firstValue R k = some m.value := by
  obtain ⟨v,es,hi,hv⟩ := h.stands
  rw [← h.ahead,getElem?_map] at hi
  obtain ⟨it,hit,ha⟩ := Option.map_eq_some_iff.mp hi
  rw [hv,MergedIterator.value,if_pos h.valid,hit,Option.map_some,Option.getD_some,DBIt.value_eq,ha]
  rfl

lemma pick_size (m : MergedIterator) (ir : Bool) : (m.pick ir).2.size = m.size := by
  unfold MergedIterator.pick
  split <;> rfl

lemma Shows.pick (h : Shows reverse R m) (ho : ∀ es ∈ R, Ordered reverse es) :
    ((∀ es ∈ R, es = []) ∧ (m.pick false).1 = false ∧ (m.pick false).2.valid = false) ∨
      ∃ k, (m.pick false).1 = true ∧ On reverse R k (m.pick false).2 ∧
        (m.pick false).2.prevKey = if m.dir = .soi then some k else m.prevKey := by
  have hb : Best reverse ([] ++ m.keys) (m.scan false m.keys ([] : List (Option Bytes)).length none) :=
    scan_best (h.flag.imp_right fun hl => by simpa [h.keys] using hl) (by simp [Best])
  rw [nil_append,length_nil] at hb
  unfold MergedIterator.pick
  cases hs : m.scan false m.keys 0 none with
  | none =>
    rw [hs] at hb
    refine .inl ⟨fun es hes => ?_,rfl,by simp [MergedIterator.valid]⟩
    cases es with
    | nil => rfl
    | cons e es =>
      refine absurd ?_ (hb e.1)
      rw [h.keys]
      exact mem_map.mpr ⟨_,hes,rfl⟩
  | some b =>
    obtain ⟨key,i⟩ := b
    rw [hs] at hb
    obtain ⟨hi,ha,hf1⟩ := hb
    rw [h.keys] at hi ha hf1
    have hleast : Least reverse R key := fun es hes e he =>
      ha e.1 (mem_map.mpr ⟨es,hes,by rw [Option.mem_def.mp he]; rfl⟩)
    rw [getElem?_map] at hi
    obtain ⟨es,hes,hh⟩ := Option.map_eq_some_iff.mp hi
    refine .inr ⟨key,rfl,⟨⟨h.ahead,h.same,h.keys,h.flag,h.err⟩,rfl,hleast,?_⟩,rfl⟩
    cases es with
    | nil => simp at hh
    | cons e es =>
      obtain ⟨k',v⟩ := e
      obtain rfl : k' = key := by simpa using hh
      refine ⟨v,es,hes,firstValue_of_head hes fun j hj es' hes' e he => ?_⟩
      cases es' with
      | nil => simp at he
      | cons e0 es' =>
        have hh := hf1 j hj e0.1 (by simp [hes'])
        rcases mem_cons.mp he with rfl | he
        · exact hh.ne.symm
        · have ho' := ho _ (mem_of_getElem? hes')
          exact (hh.trans ((pairwise_cons.mp ho').1 e he)).ne.symm

lemma map_set_of_eq {α β : Type} {f : α → β} {l : List α} {a b : α} (hi : l[i]? = some b)
    (ha : f a = f b) : (l.set i a).map f = l.map f := by
  refine ext_getElem? fun j => ?_
  rw [getElem?_map,getElem?_set,getElem?_map]
  split_ifs with hij hlt
  · subst hij
    simp [hi,ha]
  · subst hij
    simp [getElem?_eq_none (not_lt.mp hlt)]
  · rfl

lemma Shows.move (h : Shows reverse R m) {it : DBIt}
    (hi : m.iters[m.index]? = some it) (ha : it.ahead = e :: es) :
    Shows reverse (R.set m.index es) (m.move it.next) ∧ (m.move it.next).size = m.size := by
  have hm := it.next_moves (by simp [ha])
  rw [ha,tail_cons] at hm
  have hk : (if it.next.1 then it.next.2.key else none) = es.head?.map Prod.fst := by
    rw [hm.ok,DBIt.key_eq,hm.ahead]
    cases es <;> rfl
  refine ⟨⟨?_,?_,?_,?_,h.err⟩,?_⟩
  · rw [MergedIterator.move,map_set,h.ahead,hm.ahead]
  · intro it' hi'
    rcases mem_or_eq_of_mem_set hi' with hme | rfl
    · exact h.same it' hme
    · rw [hm.reverse]
      exact h.same it (mem_of_getElem? hi)
  · rw [MergedIterator.move,hk,h.keys,map_set]
  · rw [length_set]
    exact h.flag
  · exact congrArg sum (map_set_of_eq hi (by rw [hm.store]))

lemma Shows.advance (h : Shows reverse R m) (hi : R[m.index]? = some (e :: es)) :
    ∃ m', m.advance = m'.pick false ∧ Shows reverse (R.set m.index es) m' ∧ m'.dir = m.dir ∧
      m'.prevKey = m.prevKey ∧ m'.size = m.size := by
  rw [← h.ahead,getElem?_map] at hi
  obtain ⟨it,hit,ha⟩ := Option.map_eq_some_iff.mp hi
  obtain ⟨hs,hsi⟩ := h.move hit ha
  exact ⟨m.move it.next,by rw [MergedIterator.advance,hit],hs,rfl,rfl,hsi⟩

def total (R : List (List (Bytes × Bytes))) : ℕ := (R.map length).sum

lemma total_set (hi : R[i]? = some (e :: es)) : total (R.set i es)+1 = total R := by
  induction R generalizing i with
  | nil => simp at hi
  | cons es0 R ih =>
    cases i with
    | zero =>
      obtain rfl : es0 = e :: es := by simpa using hi
      simp only [total,set_cons_zero,map_cons,sum_cons,length_cons]
      omega
    | succ i =>
      have := ih hi
      simp only [total,set_cons_succ,map_cons,sum_cons] at this ⊢
      omega

lemma nextInternal_of_forward (hd : m.dir = .forward) (he : m.err = none) :
    m.nextInternal = (m.advance.1,false,m.advance.2) := by
  simp [nextInternal,hd,he]

/-- `Next` goes to the least key behind the one it stood on, if there is one. -/
theorem On.nextLoop (h : On reverse R k m) (hp : m.prevKey = some k) (ho : ∀ es ∈ R, Ordered reverse es)
    (hf : total R < f) : ((∀ es ∈ R.map (dropHead k), es = []) ∧ (nextLoop f m).2.valid = false) ∨
      ∃ k', On reverse (R.map (dropHead k)) k' (nextLoop f m).2 ∧ (nextLoop f m).2.prevKey = some k' ∧
        (nextLoop f m).2.size = m.size := by
  induction f generalizing R m with
  | zero => omega
  | succ f ih =>
    obtain ⟨v,es,hi,_⟩ := h.stands
    obtain ⟨m1,ha,h1,hd1,hp1,hs1⟩ := h.advance hi
    have hh : Ordered reverse ((k,v) :: es) := ho _ (mem_of_getElem? hi)
    have ho1 : ∀ es' ∈ R.set m.index es, Ordered reverse es' := by
      intro es' he'
      rcases mem_or_eq_of_mem_set he' with hm | rfl
      · exact ho es' hm
      · exact (pairwise_cons.mp hh).2
    have hdr := map_dropHead_set hh hi
    have ht := total_set hi
    rw [MergedIterator.nextLoop,nextInternal_of_forward h.dir h.err,ha]
    dsimp only
    rcases h1.pick ho1 with ⟨hem,hok,hv⟩ | ⟨k',hok,hon,hp'⟩
    · left
      rw [if_pos hok,← hdr]
      refine ⟨fun es' he' => ?_,hv⟩
      obtain ⟨es0,he0,rfl⟩ := mem_map.mp he'
      rw [hem es0 he0]
      rfl
    · rw [hd1,h.dir,if_neg (by simp),hp1,hp] at hp'
      have hc : (m1.pick false).2.compare (m1.pick false).2.key (m1.pick false).2.prevKey true =
          Bytes.compare k' k := by
        rw [hon.key,hp']
        rfl
      rw [if_neg (by simp [hok]),if_neg (by simp),hc]
      have hs : (m1.pick false).2.size = m.size := by rw [pick_size,hs1]
      by_cases hk : k' = k
      · -- another iterator has the key as well
        subst hk
        rw [if_neg (by simp [Bytes.compare_eq_zero]),← hdr,← hs]
        exact ih hon hp' ho1 (by omega)
      · right
        have hb : before reverse k k' := by
          obtain ⟨v',es',hi',_⟩ := hon.stands
          rcases mem_or_eq_of_mem_set (mem_of_getElem? hi') with hm | heq
          · exact (h.least _ hm (k',v') rfl).resolve_left hk
          · exact (pairwise_cons.mp hh).1 (k',v') (heq ▸ mem_cons_self)
        rw [if_pos (by simpa [Bytes.compare_eq_zero] using hk),← hdr,map_dropHead_of_least hon.least hb]
        exact ⟨k',⟨⟨hon.ahead,hon.same,hon.keys,hon.flag,hon.err⟩,hon.dir,hon.least,hon.stands⟩,hon.key,hs⟩

lemma total_map_dropHead_le (R : List (List (Bytes × Bytes))) (k : Bytes) :
    total (R.map (dropHead k)) ≤ total R := by
  induction R with
  | nil => exact le_rfl
  | cons es R ih =>
    have hl : (dropHead k es).length ≤ es.length := by
      cases es with
      | nil => exact le_rfl
      | cons e es =>
        rw [dropHead]
        split_ifs <;> simp
    simp only [total,map_cons,sum_cons] at ih ⊢
    omega

lemma On.total_lt (h : On reverse R k m) (ho : ∀ es ∈ R, Ordered reverse es) :
    total (R.map (dropHead k)) < total R := by
  obtain ⟨v,es,hi,_⟩ := h.stands
  rw [← map_dropHead_set (ho _ (mem_of_getElem? hi)) hi,← total_set hi]
  exact Nat.lt_succ_of_le (total_map_dropHead_le _ k)

lemma On.faces (h : On reverse R k m) (hp : m.prevKey = some k) (ho : ∀ es ∈ R, Ordered reverse es)
    (hs : total R ≤ m.size) : ∃ es, Merges reverse R es ∧ Faces m es ∧ es.length ≤ total R := by
  induction hn : total R using Nat.strong_induction_on generalizing R k m with
  | _ n ih =>
    have hlt := h.total_lt ho
    rcases h.nextLoop hp ho (Nat.lt_add_one_of_le hs) with ⟨hem,hv⟩ | ⟨k',hon,hp',hs'⟩
    · exact ⟨[(k,m.value)],.cons h.least h.value (.nil hem),⟨h.valid,h.key,rfl,Nat.zero_le _,hv⟩,
        by rw [length_singleton]; omega⟩
    · have ho' : ∀ es ∈ R.map (dropHead k), Ordered reverse es := by
        intro es he
        obtain ⟨es0,he0,rfl⟩ := mem_map.mp he
        exact (ho es0 he0).dropHead k
      obtain ⟨es,hm,hfa,hl⟩ := ih _ (hn ▸ hlt) hon hp' ho' (by omega) rfl
      have hle : es.length ≤ m.size := by omega
      exact ⟨(k,m.value) :: es,.cons h.least h.value hm,⟨h.valid,h.key,rfl,hle,hfa⟩,by rw [length_cons]; omega⟩

/-- Where every iterator has moved, the merged one shows what is then ahead. -/
lemma shows_of_moves {α : Type} {l : List α} {f : α → DBIt} {es : α → List (Bytes × Bytes)} {r : α → Bool × DBIt}
    (hm : ∀ a ∈ l, (f a).Moves (es a) (r a)) (hsa : ∀ a ∈ l, (f a).reverse = reverse)
    (hi : m.iters = (l.map r).map Prod.snd) (hk : m.keys = (l.map r).map fun r => if r.1 then r.2.key else none)
    (hf : m.reverse = reverse ∨ l.length ≤ 1) (he : m.err = none) : Shows reverse (l.map es) m := by
  refine ⟨?_,?_,?_,hf.imp_right fun hl => by simpa using hl,he⟩
  · rw [hi,map_map,map_map]
    exact map_congr_left fun a ha => (hm a ha).ahead
  · intro it hit
    rw [hi,map_map] at hit
    obtain ⟨a,ha,rfl⟩ := mem_map.mp hit
    exact (hm a ha).reverse.trans (hsa a ha)
  · rw [hk,map_map,map_map]
    refine map_congr_left fun a ha => ?_
    simp only [Function.comp_apply]
    rw [(hm a ha).ok,DBIt.key_eq,(hm a ha).ahead]
    cases es a <;> rfl

lemma rewind_faces (hsa : ∀ it ∈ m.iters, it.reverse = reverse)
    (hf : m.reverse = reverse ∨ m.iters.length ≤ 1) (he : m.err = none) (hd : m.dir ≠ .released) :
    ∃ es, Merges reverse (m.iters.map DBIt.walk) es ∧ Faces m.rewind.2 es ∧ es.length ≤ m.size := by
  have hm : ∀ it ∈ m.iters, it.Moves it.walk it.rewind := fun it _ => it.rewind_moves
  have hs : Shows reverse (m.iters.map DBIt.walk) (m.moveAll (m.iters.map DBIt.rewind)) :=
    shows_of_moves hm hsa rfl rfl hf he
  have hsi : (m.moveAll (m.iters.map DBIt.rewind)).size = m.size := by
    simp only [size,moveAll,map_map]
    refine congrArg sum (map_congr_left fun it hi => ?_)
    simp only [Function.comp_apply]
    rw [(hm it hi).store]
  have ht : total (m.iters.map DBIt.walk) = m.size := by
    simp only [total,size,map_map]
    refine congrArg sum (map_congr_left fun it _ => ?_)
    simp only [Function.comp_apply,DBIt.walk]
    split_ifs <;> simp
  have ho : ∀ es ∈ m.iters.map DBIt.walk, Ordered reverse es := by
    intro es hes
    obtain ⟨it,hi,rfl⟩ := mem_map.mp hes
    exact hsa it hi ▸ it.ordered_walk
  have hr : m.rewind = (m.moveAll (m.iters.map DBIt.rewind)).pick false := by simp [rewind,he,hd]
  rw [hr]
  rcases hs.pick ho with ⟨hem,_,hv⟩ | ⟨k,_,hon,hp⟩
  · exact ⟨[],.nil hem,hv,Nat.zero_le _⟩
  · have hso : (m.moveAll (m.iters.map DBIt.rewind)).dir = .soi := rfl
    rw [if_pos hso] at hp
    exact ht ▸ hon.faces hp ho (by rw [pick_size,hsi,ht])

end MergedIterator

lemma DBIt.valueAt_walk (it : DBIt) (k : Bytes) : valueAt it.walk k = it.raw.store.get k := by
  apply Option.ext
  intro v
  rw [it.ordered_walk.valueAt_eq_some,get_eq_some,DBIt.walk]
  split_ifs <;> simp

section
variable {r : Bool} {its : List DBIt} (hsa : ∀ it ∈ its, it.reverse = r)
include hsa

lemma mergedReverse_eq : mergedReverse its = r ∨ its.length ≤ 1 := by
  match its with
  | [] => exact .inr (by simp)
  | [it] => exact .inr (by simp)
  | first :: second :: rest => exact .inl (hsa first mem_cons_self)

lemma newMergedIterator_eq : newMergedIterator its = some (.new its) := by
  refine if_pos ?_
  rcases mergedReverse_eq hsa with he | hl
  · exact .inr fun it hi => (hsa it hi).trans he.symm
  · exact .inl (Nat.lt_succ_of_le hl)

lemma MergedIterator.merges_spec {out : List (Bytes × Bytes)} (h : Merges r (its.map DBIt.walk) out) :
    Ordered r out ∧ ∀ k v, (k,v) ∈ out ↔ its.findSome? (fun it => it.raw.store.get k) = some v := by
  have ho : ∀ es ∈ its.map DBIt.walk, Ordered r es := by
    intro es he
    obtain ⟨it,hi,rfl⟩ := mem_map.mp he
    exact hsa it hi ▸ it.ordered_walk
  obtain ⟨hou,hme⟩ := h.spec ho
  refine ⟨hou,fun k v => ?_⟩
  rw [hme,firstValue,findSome?_map]
  simp only [Function.comp_def,DBIt.valueAt_walk]

lemma MergedIterator.drain_new :
    ∃ out, (∀ f > (MergedIterator.new its).size, drain f (MergedIterator.new its).rewind.2 = out) ∧
      Ordered r out ∧ ∀ k v, (k,v) ∈ out ↔ its.findSome? (fun it => it.raw.store.get k) = some v := by
  obtain ⟨out,hm,hfa,hl⟩ := rewind_faces (m := .new its) hsa (mergedReverse_eq hsa) rfl (by simp [MergedIterator.new])
  exact ⟨out,fun f hf => hfa.drain_eq (hl.trans hf.le),merges_spec hsa hm⟩

end

/-! ### Seek downwards -/

/-- The entries below a key, downwards. -/
def DBIt.low (k : Bytes) (it : DBIt) : List (Bytes × Bytes) := (it.raw.store.entries.filter (·.1 < k)).reverse

/-- The step of `reseek`. -/
lemma DBIt.low_moves (it : DBIt) (hr : it.reverse = true) (k : Bytes) :
    it.Moves (it.low k) (if (it.seek k).1 then (it.seek k).2.next else (it.seek k).2.rewind) := by
  rcases it.seek_cases hr k with ⟨hf,hok,-,-⟩ | ⟨e,-,hok,ha⟩
  · have hl : it.low k = (it.seek k).2.walk := by
      have hw : (it.seek k).2.walk = it.raw.store.entries.reverse := if_pos hr
      rw [hw,low,filter_eq_self.mpr]
      simpa using hf
    rw [hok,if_neg (by simp),hl]
    have hm := (it.seek k).2.rewind_moves
    exact ⟨hm.ok,hm.ahead,hm.reverse,hm.store⟩
  · have hm := (it.seek k).2.next_moves (by simp [ha])
    rw [ha,tail_cons] at hm
    rw [hok,if_pos rfl]
    exact ⟨hm.ok,hm.ahead,hm.reverse,hm.store⟩

namespace MergedIterator
variable {m : MergedIterator} {k : Bytes} {its : List DBIt}

lemma scan_true (keys : List (Option Bytes)) (x : ℕ) (best : Option (Bytes × ℕ)) :
    m.scan true keys x best = {m with reverse := false}.scan false keys x best := by
  induction keys generalizing x best with
  | nil => rfl
  | cons key keys ih =>
    cases key with
    | none => exact ih _ _
    | some t =>
      cases best with
      | none => exact ih _ _
      | some b => simp [scan,ih,compare]

lemma reseek_shows {it : DBIt} {v : Bytes} (hsa : ∀ it ∈ m.iters, it.reverse = true) (hr : m.reverse = true)
    (he : m.err = none) (hi : m.iters[m.index]? = some it) (hk : m.keys[m.index]? = some (some k))
    (ha : it.ahead = (k,v) :: it.low k) :
    Shows true ((m.iters.map (DBIt.low k)).set m.index ((k,v) :: it.low k)) m.reseek := by
  -- where every iterator stands
  have hm : ∀ p ∈ m.iters.zipIdx, p.1.Moves (if p.2 = m.index then (k,v) :: it.low k else p.1.low k)
      (if p.2 = m.index then (true,p.1) else if (p.1.seek k).1 then (p.1.seek k).2.next else (p.1.seek k).2.rewind) := by
    intro p hp
    have hip := mem_zipIdx_iff_getElem?.mp hp
    split_ifs with hx
    · obtain rfl : p.1 = it := Option.some.inj (hip.symm.trans (hx ▸ hi))
      exact ⟨rfl,ha,rfl,rfl⟩
    all_goals
      have hl := p.1.low_moves (hsa _ (mem_of_getElem? hip)) k
      simp_all
  have hset : (m.iters.map (DBIt.low k)).set m.index ((k,v) :: it.low k) =
      m.iters.zipIdx.map fun p => if p.2 = m.index then (k,v) :: it.low k else p.1.low k := by
    refine ext_getElem? fun j => ?_
    rw [getElem?_set,getElem?_map,getElem?_map,getElem?_zipIdx,length_map]
    by_cases hj : m.index = j
    · subst hj
      rw [if_pos rfl,if_pos (List.getElem?_eq_some_iff.mp hi).1,hi]
      simp
    · rw [if_neg hj]
      cases m.iters[j]? <;> simp [Ne.symm hj]
  rw [hset]
  exact shows_of_moves hm (fun p hp => hsa _ (mem_of_getElem? (mem_zipIdx_iff_getElem?.mp hp)))
    (by rw [reseek,hk]; rfl) (by rw [reseek,hk]; rfl) (.inl hr) he

lemma reseek_size (hsa : ∀ it ∈ m.iters, it.reverse = true) : m.reseek.size = m.size := by
  simp only [size,reseek,map_map]
  refine congrArg sum (ext_getElem? fun j => ?_)
  rw [getElem?_map,getElem?_map,getElem?_zipIdx]
  cases hj : m.iters[j]? with
  | none => rfl
  | some it =>
    have hm := (it.low_moves (hsa it (mem_of_getElem? hj)) (((m.keys[m.index]?).getD none).getD [])).store
    simp only [Option.map_some,Function.comp_apply,Nat.zero_add]
    split_ifs at hm ⊢ <;> simp_all

/-- What the iterators hold together, in the order of the keys. -/
structure Holding (its : List DBIt) (R : List (Bytes × Bytes)) : Prop where
  sorted : R.Pairwise fun a b => a.1 < b.1
  mem : ∀ k v, (k,v) ∈ R ↔ its.findSome? (fun it => it.raw.store.get k) = some v

variable {R : List (Bytes × Bytes)}

lemma Holding.low_eq (h : Holding its R) (k : Bytes) {es : List (Bytes × Bytes)}
    (hm : Merges true (its.map (DBIt.low k)) es) : es = (R.filter (·.1 < k)).reverse := by
  have hp : ∀ it : DBIt, Ordered true (it.low k) := fun it => pairwise_reverse.mpr (it.raw.store.sorted.filter _)
  obtain ⟨ho,hme⟩ := hm.spec fun es he => by
    obtain ⟨it,-,rfl⟩ := mem_map.mp he
    exact hp it
  refine ho.eq_of_mem (pairwise_reverse.mpr (h.sorted.filter _)) fun e => ?_
  have hv : ∀ it : DBIt, valueAt (it.low k) e.1 = if e.1 < k then it.raw.store.get e.1 else none := by
    intro it
    refine Option.ext fun v => ?_
    rw [(hp it).valueAt_eq_some,DBIt.low,mem_reverse,mem_filter,decide_eq_true_eq]
    split_ifs with hlt
    · rw [get_eq_some]
      exact and_iff_left hlt
    · simpa using fun _ => not_lt.mp hlt
  rw [hme,firstValue,findSome?_map,mem_reverse,mem_filter,decide_eq_true_eq,h.mem]
  simp only [Function.comp_def,hv]
  split_ifs with hlt
  · exact (and_iff_left hlt).symm
  · rw [findSome?_eq_none_iff.mpr fun _ _ => rfl]
    simp [hlt]

lemma next_of_soi (hd : m.dir = .soi) (he : m.err = none) : m.next.2 = m.rewind.2 := by
  have hn : m.nextInternal = (m.rewind.1,true,m.rewind.2) := by simp [nextInternal,hd,he]
  rw [next,nextLoop,hn]
  cases m.rewind.1 <;> rfl

/-- `Next` after `Seek` goes to the greatest of the keys below. -/
lemma next_of_seek (hsa : ∀ it ∈ m.iters, it.reverse = true) (hr : m.reverse = true) (hd : m.dir = .seek)
    (he : m.err = none)
    {it : DBIt} {v : Bytes} (hi : m.iters[m.index]? = some it) (hk : m.keys[m.index]? = some (some k))
    (hp : m.prevKey = some k) (ha : it.ahead = (k,v) :: it.low k) :
    ∃ es, Merges true (m.iters.map (DBIt.low k)) es ∧ Faces m.next.2 es ∧ es.length ≤ m.size := by
  obtain ⟨hlt,hget⟩ := List.getElem?_eq_some_iff.mp hi
  obtain ⟨m',hadv,hsh,hd',hp',hsi⟩ := (reseek_shows hsa hr he hi hk ha).advance
    (getElem?_set_self (by simpa using hlt) : _ = some ((k,v) :: it.low k))
  have hset : ((m.iters.map (DBIt.low k)).set m.index ((k,v) :: it.low k)).set m.reseek.index (it.low k) =
      m.iters.map (DBIt.low k) := by
    rw [show m.reseek.index = m.index from rfl,set_set,← hget,← getElem_map (DBIt.low k) (h := by simpa using hlt)]
    exact set_getElem_self _
  rw [hset] at hsh
  have hn : m.nextInternal = ((m'.pick false).1,false,(m'.pick false).2) := by simp [nextInternal,hd,he,hr,hadv]
  have hor : ∀ es ∈ m.iters.map (DBIt.low k), Ordered true es := fun es hes => by
    obtain ⟨it,-,rfl⟩ := mem_map.mp hes
    exact pairwise_reverse.mpr (it.raw.store.sorted.filter _)
  have ht : total (m.iters.map (DBIt.low k)) ≤ m.size := by
    simp only [total,size,map_map]
    refine sum_le_sum fun it _ => ?_
    simpa [DBIt.low] using length_filter_le _ it.raw.store.entries
  rw [next,nextLoop,hn]
  dsimp only
  rcases hsh.pick hor with ⟨hem,hok,hv⟩ | ⟨k',hok,hon,hpk⟩
  · rw [if_pos hok]
    exact ⟨[],.nil hem,hv,Nat.zero_le _⟩
  · rw [hd',show m.reseek.dir = m.dir from rfl,hd,if_neg (by simp),hp',show m.reseek.prevKey = m.prevKey from rfl,hp] at hpk
    have hlt' : k' < k := by
      obtain ⟨v',es',hi',-⟩ := hon.stands
      obtain ⟨it',-,hl⟩ := mem_map.mp (mem_of_getElem? hi')
      have hm : (k',v') ∈ it'.low k := hl ▸ mem_cons_self
      simpa [DBIt.low] using (mem_filter.mp (mem_reverse.mp hm)).2
    have hc : (m'.pick false).2.compare (m'.pick false).2.key (m'.pick false).2.prevKey true ≠ 0 := by
      rw [hon.key,hpk]
      exact fun h0 => hlt'.ne (Bytes.compare_eq_zero.mp h0)
    rw [if_neg (by simp [hok]),if_neg (by simp),if_pos hc]
    have hsz : (m'.pick false).2.size = m.size := by rw [pick_size,hsi,reseek_size hsa]
    obtain ⟨es,hme,hfa,hl⟩ := On.faces (m := {(m'.pick false).2 with prevKey := (m'.pick false).2.key})
      ⟨⟨hon.ahead,hon.same,hon.keys,hon.flag,hon.err⟩,hon.dir,hon.least,hon.stands⟩ hon.key hor (ht.trans hsz.ge)
    exact ⟨es,hme,hfa,hl.trans ht⟩

end MergedIterator

lemma exists_first {R : List (Bytes × Bytes)} (hs : R.Pairwise fun a b => a.1 < b.1) {e : Bytes × Bytes} (he : e ∈ R)
    {key : Bytes} (hle : key ≤ e.1) : ∃ t, R.find? (key ≤ ·.1) = some t ∧ t ∈ R ∧ t.1 ≤ e.1 := by
  have hex : ∃ e ∈ R, decide (key ≤ e.1) = true := ⟨e,he,decide_eq_true hle⟩
  obtain ⟨t,ht⟩ := Option.isSome_iff_exists.mp (find?_isSome.mpr hex)
  refine ⟨t,ht,mem_of_find?_eq_some ht,?_⟩
  obtain ⟨-,as,bs,rfl,has⟩ := find?_eq_some_iff_append.mp ht
  rcases mem_append.mp he with he | he
  · exact absurd hle (by simpa using has e he)
  · rcases mem_cons.mp he with rfl | he
    · exact le_rfl
    · exact ((pairwise_cons.mp (pairwise_append.mp hs).2.1).1 e he).le

/-- From the first key of all from `key` on, the entries below are those below `key`. -/
lemma filter_lt_eq {R : List (Bytes × Bytes)} {k key : Bytes} (hk : key ≤ k) (h : ∀ e ∈ R, key ≤ e.1 → k ≤ e.1) :
    R.filter (·.1 < k) = R.filter (·.1 < key) :=
  filter_congr fun e he => decide_eq_decide.mpr
    ⟨fun hlt => not_le.mp fun hle => (h e he hle).not_gt hlt,fun hlt => hlt.trans_le hk⟩

namespace MergedIterator
variable {its : List DBIt} {R : List (Bytes × Bytes)} {key k : Bytes} {i : ℕ}

/-- Every iterator is at its first key from `key` on. -/
def sought (its : List DBIt) (key : Bytes) : MergedIterator :=
  (MergedIterator.new its).moveAll (its.map (DBIt.seek · key))

lemma iters_sought (its : List DBIt) (key : Bytes) : (sought its key).iters = its.map fun it => (it.seek key).2 := by
  simp [sought,moveAll,Function.comp_def]

lemma seek_new (its : List DBIt) (key : Bytes) : Iter.seek (MergedIterator.new its) key =
    match (sought its key).scan true (sought its key).keys 0 none with
    | none => (false,{sought its key with dir := .soi})
    | some (k,i) => (true,{sought its key with index := i, prevKey := some k, dir := .seek}) := by
  have hp : Iter.seek (MergedIterator.new its) key = (((sought its key).pick true).1,
      {((sought its key).pick true).2 with dir := if ((sought its key).pick true).1 then .seek else .soi}) := rfl
  have hd : (sought its key).dir = .soi := rfl
  rw [hp]
  unfold pick
  cases (sought its key).scan true (sought its key).keys 0 none <;> simp [hd]

lemma best_sought (its : List DBIt) (key : Bytes) :
    Best false (sought its key).keys ((sought its key).scan true (sought its key).keys 0 none) := by
  rw [scan_true]
  exact @scan_best {sought its key with reverse := false} false (sought its key).keys [] none (.inl rfl) (by simp [Best])

section
variable (hsa : ∀ it ∈ its, it.reverse = true)
include hsa

lemma reverse_sought (key : Bytes) : (sought its key).reverse = true := by
  match its,hsa with
  | [],_ => rfl
  | [_],_ => rfl
  | first :: _ :: _,hsa => exact hsa first mem_cons_self

lemma same_sought (key : Bytes) : ∀ it ∈ (sought its key).iters, it.reverse = true := by
  intro it hi
  rw [iters_sought] at hi
  obtain ⟨it0,hi0,rfl⟩ := mem_map.mp hi
  exact hsa it0 hi0

lemma keys_sought (key : Bytes) :
    (sought its key).keys = its.map fun it => (it.raw.store.entries.find? (key ≤ ·.1)).map Prod.fst := by
  simp only [sought,moveAll,map_map]
  refine map_congr_left fun it hi => ?_
  simp only [Function.comp_apply]
  rcases it.seek_cases (hsa it hi) key with ⟨hf,hok,-,-⟩ | ⟨e,hf,hok,ha⟩
  · rw [hf,hok]
    rfl
  · rw [hf,hok,if_pos rfl,DBIt.key_eq,ha]
    rfl

lemma exists_key_le {it : DBIt} (hi : it ∈ its) {e : Bytes × Bytes} (he : e ∈ it.raw.store.entries) (hle : key ≤ e.1) :
    ∃ t, some t ∈ (sought its key).keys ∧ t ≤ e.1 := by
  obtain ⟨t,ht,-,hte⟩ := exists_first it.raw.store.sorted he hle
  exact ⟨t.1,keys_sought hsa key ▸ mem_map.mpr ⟨it,hi,by rw [ht]; rfl⟩,hte⟩

lemma Holding.exists_key_le (h : Holding its R) {e : Bytes × Bytes} (he : e ∈ R) (hle : key ≤ e.1) :
    ∃ t, some t ∈ (sought its key).keys ∧ t ≤ e.1 := by
  obtain ⟨it,hi,hg⟩ := exists_of_findSome?_eq_some ((h.mem e.1 e.2).mp he)
  exact MergedIterator.exists_key_le hsa hi ((get_eq_some ..).mp hg) hle

/-- No iterator has a key from `key` on, and the next step starts from the end. -/
lemma Holding.seek_none (h : Holding its R) (hn : ∀ t, some t ∉ (sought its key).keys) :
    SeeksDown R key (false,{sought its key with dir := .soi}) := by
  refine .inl ⟨find?_eq_none.mpr fun e he hle => ?_,rfl,by simp [Faces,Iter.valid,valid],?_⟩
  · exact (h.exists_key_le hsa he (by simpa using hle)).elim fun t ht => hn t ht.1
  obtain ⟨es,hme,hfa,-⟩ := @rewind_faces {sought its key with dir := .soi} true (same_sought hsa key)
    (.inl (reverse_sought hsa key)) rfl (by simp)
  have hw : (sought its key).iters.map DBIt.walk = its.map (DBIt.low key) := by
    rw [iters_sought,map_map]
    refine map_congr_left fun it hi => ?_
    rw [Function.comp_apply,DBIt.low,filter_eq_self.mpr]
    · exact if_pos (hsa it hi)
    · exact fun e he => decide_eq_true (not_le.mp fun hle =>
        (MergedIterator.exists_key_le hsa hi he hle).elim fun t ht => hn t ht.1)
  rw [← h.low_eq key (hw ▸ hme)]
  exact (@next_of_soi {sought its key with dir := .soi} rfl rfl).symm ▸ hfa

/-- The least of the keys is the first one from `key` on of all, with the value of the first iterator that has it. -/
lemma Holding.find?_eq (h : Holding its R) (hb : Best false (sought its key).keys (some (k,i))) :
    ∃ it v, its[i]? = some it ∧ it.raw.store.entries.find? (key ≤ ·.1) = some (k,v) ∧ R.find? (key ≤ ·.1) = some (k,v) := by
  obtain ⟨hi,hleast,hfirst⟩ := hb
  rw [keys_sought hsa,getElem?_map] at hi
  obtain ⟨it,hit,hfk⟩ := Option.map_eq_some_iff.mp hi
  obtain ⟨⟨k',v⟩,hf,hkk⟩ := Option.map_eq_some_iff.mp hfk
  obtain rfl : k' = k := hkk
  have hkey : key ≤ k' := by simpa using find?_some hf
  -- no iterator before this one has the key
  have hmR : (k',v) ∈ R := by
    rw [h.mem,findSome?_eq_some_iff]
    refine ⟨its.take i,it,its.drop (i+1),?_,(get_eq_some ..).mpr (mem_of_find?_eq_some hf),fun it' hi' => ?_⟩
    · obtain ⟨hlt,rfl⟩ := List.getElem?_eq_some_iff.mp hit
      rw [getElem_cons_drop,take_append_drop]
    · obtain ⟨j,hj,rfl⟩ := mem_take_iff_getElem.mp hi'
      obtain ⟨hji,hjl⟩ := lt_min_iff.mp hj
      refine Option.eq_none_iff_forall_not_mem.mpr fun v' hv' => ?_
      obtain ⟨t,ht,-,hte⟩ := exists_first its[j].raw.store.sorted ((get_eq_some ..).mp hv') hkey
      have hlt : k' < t.1 := hfirst j hji t.1
        (by rw [keys_sought hsa,getElem?_map,getElem?_eq_getElem hjl,Option.map_some,ht]; rfl)
      exact hlt.not_ge hte
  obtain ⟨t,ht,hmt,hte⟩ := exists_first h.sorted hmR hkey
  obtain ⟨u,hu,hut⟩ := h.exists_key_le hsa hmt (by simpa using find?_some ht)
  have hku : k' ≤ u := (hleast u hu).elim Eq.ge fun hlt => (hlt : k' < u).le
  have hkt : t.1 = k' := le_antisymm hte (hku.trans hut)
  have hv : some t.2 = some v := by rw [← (h.mem t.1 t.2).mp hmt,hkt,(h.mem k' v).mp hmR]
  exact ⟨it,v,hit,hf,ht.trans (congrArg some (Prod.ext hkt (Option.some.inj hv)))⟩

/-- The iterator stands on the least of the keys, and the next step goes below `key`. -/
lemma Holding.seek_some (h : Holding its R) (hb : Best false (sought its key).keys (some (k,i))) :
    SeeksDown R key (true,{sought its key with index := i, prevKey := some k, dir := .seek}) := by
  obtain ⟨it,v,hit,hf,hfR⟩ := h.find?_eq hsa hb
  obtain ⟨hki,hleast,-⟩ := hb
  have hkey : key ≤ k := by simpa using find?_some hf
  have hle : ∀ e : Bytes × Bytes, (∃ t, some t ∈ (sought its key).keys ∧ t ≤ e.1) → k ≤ e.1 := by
    rintro e ⟨t,ht,hte⟩
    exact ((hleast t ht).elim Eq.ge fun hlt => (hlt : k < t).le).trans hte
  have hsi : (sought its key).iters[i]? = some (it.seek key).2 := by rw [iters_sought,getElem?_map,hit]; rfl
  have ha : (it.seek key).2.ahead = (k,v) :: (it.seek key).2.low k := by
    rcases it.seek_cases (hsa it (mem_of_getElem? hit)) key with ⟨hn,-⟩ | ⟨e,he,-,ha⟩
    · rw [hf] at hn
      cases hn
    · rw [ha,Option.some.inj (he.symm.trans hf),← filter_lt_eq hkey fun e he hge =>
        hle e (MergedIterator.exists_key_le hsa (mem_of_getElem? hit) he hge)]
      rfl
  obtain ⟨m,hm⟩ : ∃ m, m = {sought its key with index := i, prevKey := some k, dir := .seek} := ⟨_,rfl⟩
  obtain ⟨es,hme,hfa,hl⟩ := @next_of_seek m k (hm ▸ same_sought hsa key) (hm ▸ reverse_sought hsa key) (hm ▸ rfl)
    (hm ▸ rfl) (it.seek key).2 v (hm ▸ hsi) (hm ▸ hki) (hm ▸ rfl) ha
  have hes : es = (R.filter (·.1 < key)).reverse := by
    rw [← filter_lt_eq hkey fun e he hge => hle e (h.exists_key_le hsa he hge)]
    refine h.low_eq k ?_
    rwa [hm,iters_sought,map_map] at hme
  have hv : m.valid = true := by
    rw [hm]
    rfl
  rw [← hm]
  refine .inr ⟨(k,v),hfR,rfl,hv,?_,?_,hes ▸ hl,hes ▸ hfa⟩
  · show m.key = _
    rw [MergedIterator.key,if_pos hv,hm,hki]
    rfl
  · show m.value = _
    rw [MergedIterator.value,if_pos hv,hm,hsi,Option.map_some,DBIt.value_eq,ha]
    rfl

/-- `Seek` of the merged iterator does what it does over the entries of all iterators together. -/
theorem Holding.seek_reverse (h : Holding its R) (key : Bytes) :
    SeeksDown R key (Iter.seek (MergedIterator.new its) key) := by
  have hb := best_sought its key
  rw [seek_new]
  cases hs : (sought its key).scan true (sought its key).keys 0 none <;> rw [hs] at hb
  case none => exact h.seek_none hsa hb
  case some b => exact h.seek_some hsa hb

end

end MergedIterator

/-- The merged iterator gives every key of its iterators once, in the order of the walk,
with the value of the first iterator that has the key. -/
theorem mergedIterator_union (reverse : Bool) (iters : List DBIt) (hsa : ∀ it ∈ iters, it.reverse = reverse) :
    ∃ m out, newMergedIterator iters = some m ∧ (∀ fuel > m.size, drain fuel m.rewind.2 = out) ∧
      out.Pairwise (fun a b => if reverse then b.1 < a.1 else a.1 < b.1) ∧
      ∀ k v, (k,v) ∈ out ↔ iters.findSome? (fun it => it.raw.store.get k) = some v := by
  obtain ⟨out,hd,ho,hm⟩ := MergedIterator.drain_new hsa
  exact ⟨_,out,newMergedIterator_eq hsa,hd,ho,hm⟩

/-- Two iterators downwards that share a key. -/
theorem mergedIterator_union_two :
    ∃ m out, newMergedIterator [iterator (empty.set [1] [7]) [] none true,
        iterator ((empty.set [1] [8]).set [2] [9]) [] none true] = some m ∧
      (∀ fuel > m.size, drain fuel m.rewind.2 = out) ∧
      out.Pairwise (fun a b => if true then b.1 < a.1 else a.1 < b.1) ∧
      ∀ k v, (k,v) ∈ out ↔ [iterator (empty.set [1] [7]) [] none true,
        iterator ((empty.set [1] [8]).set [2] [9]) [] none true].findSome?
          (fun it => it.raw.store.get k) = some v :=
  mergedIterator_union true _ (by simp [iterator])

end Dpos.DB
