import Dpos.Word
import Mathlib.Algebra.Order.BigOperators.Group.List

/-! The cache of `common/utils/blockcache.go`, which is limited in the number of its entries and in the sum of their
sizes. -/
namespace Dpos.SpaceLimitCache
open List Function
open Word (wrap InRange)

variable {K V : Type} [DecidableEq K]

/-- `SpaceLimitCache`; the lru cache is the list of its entries, the oldest first. -/
structure Cache (K V : Type) where
  capacity : ℤ
  maxSize : ℤ
  currSize : ℤ
  sizeMap : K → Option ℤ
  data : List (K × V)

/-- `NewSpaceLimitCache`, which panics if the lru cache has no room. -/
def new (num maxByteSize : ℤ) : Option (Cache K V) :=
  if 0 < num then some ⟨num,maxByteSize,0,fun _ => none,[]⟩ else none

inductive Op (K V : Type)
  | add (key : K) (val : V) (size : ℤ)
  | remove (key : K)

/-- The size is not negative. -/
def Op.Nonneg : Op K V → Prop
  | .add _ _ size => 0 ≤ size
  | .remove _ => True

namespace Cache
variable (c : Cache K V)

/-- The size of an entry goes with the entry. -/
def release (key : K) : Cache K V :=
  {c with currSize := wrap 64 (c.currSize-(c.sizeMap key).getD 0), sizeMap := update c.sizeMap key none}

def drop (key : K) : Cache K V :=
  if key ∈ c.data.map Prod.fst then {c with data := c.data.filter (·.1 ≠ key)}.release key else c

/-- The loop of `Add` over the entries from the oldest on. -/
def evict : List (K × V) → Cache K V → Cache K V
  | [],c => {c with data := []}
  | entry :: rest,c =>
    if c.maxSize < c.currSize ∨ c.capacity ≤ (entry :: rest).length then evict rest (c.release entry.1)
    else {c with data := entry :: rest}

/-- `Add` of the lru cache. -/
def lruAdd (key : K) (val : V) : List (K × V) :=
  let data := c.data.filter (·.1 ≠ key) ++ [(key,val)]
  if c.capacity < data.length then data.tail else data

def put (key : K) (val : V) (size : ℤ) : Bool × Cache K V :=
  if c.maxSize < size then (false,c)
  else
    let c := evict c.data {c with currSize := wrap 64 (c.currSize+size)}
    (true,{c with data := c.lruAdd key val, sizeMap := update c.sizeMap key (some size)})

/-- `Add`, first of all without what the key has. -/
def add (key : K) (val : V) (size : ℤ) : Bool × Cache K V := (c.drop key).put key val size

def remove (key : K) : Option V × Cache K V := ((c.data.find? (·.1 = key)).map Prod.snd,c.drop key)

def step : Op K V → Cache K V
  | .add key val size => (c.add key val size).2
  | .remove key => (c.remove key).2

def run (ops : List (Op K V)) : Cache K V := ops.foldl step c

end Cache

def keys (data : List (K × V)) : List K := data.map Prod.fst

/-- The size with which each key was last added. -/
def sizes (ops : List (Op K V)) : K → ℤ :=
  ops.foldl (fun sz op => match op with | .add key _ size => update sz key size | .remove _ => sz) fun _ => 0

def total (sz : K → ℤ) (data : List (K × V)) : ℤ := ((keys data).map sz).sum

/-- The map has the sizes of the entries, and no others. -/
def Lists (sz : K → ℤ) (sizeMap : K → Option ℤ) (data : List (K × V)) : Prop :=
  ∀ key, sizeMap key = if key ∈ keys data then some (sz key) else none

structure Consistent (sz : K → ℤ) (c : Cache K V) : Prop where
  sizes : Lists sz c.sizeMap c.data
  sum : c.currSize = total sz c.data
  limit : c.currSize ≤ c.maxSize
  count : c.data.length ≤ c.capacity

/-- The books agree, and will after an addition. -/
structure Inv (sz : K → ℤ) (c : Cache K V) : Prop extends Consistent sz c where
  nodup : (keys c.data).Nodup
  nonneg : ∀ key, 0 ≤ sz key
  room : 0 < c.capacity
  range : InRange 64 c.maxSize
  small : c.capacity = 1 ∨ c.maxSize < 2^62

section
variable {sz : K → ℤ} {c : Cache K V} {data rest : List (K × V)} {key : K} {val : V} {size : ℤ}

omit [DecidableEq K] in
lemma total_nonneg (h : ∀ key, 0 ≤ sz key) (data : List (K × V)) : 0 ≤ total sz data :=
  sum_nonneg (forall_mem_map.mpr fun k _ => h k)

/-- An entry goes with its size. -/
theorem Lists.erase {m : K → Option ℤ} (h : Lists sz m data) (hn : (keys data).Nodup) (hk : key ∈ keys data)
    (hr : keys rest = (keys data).erase key) :
    m key = some (sz key) ∧ Lists sz (update m key none) rest ∧ total sz data = sz key+total sz rest := by
  refine ⟨by rw [h,if_pos hk],fun k => ?_,?_⟩
  · simp only [hr,hn.mem_erase_iff,update_apply,h k]
    grind
  · rw [total,total,hr,sum_map_erase sz hk]

/-- The loop drops old entries until there is room, or none is left. -/
theorem evict_spec (hs : Lists sz c.sizeMap data) (hn : (keys data).Nodup)
    (hc : c.currSize = wrap 64 (total sz data+size)) : ∃ rest sizeMap, rest <:+ data ∧ Lists sz sizeMap rest ∧
      Cache.evict data c = ⟨c.capacity,c.maxSize,wrap 64 (total sz rest+size),sizeMap,rest⟩ ∧
      (rest = [] ∨ wrap 64 (total sz rest+size) ≤ c.maxSize ∧ rest.length < c.capacity) := by
  induction data generalizing c with
  | nil => exact ⟨[],c.sizeMap,suffix_rfl,hs,by simp [Cache.evict,← hc],.inl rfl⟩
  | cons e data ih =>
    rw [Cache.evict]
    split_ifs with hf
    · obtain ⟨hm,hl,ht⟩ := hs.erase hn (by simp [keys] : e.1 ∈ _) (by simp [keys] : keys data = _)
      obtain ⟨rest,m,hr,h⟩ := ih (c := c.release e.1) hl (nodup_cons.mp hn).2 (by
        simp only [Cache.release,hm,Option.getD_some,hc,Word.wrap_wrap_sub,ht]
        congr 1
        omega)
      exact ⟨rest,m,hr.trans (suffix_cons _ _),h⟩
    · refine ⟨e :: data,c.sizeMap,suffix_rfl,hs,by rw [← hc],.inr ?_⟩
      rw [← hc]
      simpa using hf

lemma Inv.drop (h : Inv sz c) (key : K) : Inv sz (c.drop key) ∧ key ∉ keys (c.drop key).data := by
  rw [Cache.drop,← keys]
  split_ifs with hk
  · have hf : keys (c.data.filter (·.1 ≠ key)) = (keys c.data).erase key := by
      rw [h.nodup.erase_eq_filter,keys,keys,filter_map]
      congr 2
      grind
    obtain ⟨hs,hl,ht⟩ := h.sizes.erase h.nodup hk hf
    have hz := h.nonneg key
    have h0 := total_nonneg h.nonneg (c.data.filter (·.1 ≠ key))
    have he : c.currSize-sz key = total sz (c.data.filter (·.1 ≠ key)) := by
      rw [h.sum,ht]
      omega
    have hlim := h.limit
    obtain ⟨hlo,hhi⟩ := h.range
    have hw : wrap 64 (c.currSize-sz key) = c.currSize-sz key := Word.wrap_eq_self ⟨by omega,by omega⟩
    simp only [Cache.release,hs,Option.getD_some,hw]
    refine ⟨⟨⟨hl,he,?_,?_⟩,hf ▸ h.nodup.erase _,h.nonneg,h.room,h.range,h.small⟩,?_⟩
    · exact le_trans (by dsimp only; omega) hlim
    · exact le_trans (mod_cast length_filter_le _ _) h.count
    · rw [hf]
      exact h.nodup.not_mem_erase
  · exact ⟨h,hk⟩

lemma Inv.regard (h : Inv sz c) (hk : key ∉ keys c.data) (hz : 0 ≤ size) : Inv (update sz key size) c := by
  have hu : ∀ k ∈ keys c.data, update sz key size k = sz k := fun k hm => update_of_ne (by grind) _ _
  refine {h with sizes := fun k => ?_, sum := ?_, nonneg := fun k => ?_}
  · rw [h.sizes]
    grind
  · rw [h.sum,total,total,map_congr_left hu]
  · rw [update_apply]
    split_ifs
    exacts [hz,h.nonneg k]

/-- A new entry finds room. -/
theorem Inv.put (h : Inv sz c) (hk : key ∉ keys c.data) (val : V) : Inv sz (c.put key val (sz key)).2 := by
  rw [Cache.put]
  split_ifs with hs
  · exact h
  obtain ⟨rest,m,hr,hl,he,hroom⟩ := @evict_spec K V _ sz {c with currSize := wrap 64 (c.currSize+sz key)}
    c.data (sz key) h.sizes h.nodup (by rw [h.sum])
  have hkr : key ∉ keys rest := fun hm => hk ((hr.map Prod.fst).subset hm)
  have hf : rest.filter (·.1 ≠ key) = rest := filter_eq_self.mpr fun e he => by
    simpa using fun hk : e.1 = key => hkr (hk ▸ mem_map_of_mem he)
  have hfit : wrap 64 (total sz rest+sz key) = total sz rest+sz key ∧ total sz rest+sz key ≤ c.maxSize ∧
      rest.length+1 ≤ c.capacity := by
    have hz := h.nonneg key
    have hra := h.range
    have hn := h.small
    cases rest with
    | nil =>
      have h1 := h.room
      simp only [InRange,total,keys,map_nil,sum_nil,zero_add,length_nil] at hra ⊢
      exact ⟨Word.wrap_eq_self ⟨by omega,by omega⟩,by omega,by omega⟩
    | cons e rest =>
      obtain ⟨hlim,hlen⟩ := hroom.resolve_left (cons_ne_nil _ _)
      have hle : total sz (e :: rest) ≤ total sz c.data :=
        ((hr.map Prod.fst).map sz).sublist.sum_le_sum (forall_mem_map.mpr fun k _ => h.nonneg k)
      have hd := h.sum ▸ h.limit
      have h0 := total_nonneg h.nonneg (e :: rest)
      simp only [InRange,length_cons,Nat.cast_succ] at hra hlen ⊢
      have hw := Word.wrap_eq_self (w := 64) (x := total sz (e :: rest)+sz key) ⟨by omega,by omega⟩
      exact ⟨hw,hw ▸ hlim,by omega⟩
  obtain ⟨hw,hlim,hlen⟩ := hfit
  have hnf : ¬c.capacity < (rest ++ [(key,val)]).length := by simpa using hlen
  simp only [he,hw,Cache.lruAdd,hf,if_neg hnf]
  refine ⟨⟨fun k => ?_,by simp [total,keys],hlim,not_lt.mp hnf⟩,?_,h.nonneg,h.room,h.range,h.small⟩
  · have := hl k
    simp only [update_apply,keys,map_append] at this ⊢
    grind
  · have hnr : (keys rest).Nodup := h.nodup.sublist (hr.map Prod.fst).sublist
    simpa [keys,nodup_append] using ⟨hnr,by grind⟩

lemma Inv.run (h : Inv (fun _ => 0) c) {ops : List (Op K V)} (ho : ∀ op ∈ ops, op.Nonneg) :
    Inv (sizes ops) (c.run ops) := by
  induction ops using reverseRecOn with
  | nil => exact h
  | append_singleton ops op ih =>
    obtain ⟨hos,hop⟩ := forall_mem_append.mp ho
    have ih := ih hos
    rw [sizes,Cache.run,foldl_append,foldl_append,← sizes,← Cache.run]
    cases op with
    | remove key => exact (ih.drop key).1
    | add key val size =>
      obtain ⟨hd,hk⟩ := ih.drop key
      have hp := (hd.regard hk (hop _ (mem_singleton_self _))).put hk val
      rwa [update_self] at hp

end

/-- The books agree if and only if the limit is not negative, and two sizes within it do not overflow where two entries
can be held. -/
theorem run_consistent_iff [Nontrivial K] [Inhabited V] {num maxSize : ℤ} (hm : InRange 64 maxSize) {c : Cache K V}
    (hc : new num maxSize = some c) :
    (∀ ops : List (Op K V), (∀ op ∈ ops, op.Nonneg) → Consistent (sizes ops) (c.run ops)) ↔
      0 ≤ maxSize ∧ (num = 1 ∨ maxSize < 2^62) := by
  rw [new] at hc
  split_ifs at hc with h1
  obtain rfl := Option.some.inj hc
  constructor
  · intro h
    refine ⟨(h [] (by simp)).limit,?_⟩
    by_contra hn
    obtain ⟨k,k',hk⟩ := exists_pair_ne K
    have hs := (h [.add k default (2^62),.add k' default (2^62)] (by simp [Op.Nonneg])).sum
    have hle : ¬maxSize < 4611686018427387904 ∧ ¬maxSize < -9223372036854775808 := by omega
    have hw : wrap 64 4611686018427387904 = 4611686018427387904 := by decide
    have hov : wrap 64 9223372036854775808 = -9223372036854775808 := by decide
    have hnum : ¬num < 1 ∧ ¬num ≤ 1 ∧ ¬num < 2 := by omega
    simp [Cache.run,Cache.step,Cache.add,Cache.drop,Cache.put,Cache.evict,Cache.lruAdd,hk,hk.symm,hle,hw,hov,hnum,total,
      keys,sizes] at hs
  · rintro ⟨h0,hn⟩ ops ho
    have hi : Inv (fun _ => 0) (⟨num,maxSize,0,fun _ => none,[]⟩ : Cache K V) :=
      ⟨⟨fun _ => rfl,rfl,h0,h1.le⟩,nodup_nil,fun _ => le_rfl,h1,hm,hn⟩
    exact (hi.run ho).toConsistent

theorem run_wraps : (((new 2 (2^62)).map fun c : Cache Bool Unit =>
    c.run [.add false () (2^62),.add true () (2^62)]).map fun c => (c.currSize,c.data.length)) = some (-2^63,2) := by
  decide

theorem run_consistent_two : Consistent (sizes [.add false () 6,.add true () 7])
    ((⟨2,10,0,fun _ => none,[]⟩ : Cache Bool Unit).run [.add false () 6,.add true () 7]) :=
  (run_consistent_iff (by decide : InRange 64 10) (rfl : new 2 10 = some _)).mpr (by decide) _ (by simp [Op.Nonneg])

end Dpos.SpaceLimitCache
