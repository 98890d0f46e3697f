import Dpos.OrphanPool
import Mathlib.Data.List.DropRight

/-! The cache of recent blocks of `cache.go`: two maps to the elements of a queue, whose front goes when it
is full. -/
namespace Dpos.BlockCache

open List Function Block

variable {seen held : List BlockDetail}

/-- An element of the queue; no two have the same number. -/
structure Elem where
  id : ℕ
  value : BlockDetail
  deriving DecidableEq, Repr

structure Cache where
  cache : ℤ → Option Elem
  cacheHash : Bytes → Option Elem
  cacheQueue : List Elem
  cacheSize : ℕ
  maxHeight : ℤ
  nextId : ℕ

def newBlockCache (defCacheSize : ℕ) : Cache := ⟨fun _ => none,fun _ => none,[],defCacheSize,0,0⟩

inductive Op
  | cacheBlock (detail : BlockDetail)
  | delBlockFromCache (height : ℤ)
  | checkcacheBlock (height : ℤ)

section
variable (hash : Block → Bytes) (s : Cache)

def delCacheBlock (detail : BlockDetail) : Cache :=
  { s with
    cache := update s.cache detail.block.height none
    cacheHash := update s.cacheHash (hash detail.block) none }

/-- `Remove` of the queue, and the maps after it. -/
def remove (elem : Elem) : Cache :=
  delCacheBlock hash {s with cacheQueue := s.cacheQueue.filter fun e => e.id ≠ elem.id} elem.value

def addCacheBlock (detail : BlockDetail) : Cache :=
  let elem := ⟨s.nextId,detail⟩
  { s with
    cacheQueue := s.cacheQueue ++ [elem]
    cache := update s.cache detail.block.height (some elem)
    cacheHash := update s.cacheHash (hash detail.block) (some elem)
    nextId := s.nextId+1 }

/-- `CacheBlock`; that the heights are consecutive is only logged. -/
def cacheBlock (detail : BlockDetail) : Cache :=
  let s := addCacheBlock hash {s with maxHeight := detail.block.height} detail
  match s.cacheQueue with
  | [] => s
  | front :: _ => if s.cacheSize < s.cacheQueue.length then remove hash s front else s

def delBlockFromCache (height : ℤ) : Cache :=
  let s := {s with maxHeight := height-1}
  match s.cache height with
  | none => s
  | some elem => remove hash s elem

/-- `CheckcacheBlock` moves what it finds to the back. -/
def checkcacheBlock (height : ℤ) : Option BlockDetail × Cache :=
  match s.cache height with
  | none => (none,s)
  | some elem => (some elem.value,
      {s with cacheQueue := (s.cacheQueue.filter fun e => e.id ≠ elem.id) ++ [elem]})

def getCacheBlock (x : Bytes) : Option BlockDetail := (s.cacheHash x).map Elem.value

def step : Op → Cache
  | .cacheBlock detail => cacheBlock hash s detail
  | .delBlockFromCache height => delBlockFromCache hash s height
  | .checkcacheBlock height => (checkcacheBlock s height).2

def run (ops : List Op) : Cache := ops.foldl (step hash) s

end

/-- The blocks are cached at consecutive heights and deleted at the tip. -/
def Consecutive : Option ℤ → List Op → Prop
  | _,[] => True
  | tip,.cacheBlock detail :: ops =>
    (∀ t ∈ tip, detail.block.height = t+1) ∧ Consecutive (some detail.block.height) ops
  | tip,.delBlockFromCache height :: ops => tip = some height ∧ Consecutive (some (height-1)) ops
  | tip,.checkcacheBlock _ :: ops => Consecutive tip ops

def cached (seen : List BlockDetail) (ops : List Op) : List BlockDetail :=
  ops.foldl (fun seen op => match op with | .cacheBlock detail => detail :: seen | _ => seen) seen

/-- The latest kept blocks after an operation: a new one makes the oldest go when there are more than the size, and
one that is looked up is the latest again. -/
def keep (size : ℕ) (held : List BlockDetail) : Op → List BlockDetail
  | .cacheBlock detail => (held ++ [detail]).rtake size
  | .delBlockFromCache height => held.filter fun d => d.block.height ≠ height
  | .checkcacheBlock height =>
    held.filter (fun d => d.block.height ≠ height) ++ (held.find? fun d => d.block.height = height).toList

def kept (size : ℕ) (ops : List Op) : List BlockDetail := ops.foldl (keep size) []

/-- A map to the elements of the queue under a key, each of which holds what was last cached under it. -/
structure Filed {K : Type} [DecidableEq K] (key : BlockDetail → K) (m : K → Option Elem) (queue : List Elem)
    (seen : List BlockDetail) : Prop where
  points : ∀ x e, m x = some e ↔ e ∈ queue ∧ key e.value = x
  recent : ∀ e ∈ queue, seen.find? (fun d => key d = key e.value) = some e.value

section
variable {K : Type} [DecidableEq K] {key : BlockDetail → K} {m : K → Option Elem} {q q' : List Elem}
  {el : Elem} (h : Filed key m q seen)
include h

lemma Filed.find?_eq (x : K) : (q.map Elem.value).find? (fun d => key d = x) = (m x).map Elem.value := by
  rw [find?_map]
  refine congrArg _ (Option.ext fun e => ⟨fun hf => ?_,fun hx => ?_⟩)
  · exact (h.points x e).mpr ⟨mem_of_find?_eq_some hf,by simpa using find?_some hf⟩
  · obtain ⟨hm,hk⟩ := (h.points x e).mp hx
    obtain ⟨e',hf⟩ := Option.isSome_iff_exists.mp (find?_isSome.mpr
      ⟨e,hm,(by simpa using hk : ((fun d => decide (key d = x)) ∘ Elem.value) e)⟩)
    have he := (h.points x e').mpr ⟨mem_of_find?_eq_some hf,by simpa using find?_some hf⟩
    rw [hf,Option.some.inj (he.symm.trans hx)]

lemma Filed.of_mem (hq : ∀ e, e ∈ q' ↔ e ∈ q) : Filed key m q' seen :=
  ⟨fun x e => by rw [h.points,hq],fun e he => h.recent e ((hq e).mp he)⟩

lemma Filed.remove (he : el ∈ q) (hq : ∀ e, e ∈ q' ↔ e ∈ q ∧ e ≠ el) :
    Filed key (update m (key el.value) none) q' seen := by
  refine ⟨fun x e => ?_,fun e hm => h.recent e ((hq e).mp hm).1⟩
  have hp := h.points x e
  have hs := (h.points _ el).mpr ⟨he,rfl⟩
  rw [hq]
  by_cases hx : x = key el.value
  · subst hx
    rw [hs,Option.some.injEq] at hp
    rw [update_self]
    grind
  · rw [update_of_ne hx]
    grind

lemma Filed.add (el : Elem) (hn : ∀ e ∈ q, key e.value ≠ key el.value) :
    Filed key (update m (key el.value) (some el)) (q ++ [el]) (el.value :: seen) := by
  refine ⟨fun x e => ?_,fun e hm => ?_⟩
  · have hp := h.points x e
    by_cases hx : x = key el.value
    · rw [hx,update_self,mem_append,mem_singleton,Option.some.injEq]
      grind
    · rw [update_of_ne hx,mem_append,mem_singleton]
      grind
  · rcases mem_append.mp hm with hm | hm
    · rw [find?_cons_of_neg (by simpa using (hn e hm).symm)]
      exact h.recent e hm
    · rw [mem_singleton.mp hm,find?_cons_of_pos (by simp)]

end

section
variable {c : Crypto} {cfg : Config} {s : Cache} {tip : Option ℤ} {elem : Elem} {size : ℕ} {ops : List Op}

structure Inv (c : Crypto) (cfg : Config) (s : Cache) (tip : Option ℤ) (seen : List BlockDetail) : Prop where
  ids : ∀ e ∈ s.cacheQueue, e.id < s.nextId
  nodup : (s.cacheQueue.map Elem.id).Nodup
  heights : Filed (fun d => d.block.height) s.cache s.cacheQueue seen
  hashes : Filed (fun d => d.block.hash c cfg) s.cacheHash s.cacheQueue seen
  below : ∀ e ∈ s.cacheQueue, ∃ t ∈ tip, e.value.block.height ≤ t

lemma Inv.mem_filter (h : Inv c cfg s tip seen) (he : elem ∈ s.cacheQueue) (e : Elem) :
    e ∈ s.cacheQueue.filter (fun e => e.id ≠ elem.id) ↔ e ∈ s.cacheQueue ∧ e ≠ elem := by
  rw [List.mem_filter,decide_eq_true_eq]
  exact and_congr_right fun hm => not_congr ⟨inj_on_of_nodup_map h.nodup hm he,congrArg Elem.id⟩

/-- The element at a height goes. -/
lemma Inv.map_filter (h : Inv c cfg s tip seen) {height : ℤ} (hs : s.cache height = some elem) :
    (s.cacheQueue.filter fun e => e.id ≠ elem.id).map Elem.value =
      (s.cacheQueue.map Elem.value).filter fun d => d.block.height ≠ height := by
  rw [filter_map]
  refine congrArg _ (filter_congr fun e he => ?_)
  have hp := h.heights.points height e
  rw [hs,Option.some.injEq] at hp
  have hid : e.id = elem.id ↔ elem = e :=
    ⟨fun heq => (inj_on_of_nodup_map h.nodup he ((h.heights.points _ _).mp hs).1 heq).symm,fun heq => heq ▸ rfl⟩
  exact decide_eq_decide.mpr (not_congr (hid.trans (hp.trans (and_iff_right he))))

lemma Inv.remove (h : Inv c cfg s tip seen) (he : elem ∈ s.cacheQueue) {tip' : Option ℤ}
    (hb : ∀ e ∈ s.cacheQueue, e ≠ elem → ∃ t ∈ tip', e.value.block.height ≤ t) :
    Inv c cfg (remove (hash c cfg) s elem) tip' seen := by
  have hq := h.mem_filter he
  exact ⟨fun e hm => h.ids e ((hq e).mp hm).1,h.nodup.sublist (filter_sublist.map _),
    h.heights.remove he hq,h.hashes.remove he hq,fun e hm => hb e ((hq e).mp hm).1 ((hq e).mp hm).2⟩

lemma Inv.add (hc : c.Ideal) (h : Inv c cfg s tip seen) {d : BlockDetail} (m : ℤ)
    (hn : ∀ t ∈ tip, d.block.height = t+1) :
    Inv c cfg (addCacheBlock (hash c cfg) {s with maxHeight := m} d) (some d.block.height)
      (d :: seen) := by
  have hlt : ∀ e ∈ s.cacheQueue, e.value.block.height < d.block.height := fun e he => by
    obtain ⟨t,ht,hl⟩ := h.below e he
    have := hn t ht
    omega
  have hme : ∀ e, e ∈ s.cacheQueue ++ [⟨s.nextId,d⟩] → e ∈ s.cacheQueue ∨ e = ⟨s.nextId,d⟩ := by simp
  refine ⟨fun e hm => ?_,?_,?_,?_,fun e hm => ⟨_,rfl,?_⟩⟩
  · rcases hme e hm with hm | rfl
    · exact (h.ids e hm).trans (Nat.lt_succ_self _)
    · exact Nat.lt_succ_self _
  · show ((s.cacheQueue ++ [_]).map Elem.id).Nodup
    rw [map_append,map_singleton,nodup_append_comm,singleton_append,nodup_cons]
    refine ⟨fun hm => ?_,h.nodup⟩
    obtain ⟨e,he,heq⟩ := mem_map.mp hm
    exact (h.ids e he).ne heq
  · exact h.heights.add ⟨s.nextId,d⟩ fun e he => (hlt e he).ne
  · exact h.hashes.add ⟨s.nextId,d⟩ fun e he heq => (hlt e he).ne (hash_inj hc heq).1
  · rcases hme e hm with hm | rfl
    · exact (hlt e hm).le
    · exact le_rfl

/-- With what the queue holds, and the size that is never exceeded. -/
structure Fits (c : Crypto) (cfg : Config) (size : ℕ) (s : Cache) (tip : Option ℤ) (seen held : List BlockDetail) : Prop
    extends Inv c cfg s tip seen where
  sized : s.cacheSize = size
  holds : s.cacheQueue.map Elem.value = held
  fits : held.length ≤ size

lemma Fits.cacheBlock (hc : c.Ideal) (h : Fits c cfg size s tip seen held) (d : BlockDetail)
    (hn : ∀ t ∈ tip, d.block.height = t+1) :
    Fits c cfg size (cacheBlock (hash c cfg) s d) (some d.block.height) (d :: seen) (keep size held (.cacheBlock d)) := by
  have ha := h.toInv.add hc d.block.height hn
  have hl : s.cacheQueue.length = held.length := by rw [← h.holds,length_map]
  have hfit := h.fits
  have hv : (s.cacheQueue ++ [(⟨s.nextId,d⟩ : Elem)]).map Elem.value = held ++ [d] := by simp [h.holds]
  unfold BlockCache.cacheBlock keep rtake
  simp only [length_append,length_singleton]
  split
  · rename_i hq
    simp [addCacheBlock] at hq
  · rename_i front rest hq
    have hlen : rest.length = held.length := by
      have := congrArg length hq
      simp [addCacheBlock] at this
      omega
    have hqv : front.value :: rest.map Elem.value = held ++ [d] := by rw [← hv,← map_cons,← hq]; rfl
    split_ifs with hov
    · have hsz : held.length = size := by
        simp only [addCacheBlock,length_append,length_singleton,h.sized] at hov
        omega
      -- the front goes, and only it: no other element has its number
      have hr : (front :: rest).filter (fun e => e.id ≠ front.id) = rest := by
        have hnd := hq ▸ ha.nodup
        rw [filter_cons_of_neg (by simp),filter_eq_self]
        exact fun e he => decide_eq_true fun heq => (nodup_cons.mp hnd).1 (heq ▸ mem_map_of_mem he)
      rw [hsz,Nat.add_sub_cancel_left,← hqv,drop_one,tail_cons]
      refine ⟨ha.remove (hq ▸ mem_cons_self) fun e he _ => ha.below e he,h.sized,?_,by simp; omega⟩
      rw [← hr,← hq]
      rfl
    · have hsz : held.length+1 ≤ size := by
        simp only [addCacheBlock,length_append,length_singleton,h.sized] at hov
        omega
      rw [Nat.sub_eq_zero_of_le hsz,drop_zero]
      exact ⟨ha,h.sized,hv,by simpa using hsz⟩

lemma Fits.delBlockFromCache {height : ℤ} (h : Fits c cfg size s (some height) seen held) :
    Fits c cfg size (delBlockFromCache (hash c cfg) s height) (some (height-1)) seen
      (keep size held (.delBlockFromCache height)) := by
  have hd : ∀ e ∈ s.cacheQueue, s.cache height ≠ some e → ∃ t ∈ some (height-1), e.value.block.height ≤ t := by
    intro e he hne
    obtain ⟨t,ht,hl⟩ := h.below e he
    cases ht
    have hno : e.value.block.height ≠ height := fun heq => hne ((h.heights.points height e).mpr ⟨he,heq⟩)
    exact ⟨_,rfl,by omega⟩
  have hfit := (length_filter_le (fun d : BlockDetail => decide (d.block.height ≠ height)) held).trans h.fits
  unfold BlockCache.delBlockFromCache
  dsimp only
  split
  · rename_i hnn
    refine ⟨⟨h.ids,h.nodup,h.heights,h.hashes,fun e he => hd e he (by simp [hnn])⟩,h.sized,?_,hfit⟩
    rw [keep,h.holds,filter_eq_self.mpr]
    intro d hm
    obtain ⟨e,he,rfl⟩ := mem_map.mp (h.holds ▸ hm)
    exact decide_eq_true fun heq => by simpa [hnn] using (h.heights.points height e).mpr ⟨he,heq⟩
  · rename_i elem hso
    have hs : Inv c cfg {s with maxHeight := height-1} (some height) seen := ⟨h.ids,h.nodup,h.heights,h.hashes,h.below⟩
    refine ⟨hs.remove ((h.heights.points _ _).mp hso).1 fun e hm hne => hd e hm fun heq => ?_,h.sized,?_,hfit⟩
    · exact hne (Option.some.inj (heq.symm.trans hso))
    · rw [keep,← h.holds]
      exact h.map_filter hso

lemma Fits.checkcacheBlock (h : Fits c cfg size s tip seen held) (height : ℤ) :
    Fits c cfg size (checkcacheBlock s height).2 tip seen (keep size held (.checkcacheBlock height)) := by
  have hf : held.find? (fun d => d.block.height = height) = (s.cache height).map Elem.value :=
    h.holds ▸ h.heights.find?_eq height
  rw [keep,hf]
  unfold BlockCache.checkcacheBlock
  split
  · rename_i hnn
    rw [hnn] at hf ⊢
    rw [Option.map_none,Option.toList_none,append_nil,filter_eq_self.mpr (by simpa using hf)]
    exact h
  · rename_i elem hso
    have he := ((h.heights.points _ _).mp hso).1
    have hq : ∀ e, e ∈ (s.cacheQueue.filter fun e => e.id ≠ elem.id) ++ [elem] ↔ e ∈ s.cacheQueue := by
      intro e
      rw [mem_append,h.mem_filter he,mem_singleton]
      grind
    have hp : ((s.cacheQueue.filter fun e => e.id ≠ elem.id) ++ [elem]).Perm s.cacheQueue := by
      have hn := h.nodup.of_map
      refine (perm_ext_iff_of_nodup ?_ hn).mpr hq
      exact (hn.filter _).append (nodup_singleton _) (by simp)
    rw [hso]
    refine ⟨⟨fun e hm => h.ids e ((hq e).mp hm),(hp.map _).nodup_iff.mpr h.nodup,h.heights.of_mem hq,
      h.hashes.of_mem hq,fun e hm => h.below e ((hq e).mp hm)⟩,h.sized,?_,?_⟩
    · rw [map_append,h.map_filter hso,h.holds]
      rfl
    · rw [← h.holds,← h.map_filter hso]
      have hl := (hp.map Elem.value).length_eq
      rw [map_append] at hl
      exact hl.le.trans (h.holds ▸ h.fits)

lemma Fits.run (hc : c.Ideal) (h : Fits c cfg size s tip seen held) (ho : Consecutive tip ops) :
    ∃ tip', Fits c cfg size (run (hash c cfg) s ops) tip' (cached seen ops) (ops.foldl (keep size) held) := by
  induction ops generalizing s tip seen held with
  | nil => exact ⟨tip,h⟩
  | cons op ops ih =>
    cases op with
    | cacheBlock d => exact ih (h.cacheBlock hc d ho.1) ho.2
    | delBlockFromCache height =>
      obtain ⟨rfl,ho⟩ := ho
      exact ih h.delBlockFromCache ho
    | checkcacheBlock height => exact ih (h.checkcacheBlock height) ho

/-- The queue holds exactly the latest kept blocks, never more than its size, and both maps point to them; a lookup
finds a kept block, which is the one that was last cached under the height or hash, and nothing else. -/
theorem run_describes (hc : c.Ideal) (size : ℕ) {ops : List Op} (ho : Consecutive none ops) :
    ∃ s, s = run (hash c cfg) (newBlockCache size) ops ∧
      s.cacheQueue.map Elem.value = kept size ops ∧
      (∀ h e, s.cache h = some e ↔ e ∈ s.cacheQueue ∧ e.value.block.height = h) ∧
      (∀ x e, s.cacheHash x = some e ↔ e ∈ s.cacheQueue ∧ e.value.block.hash c cfg = x) ∧
      s.cacheQueue.length ≤ size ∧
      (∀ h, (checkcacheBlock s h).1 = (kept size ops).find? fun d => d.block.height = h) ∧
      (∀ x, getCacheBlock s x = (kept size ops).find? fun d => d.block.hash c cfg = x) ∧
      ∀ d ∈ kept size ops, (cached [] ops).find? (fun d' => d'.block.height = d.block.height) = some d ∧
        (cached [] ops).find? (fun d' => d'.block.hash c cfg = d.block.hash c cfg) = some d := by
  have hn : Fits c cfg size (newBlockCache size) none [] [] :=
    ⟨⟨by simp [newBlockCache],by simp [newBlockCache],⟨by simp [newBlockCache],by simp [newBlockCache]⟩,
      ⟨by simp [newBlockCache],by simp [newBlockCache]⟩,by simp [newBlockCache]⟩,rfl,rfl,Nat.zero_le _⟩
  obtain ⟨tip,h⟩ := hn.run hc ho
  have hk : _ = kept size ops := h.holds
  refine ⟨_,rfl,hk,h.heights.points,h.hashes.points,?_,fun x => ?_,fun x => ?_,fun d hd => ?_⟩
  · rw [← length_map,hk]
    exact h.fits
  · rw [← hk,h.heights.find?_eq,BlockCache.checkcacheBlock]
    cases (BlockCache.run (hash c cfg) (newBlockCache size) ops).cache x <;> rfl
  · rw [← hk,h.hashes.find?_eq,getCacheBlock]
  · obtain ⟨e,he,rfl⟩ := mem_map.mp (hk ▸ hd)
    exact ⟨h.heights.recent e he,h.hashes.recent e he⟩

end

def detailAt (height : ℕ) (ty : ℤ) : BlockDetail := ⟨(OrphanPool.numbered height).block,[⟨ty,[]⟩],[],[]⟩

/-- Three blocks are cached, the first one is evicted; the last one is deleted, and another one takes its height. -/
def replacing : List Op :=
  [.cacheBlock (detailAt 4 1),.cacheBlock (detailAt 5 1),.cacheBlock (detailAt 6 1),.delBlockFromCache 6,
    .cacheBlock (detailAt 6 2)]

theorem run_describes_replacing : ∃ s, s = run (hash Crypto.framed .allForks) (newBlockCache 2) replacing ∧
    s.cacheQueue.map Elem.value = [detailAt 5 1,detailAt 6 2] ∧ (checkcacheBlock s 4).1 = none ∧
    (checkcacheBlock s 6).1 = some (detailAt 6 2) := by
  have ho : Consecutive none replacing := by simp [replacing,Consecutive,detailAt,OrphanPool.numbered]
  obtain ⟨s,hs,hk,-,-,-,hl,-⟩ := @run_describes Crypto.framed .allForks Crypto.framed_ideal 2 replacing ho
  exact ⟨s,hs,hk.trans (by decide),(hl 4).trans (by decide),(hl 6).trans (by decide)⟩

end Dpos.BlockCache
