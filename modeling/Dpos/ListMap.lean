import Dpos.SortedStore

/-! A map from keys to the elements of a list, which keeps the values in the order in which
their keys came. -/
namespace Dpos

open List Prod

/-- The elements of the list have names, which the map refers to. -/
structure ListMap (K V : Type) where
  m : List (K × ℕ)
  l : List (ℕ × V)
  /-- The name of the next element. -/
  next : ℕ
  deriving DecidableEq, Repr

namespace ListMap
variable {K V : Type} [DecidableEq K]

def empty : ListMap K V := ⟨[],[],0⟩

def size (lm : ListMap K V) : ℕ := lm.m.length

def exist (lm : ListMap K V) (key : K) : Bool := (valueAt lm.m key).isSome

def getItem (lm : ListMap K V) (key : K) : Option V := (valueAt lm.m key).bind (valueAt lm.l)

/-- A key that is there gets a new value in its place. -/
def push (lm : ListMap K V) (key : K) (value : V) : ListMap K V :=
  match valueAt lm.m key with
  | some elm => { lm with l := lm.l.map fun e => if e.1 = elm then (elm,value) else e }
  | none => ⟨(key,lm.next) :: lm.m,lm.l ++ [(lm.next,value)],lm.next+1⟩

def getTop (lm : ListMap K V) : Option V := lm.l.head?.map snd

def remove (lm : ListMap K V) (key : K) : ListMap K V :=
  match valueAt lm.m key with
  | some elm => { lm with m := lm.m.filter (·.1 ≠ key), l := lm.l.filter (·.1 ≠ elm) }
  | none => lm

/-- The values in the order of the list, as `Walk` meets them. -/
def values (lm : ListMap K V) : List V := lm.l.map snd

/-- Each key has an element of its own, and each element a key. -/
structure WF (lm : ListMap K V) : Prop where
  keys : (lm.m.map fst).Nodup
  targets : (lm.m.map snd).Nodup
  elements : (lm.l.map fst).Nodup
  same : ∀ elm, elm ∈ lm.m.map snd ↔ elm ∈ lm.l.map fst
  fresh : ∀ e ∈ lm.l, e.1 < lm.next

lemma valueAt_iff {V : Type} {es : List (K × V)} (hn : (es.map fst).Nodup) {k : K} {v : V} :
    valueAt es k = some v ↔ (k,v) ∈ es := by
  refine ⟨mem_of_valueAt,fun hm => ?_⟩
  cases hv : valueAt es k with
  | none => exact absurd rfl (valueAt_eq_none.mp hv (k,v) hm)
  | some v' =>
    have he : (k,v') = (k,v) := inj_on_of_nodup_map hn (mem_of_valueAt hv) hm rfl
    rw [(Prod.mk.inj he).2]

lemma nodup_filter_map {α β : Type} {f : α → β} {l : List α} {p : α → Bool} (h : (l.map f).Nodup) :
    ((l.filter p).map f).Nodup := h.sublist (filter_sublist.map f)

omit [DecidableEq K] in
lemma wf_empty : (empty : ListMap K V).WF := ⟨nodup_nil,nodup_nil,nodup_nil,fun _ => Iff.rfl,by simp [empty]⟩

namespace WF
variable {lm : ListMap K V} (h : lm.WF) {key k : K} {v : V} {elm : ℕ}
include h

lemma getItem_eq_some : lm.getItem key = some v ↔ ∃ elm, (key,elm) ∈ lm.m ∧ (elm,v) ∈ lm.l := by
  simp only [getItem,Option.bind_eq_some_iff,valueAt_iff h.keys,valueAt_iff h.elements]

omit [DecidableEq K] in
lemma exists_element (hm : (key,elm) ∈ lm.m) : ∃ v, (elm,v) ∈ lm.l := by
  obtain ⟨e,he,rfl⟩ := mem_map.mp ((h.same elm).mp (mem_map.mpr ⟨_,hm,rfl⟩))
  exact ⟨e.2,he⟩

lemma exist_iff : lm.exist key = true ↔ (lm.getItem key).isSome := by
  unfold exist getItem
  cases hva : valueAt lm.m key with
  | none => simp
  | some elm =>
    obtain ⟨v,hv⟩ := h.exists_element (mem_of_valueAt hva)
    simp [(valueAt_iff h.elements).mpr hv]

lemma getItem_eq_none : lm.getItem key = none ↔ valueAt lm.m key = none := by
  have hi : lm.exist key = true ↔ (lm.getItem key).isSome := h.exist_iff
  unfold exist at hi
  cases hv : valueAt lm.m key <;> cases hg : lm.getItem key <;> simp_all

lemma mem_values : v ∈ lm.values ↔ ∃ key, lm.getItem key = some v := by
  simp only [h.getItem_eq_some,values,mem_map]
  constructor
  · rintro ⟨⟨elm,v⟩,he,rfl⟩
    obtain ⟨⟨key,elm'⟩,hm,rfl⟩ := mem_map.mp ((h.same elm).mpr (mem_map.mpr ⟨_,he,rfl⟩))
    exact ⟨key,elm',hm,he⟩
  · rintro ⟨key,elm,-,hl⟩
    exact ⟨(elm,v),hl,rfl⟩

omit [DecidableEq K] in
lemma size_eq : lm.size = lm.values.length := by
  have hp : (lm.m.map snd).Perm (lm.l.map fst) := (perm_ext_iff_of_nodup h.targets h.elements).mpr h.same
  simpa [size,values] using hp.length_eq

lemma nodup_values {f : V → K} (hk : ∀ key v, lm.getItem key = some v → f v = key) : lm.values.Nodup := by
  refine List.Nodup.map_on (fun e he e' he' heq => ?_) h.elements.of_map
  obtain ⟨elm,v⟩ := e
  obtain ⟨elm',v'⟩ := e'
  obtain rfl : v = v' := heq
  obtain ⟨⟨key,_⟩,hm,rfl⟩ := mem_map.mp ((h.same elm).mpr (mem_map_of_mem he))
  obtain ⟨⟨key',_⟩,hm',rfl⟩ := mem_map.mp ((h.same elm').mpr (mem_map_of_mem he'))
  have hke := hk key v (h.getItem_eq_some.mpr ⟨_,hm,he⟩)
  have hke' := hk key' v (h.getItem_eq_some.mpr ⟨_,hm',he'⟩)
  have heq := inj_on_of_nodup_map h.keys hm hm' (hke.symm.trans hke')
  exact Prod.ext (congrArg snd heq) rfl

lemma getItem_of_size_zero (hz : lm.size = 0) (key : K) : lm.getItem key = none := by
  by_contra hso
  obtain ⟨v,hv⟩ := Option.ne_none_iff_exists'.mp hso
  rw [h.size_eq,length_eq_zero_iff] at hz
  exact not_mem_nil (hz ▸ h.mem_values.mpr ⟨key,hv⟩)

lemma getItem_of_getTop (ht : lm.getTop = some v) : ∃ key, lm.getItem key = some v := by
  obtain ⟨e,he,rfl⟩ := Option.map_eq_some_iff.mp ht
  exact h.mem_values.mp (mem_map.mpr ⟨e,mem_of_mem_head? he,rfl⟩)

omit [DecidableEq K] in
lemma size_of_getTop_none (ht : lm.getTop = none) : lm.size = 0 := by
  rw [h.size_eq,values]
  unfold getTop at ht
  cases hl : lm.l with
  | nil => rfl
  | cons e l => simp [hl] at ht

omit [DecidableEq K] in
lemma key_unique (hke : (key,elm) ∈ lm.m) (hk : (k,elm) ∈ lm.m) : k = key :=
  congrArg fst (inj_on_of_nodup_map h.targets hk hke rfl)

section
variable (hno : lm.getItem key = none)
include hno

variable (v : V)

lemma push_eq : lm.push key v = ⟨(key,lm.next) :: lm.m,lm.l ++ [(lm.next,v)],lm.next+1⟩ := by
  rw [push,h.getItem_eq_none.mp hno]

lemma push : (lm.push key v).WF := by
  rw [h.push_eq hno]
  have hk : key ∉ lm.m.map fst := by
    rintro hi
    obtain ⟨e,he,rfl⟩ := mem_map.mp hi
    exact valueAt_eq_none.mp (h.getItem_eq_none.mp hno) e he rfl
  have hnext : lm.next ∉ lm.l.map fst := by
    intro hi
    obtain ⟨e,he,heq⟩ := mem_map.mp hi
    exact absurd heq (h.fresh e he).ne
  refine ⟨nodup_cons.mpr ⟨hk,h.keys⟩,nodup_cons.mpr ⟨mt (h.same _).mp hnext,h.targets⟩,?_,fun elm => ?_,
    fun e he => ?_⟩
  · rw [map_append]
    exact nodup_append.mpr ⟨h.elements,by simp,fun a ha b hb => by
      rw [mem_singleton.mp hb]
      rintro rfl
      exact hnext ha⟩
  · simp only [map_cons,mem_cons,map_append,mem_append,h.same elm,map_nil,not_mem_nil,or_false]
    exact or_comm
  · rcases mem_append.mp he with he | he
    · exact Nat.lt_succ_of_lt (h.fresh e he)
    · rw [mem_singleton.mp he]
      exact Nat.lt_succ_self _

lemma getItem_push (k : K) : (lm.push key v).getItem k = if k = key then some v else lm.getItem k := by
  ext w
  rw [(h.push hno v).getItem_eq_some,h.push_eq hno]
  have hnext : ∀ w, (lm.next,w) ∉ lm.l := fun w hw => absurd rfl (h.fresh _ hw).ne
  split_ifs with hk
  · subst hk
    constructor
    · rintro ⟨elm,hm,hl⟩
      rcases mem_cons.mp hm with hm | hm
      · obtain rfl := (Prod.mk.inj hm).2
        rcases mem_append.mp hl with hl | hl
        · exact absurd hl (hnext w)
        · rw [(Prod.mk.inj (mem_singleton.mp hl)).2]
      · obtain ⟨v',hv'⟩ := h.exists_element hm
        cases hno.symm.trans (h.getItem_eq_some.mpr ⟨elm,hm,hv'⟩)
    · intro hw
      cases hw
      exact ⟨lm.next,by simp,by simp⟩
  · rw [h.getItem_eq_some]
    refine exists_congr fun elm => ⟨?_,?_⟩
    · rintro ⟨hm,hl⟩
      rcases mem_cons.mp hm with hm | hm
      · exact absurd (congrArg fst hm) hk
      · refine ⟨hm,?_⟩
        rcases mem_append.mp hl with hl | hl
        · exact hl
        · obtain ⟨v',hv'⟩ := h.exists_element hm
          rw [(Prod.mk.inj (mem_singleton.mp hl)).1] at hv'
          exact absurd hv' (hnext v')
    · rintro ⟨hm,hl⟩
      exact ⟨mem_cons_of_mem _ hm,mem_append_left _ hl⟩

lemma values_push : (lm.push key v).values = lm.values ++ [v] := by
  rw [h.push_eq hno]
  simp [values]

lemma size_push : (lm.push key v).size = lm.size+1 := by
  rw [h.push_eq hno]
  rfl

end

section
variable (hso : lm.getItem key = some v)
include hso

lemma remove_eq : ∃ elm, (key,elm) ∈ lm.m ∧ (elm,v) ∈ lm.l ∧
    lm.remove key = { lm with m := lm.m.filter (·.1 ≠ key), l := lm.l.filter (·.1 ≠ elm) } := by
  obtain ⟨elm,hm,hl⟩ := h.getItem_eq_some.mp hso
  exact ⟨elm,hm,hl,by rw [remove,(valueAt_iff h.keys).mpr hm]⟩

lemma values_remove : lm.values.Perm (v :: (lm.remove key).values) := by
  obtain ⟨elm,hm,hl,heq⟩ := h.remove_eq hso
  have hp : lm.l.Perm ((elm,v) :: lm.l.filter (·.1 ≠ elm)) := by
    refine (perm_ext_iff_of_nodup h.elements.of_map ?_).mpr fun e => ?_
    · refine nodup_cons.mpr ⟨by simp,h.elements.of_map.filter _⟩
    · simp only [mem_cons,mem_filter,decide_not,Bool.not_eq_true',decide_eq_false_iff_not]
      constructor
      · intro he
        by_cases hel : e.1 = elm
        · exact .inl (inj_on_of_nodup_map h.elements he hl hel)
        · exact .inr ⟨he,hel⟩
      · rintro (rfl | ⟨he,-⟩)
        · exact hl
        · exact he
  rw [heq]
  exact hp.map snd

end

lemma remove_of_none (hno : lm.getItem key = none) : lm.remove key = lm := by
  rw [remove,h.getItem_eq_none.mp hno]

lemma remove (key : K) : (lm.remove key).WF := by
  cases hg : lm.getItem key with
  | none => rwa [h.remove_of_none hg]
  | some v =>
    obtain ⟨elm,hm,hl,heq⟩ := h.remove_eq hg
    rw [heq]
    refine ⟨nodup_filter_map h.keys,nodup_filter_map h.targets,nodup_filter_map h.elements,fun elm' => ?_,
      fun e he => h.fresh e (mem_of_mem_filter he)⟩
    simp only [mem_map,mem_filter,decide_not,Bool.not_eq_true',decide_eq_false_iff_not]
    constructor
    · rintro ⟨⟨k,e⟩,⟨hk,hne⟩,rfl⟩
      obtain ⟨w,hw⟩ := h.exists_element hk
      refine ⟨(e,w),⟨hw,?_⟩,rfl⟩
      rintro rfl
      exact hne (h.key_unique hm hk)
    · rintro ⟨⟨e,w⟩,⟨hw,hne⟩,rfl⟩
      obtain ⟨⟨k,e'⟩,hk,rfl⟩ := mem_map.mp ((h.same e).mpr (mem_map.mpr ⟨_,hw,rfl⟩))
      refine ⟨(k,e'),⟨hk,?_⟩,rfl⟩
      rintro rfl
      exact hne (congrArg snd (inj_on_of_nodup_map h.keys hk hm rfl))

lemma getItem_remove (key k : K) : (lm.remove key).getItem k = if k = key then none else lm.getItem k := by
  cases hg : lm.getItem key with
  | none =>
    rw [h.remove_of_none hg]
    split_ifs with hk
    · rw [hk,hg]
    · rfl
  | some v =>
    obtain ⟨elm,hm,hl,he⟩ := h.remove_eq hg
    ext w
    rw [(h.remove key).getItem_eq_some,he]
    simp only [mem_filter,decide_not,Bool.not_eq_true',decide_eq_false_iff_not]
    split_ifs with hk
    · simp [hk]
    · rw [h.getItem_eq_some]
      refine exists_congr fun e => ⟨fun ⟨hm',hl'⟩ => ⟨hm'.1,hl'.1⟩,fun ⟨hm',hl'⟩ => ⟨⟨hm',hk⟩,hl',?_⟩⟩
      rintro rfl
      exact hk (h.key_unique hm hm')

lemma size_remove (hso : lm.getItem key = some v) : (lm.remove key).size+1 = lm.size := by
  have hl := (h.values_remove hso).length_eq
  rw [h.size_eq,(h.remove key).size_eq,hl]
  rfl

lemma size_remove_le (key : K) : (lm.remove key).size ≤ lm.size := by
  cases hg : lm.getItem key with
  | none => rw [h.remove_of_none hg]
  | some v => exact (Nat.le_succ _).trans (h.size_remove hg).le

end WF

end ListMap
end Dpos
