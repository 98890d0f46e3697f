import Dpos.SortedStore

/-! Merging sorted lists by their heads, upwards or downwards: equal keys are given once,
and the first list that has the key gives the value. -/
namespace Dpos.HeadMerge

open List

variable {r : Bool}

variable {K V : Type} [LinearOrder K]

/-- The order of a walk, downwards if `reverse` is set. -/
def before (reverse : Bool) (a b : K) : Prop := if reverse then b < a else a < b

instance (reverse : Bool) (a b : K) : Decidable (before reverse a b) :=
  inferInstanceAs (Decidable (if reverse then b < a else a < b))

section
variable {a b c : K}

lemma before.trans (ha : before r a b) (hb : before r b c) : before r a c := by
  cases r with
  | false => exact lt_trans ha hb
  | true => exact lt_trans hb ha

lemma before.ne (h : before r a b) : a ≠ b := by
  cases r with
  | false => exact ne_of_lt h
  | true => exact (ne_of_lt h).symm

lemma before_trichotomy (r : Bool) (a b : K) : before r a b ∨ a = b ∨ before r b a := by
  cases r with
  | false => exact lt_trichotomy a b
  | true =>
    rcases lt_trichotomy a b with h | h | h
    · exact .inr (.inr h)
    · exact .inr (.inl h)
    · exact .inl h

end

/-- The value of the first list that has the key. -/
def firstValue (lists : List (List (K × V))) (k : K) : Option V := lists.findSome? (valueAt · k)

/-- The list behind its head, if the head has the key. -/
def dropHead (k : K) : List (K × V) → List (K × V)
  | [] => []
  | e :: es => if e.1 = k then es else e :: es

def Ordered (reverse : Bool) (es : List (K × V)) : Prop := es.Pairwise fun a b => before reverse a.1 b.1

def Least (reverse : Bool) (lists : List (List (K × V))) (k : K) : Prop :=
  ∀ es ∈ lists, ∀ e ∈ es.head?, e.1 = k ∨ before reverse k e.1

/-- What comes out of the lists when the least key is taken again and again. -/
inductive Merges (reverse : Bool) : List (List (K × V)) → List (K × V) → Prop
  | nil {lists : List (List (K × V))} (h : ∀ es ∈ lists, es = []) : Merges reverse lists []
  | cons {lists : List (List (K × V))} {k : K} {v : V} {out : List (K × V)} (hleast : Least reverse lists k)
      (hv : firstValue lists k = some v) (h : Merges reverse (lists.map (dropHead k)) out) :
      Merges reverse lists ((k,v) :: out)

lemma valueAt_dropHead {k k' : K} (h : k' ≠ k) (es : List (K × V)) :
    valueAt (dropHead k es) k' = valueAt es k' := by
  cases es with
  | nil => rfl
  | cons e es =>
    rw [dropHead]
    split_ifs with he
    · rw [valueAt_cons,if_neg (he ▸ h.symm)]
    · rfl

section
variable {lists : List (List (K × V))} {es out : List (K × V)} {k k' : K} {v : V} {i : ℕ}

lemma Ordered.dropHead (h : Ordered r es) (k : K) : Ordered r (dropHead k es) := by
  cases es with
  | nil => exact h
  | cons e es =>
    rw [HeadMerge.dropHead]
    split_ifs
    · exact (pairwise_cons.mp h).2
    · exact h

lemma Ordered.valueAt_eq_some (h : Ordered r es) : valueAt es k = some v ↔ (k,v) ∈ es := by
  refine ⟨mem_of_valueAt,fun hm => ?_⟩
  have hn : (es.map Prod.fst).Nodup := pairwise_map.mpr (h.imp before.ne)
  cases hv : valueAt es k with
  | none => exact absurd rfl (valueAt_eq_none.mp hv _ hm)
  | some v' => exact congrArg (some ∘ Prod.snd) (inj_on_of_nodup_map hn (mem_of_valueAt hv) hm rfl)

lemma Ordered.before_of_mem_dropHead (h : Ordered r es) (hh : ∀ e ∈ es.head?, e.1 = k ∨ before r k e.1) :
    ∀ e ∈ HeadMerge.dropHead k es, before r k e.1 := by
  cases es with
  | nil => simp [HeadMerge.dropHead]
  | cons e es =>
    obtain ⟨ht,_⟩ := pairwise_cons.mp h
    rw [HeadMerge.dropHead]
    split_ifs with hk
    · subst hk
      exact ht
    · have hb := (hh e rfl).resolve_left hk
      intro e' he'
      rcases mem_cons.mp he' with rfl | he'
      · exact hb
      · exact hb.trans (ht e' he')

lemma firstValue_eq_none (h : ∀ es ∈ lists, ∀ e ∈ es, e.1 ≠ k) : firstValue lists k = none :=
  findSome?_eq_none_iff.mpr fun es he => valueAt_eq_none.mpr (h es he)

lemma mem_of_firstValue (h : firstValue lists k = some v) : ∃ es ∈ lists, (k,v) ∈ es := by
  obtain ⟨es,he,hv⟩ := exists_of_findSome?_eq_some h
  exact ⟨es,he,mem_of_valueAt hv⟩

lemma firstValue_dropHead (h : k' ≠ k) (lists : List (List (K × V))) :
    firstValue (lists.map (dropHead k)) k' = firstValue lists k' := by
  rw [firstValue,findSome?_map]
  exact congrArg (findSome? · lists) (funext fun es => valueAt_dropHead h es)

/-- A list at whose head the key stands gives the value, if the lists before do not have
the key. -/
theorem firstValue_of_head (hi : lists[i]? = some ((k,v) :: es))
    (hn : ∀ j < i, ∀ es, lists[j]? = some es → ∀ e ∈ es, e.1 ≠ k) : firstValue lists k = some v := by
  induction lists generalizing i with
  | nil => simp at hi
  | cons es0 lists ih =>
    cases i with
    | zero =>
      obtain rfl : es0 = (k,v) :: es := by simpa using hi
      simp [firstValue,valueAt_cons]
    | succ i =>
      have hnn : valueAt es0 k = none := valueAt_eq_none.mpr (hn 0 (Nat.succ_pos i) es0 rfl)
      rw [firstValue,findSome?_cons,hnn]
      exact ih hi fun j hj es he => hn (j+1) (Nat.succ_lt_succ hj) es he

lemma map_dropHead_set (ho : Ordered r ((k,v) :: es)) (hi : lists[i]? = some ((k,v) :: es)) :
    (lists.set i es).map (dropHead k) = lists.map (dropHead k) := by
  have hs : dropHead k es = dropHead k ((k,v) :: es) := by
    rw [dropHead,if_pos rfl]
    cases es with
    | nil => rfl
    | cons e es =>
      have hne := ((pairwise_cons.mp ho).1 e mem_cons_self).ne
      rw [dropHead,if_neg hne.symm]
  rw [map_set,hs]
  refine ext_getElem? fun j => ?_
  rw [getElem?_set]
  split_ifs with hij hlt
  · subst hij
    simp [hi]
  · subst hij
    simp at hlt
    simp [hlt]
  · rfl

lemma map_dropHead_of_least (hleast : Least r lists k') (hk : before r k k') :
    lists.map (dropHead k) = lists := by
  refine (map_congr_left fun es he => ?_).trans (map_id _)
  cases es with
  | nil => rfl
  | cons e es =>
    rw [dropHead,if_neg]
    · rfl
    rintro rfl
    rcases hleast _ he e rfl with heq | hlt
    · exact hk.ne heq
    · exact (hk.trans hlt).ne rfl

/-- The merge of sorted lists gives each key once, in order, with the value of the first
list that has it. -/
theorem Merges.spec (h : Merges r lists out) (ho : ∀ es ∈ lists, Ordered r es) :
    Ordered r out ∧ ∀ k v, (k,v) ∈ out ↔ firstValue lists k = some v := by
  induction h with
  | nil h =>
    refine ⟨List.Pairwise.nil,fun k v => ?_⟩
    rw [firstValue_eq_none fun es hes e he => by simp [h es hes] at he]
    simp
  | @cons lists k v out hleast hv h ih =>
    obtain ⟨hou,hm⟩ := ih fun es hes => by
      obtain ⟨es0,hes0,rfl⟩ := mem_map.mp hes
      exact (ho es0 hes0).dropHead k
    have hb : ∀ e ∈ out, before r k e.1 := by
      intro e he
      obtain ⟨es,hes,hi⟩ := mem_of_firstValue ((hm e.1 e.2).mp he)
      obtain ⟨es0,hes0,rfl⟩ := mem_map.mp hes
      exact (ho es0 hes0).before_of_mem_dropHead (hleast es0 hes0) _ hi
    refine ⟨pairwise_cons.mpr ⟨hb,hou⟩,fun k' v' => ?_⟩
    rw [mem_cons]
    by_cases hk : k' = k
    · subst hk
      have hn : (k',v') ∉ out := fun he => (hb _ he).ne rfl
      simp [hn,hv,eq_comm]
    · rw [hm,firstValue_dropHead hk]
      simp [hk]

lemma Ordered.eq_of_mem {es' : List (K × V)} (h : Ordered r es) (h' : Ordered r es')
    (hm : ∀ e, e ∈ es ↔ e ∈ es') : es = es' := by
  have hn : ∀ {es : List (K × V)}, Ordered r es → es.Nodup := fun h =>
    h.imp fun hlt he => hlt.ne (congrArg Prod.fst he)
  exact ((perm_ext_iff_of_nodup (hn h) (hn h')).mpr hm).eq_of_pairwise
    (fun a b _ _ ha hb => absurd rfl (ha.trans hb).ne) h h'

end

end Dpos.HeadMerge
