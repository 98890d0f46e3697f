import Dpos.LeafTree
import Mathlib.Data.List.Sort
import Mathlib.Data.Finmap

/-! The map a leaf tree stands for: insertion and removal with rebalancing,
lookup, rank and selection. Each operation has one specification, by the bindings
of the tree; the structural invariants travel with it. -/
namespace Dpos.LeafTree

open List Prod LeafTree

variable {K V : Type} [LinearOrder K]

/-- Bind `k` to `v`. The flag tells whether `k` was bound before; the tree is
rebalanced on the way up only when a leaf was added. -/
def set (k : K) (v : V) : LeafTree K V → LeafTree K V × Bool
  | .leaf x w =>
    if k < x then (.inner x (.leaf k v) (.leaf x w),false)
    else if k = x then (.leaf k v,true)
    else (.inner k (.leaf x w) (.leaf k v),false)
  | .inner s l r =>
    if k < s then
      let p := set k v l
      if p.2 then (.inner s p.1 r,true) else (balance (.inner s p.1 r),false)
    else
      let p := set k v r
      if p.2 then (.inner s l p.1,true) else (balance (.inner s l p.1),false)

/-- What a removal leaves: the tree, if it is not empty, the new least key if it changed, and the
removed value. -/
structure Removed (K V : Type) where
  tree : Option (LeafTree K V)
  newKey : Option K
  value : V

def remove (k : K) : LeafTree K V → Option (Removed K V)
  | .leaf x w => if k = x then some ⟨none,none,w⟩ else none
  | .inner s l r =>
    if k < s then
      match remove k l with
      | none => none
      | some ⟨none,_,w⟩ => some ⟨some r,some s,w⟩
      | some ⟨some l',nk,w⟩ => some ⟨some (balance (.inner s l' r)),nk,w⟩
    else
      match remove k r with
      | none => none
      | some ⟨none,_,w⟩ => some ⟨some l,none,w⟩
      | some ⟨some r',nk,w⟩ => some ⟨some (balance (.inner (nk.getD s) l r')),none,w⟩

/-- The value bound to `k`, found by the separators. -/
def lookup (k : K) : LeafTree K V → Option V
  | .leaf x w => if x = k then some w else none
  | .inner s l r => if k < s then lookup k l else lookup k r

/-- The number of keys below `k`, found by the separators. -/
def rank (k : K) : LeafTree K V → ℕ
  | .leaf x _ => if x < k then 1 else 0
  | .inner s l r => if k < s then rank k l else l.size + rank k r

variable {t : LeafTree K V} {k : K} {d : Removed K V} {m : Option (LeafTree K V)}
  {f : Finmap fun _ : K => V}

omit [LinearOrder K] in
lemma mem_keys_of_mem {p : K × V} (h : p ∈ t.toList) : p.1 ∈ t.keys := mem_map_of_mem h

lemma mem_toList_set (h : t.Ordered) (k : K) (v : V) (p : K × V) :
    p ∈ (set k v t).1.toList ↔ p = (k,v) ∨ (p.1 ≠ k ∧ p ∈ t.toList) := by
  induction t with
  | leaf x w =>
    have hn : x ≠ k → p = (x,w) → p.1 ≠ k := by
      rintro hne rfl
      exact hne
    rcases lt_trichotomy k x with hlt | rfl | hg
    · simp [set,if_pos hlt,toList,and_iff_right_of_imp (hn hlt.ne')]
    · have hw : ¬(p.1 ≠ k ∧ p = (k,w)) := by
        rintro ⟨hne,rfl⟩
        exact hne rfl
      simp only [set,lt_irrefl,if_false,if_true,toList,mem_singleton,or_iff_left hw]
    · simp [set,if_neg hg.not_gt,if_neg hg.ne',toList,and_iff_right_of_imp (hn hg.ne),or_comm]
  | inner s l r ihl ihr =>
    obtain ⟨hl,hr,hlt,hk⟩ := h
    by_cases hks : k < s
    · have hpr : p ∈ r.toList → p.1 ≠ k := fun hp he =>
        absurd (le_of_mem_right ⟨hl,hr,hlt,hk⟩ _ (mem_keys_of_mem hp)) (by rw [he]; exact hks.not_ge)
      have hm : p ∈ (set k v (inner s l r)).1.toList ↔
          p ∈ (set k v l).1.toList ∨ p ∈ r.toList := by
        simp only [set,if_pos hks]
        split_ifs <;> simp [toList]
      rw [hm,ihl hl,toList,mem_append,and_or_left,and_iff_right_of_imp hpr,or_assoc]
    · have hpl : p ∈ l.toList → p.1 ≠ k := fun hp he => hks (he ▸ hlt _ (mem_keys_of_mem hp))
      have hm : p ∈ (set k v (inner s l r)).1.toList ↔
          p ∈ l.toList ∨ p ∈ (set k v r).1.toList := by
        simp only [set,if_neg hks]
        split_ifs <;> simp [toList]
      rw [hm,ihr hr,toList,mem_append,and_or_left,and_iff_right_of_imp hpl,or_left_comm]

lemma mem_keys_set (h : t.Ordered) (k : K) (v : V) (x : K) : x ∈ (set k v t).1.keys ↔ x = k ∨ x ∈ t.keys := by
  simp only [keys,mem_map,mem_toList_set h]
  constructor
  · rintro ⟨p,rfl | ⟨_,hp⟩,rfl⟩
    · exact .inl rfl
    · exact .inr ⟨p,hp,rfl⟩
  · rintro (rfl | ⟨p,hp,rfl⟩)
    · exact ⟨(x,v),.inl rfl,rfl⟩
    · by_cases he : p.1 = k
      · exact ⟨(k,v),.inl rfl,he.symm⟩
      · exact ⟨p,.inr ⟨he,hp⟩,rfl⟩

lemma minKey_set (k : K) (v : V) (h : t.Ordered) (hk : t.minKey ≤ k) : (set k v t).1.minKey = t.minKey := by
  induction t with
  | leaf x w =>
    rcases (show x ≤ k from hk).eq_or_lt with rfl | hlt
    · simp [set,minKey]
    · simp [set,minKey,hlt.not_gt,hlt.ne']
  | inner s l r ihl _ =>
    simp only [set]
    split_ifs <;> simp only [minKey_balance,minKey,ihl h.1 hk]

lemma Ordered.set (h : t.Ordered) (k : K) (v : V) : (set k v t).1.Ordered := by
  induction t with
  | leaf x w =>
    simp only [LeafTree.set]
    split_ifs with h1 h2
    · simp [Ordered,minKey,h1]
    · trivial
    · simp [Ordered,minKey,lt_of_le_of_ne (not_lt.mp h1) (Ne.symm h2)]
  | inner s l r ihl ihr =>
    obtain ⟨hl,hr,hlt,hk⟩ := h
    by_cases hks : k < s
    · have ho : (inner s (LeafTree.set k v l).1 r).Ordered := by
        refine ⟨ihl hl,hr,?_,hk⟩
        intro x hx
        rcases (mem_keys_set hl k v x).mp hx with rfl | hx
        · exact hks
        · exact hlt x hx
      simp only [LeafTree.set,if_pos hks]
      split_ifs
      · exact ho
      · exact ho.balance
    · have ho : (inner s l (LeafTree.set k v r).1).Ordered := by
        refine ⟨hl,ihr hr,hlt,?_⟩
        rw [minKey_set k v hr (hk ▸ not_lt.mp hks),hk]
      simp only [LeafTree.set,if_neg hks]
      split_ifs
      · exact ho
      · exact ho.balance

lemma set_updated (h : t.Ordered) (k : K) (v : V) : (set k v t).2 = true ↔ k ∈ t.keys := by
  induction t with
  | leaf x w =>
    simp only [set,keys_leaf,mem_singleton]
    split_ifs with h1 h2
    · simp [h1.ne]
    · simp [h2]
    · simp [h2]
  | inner s l r ihl ihr =>
    by_cases hk : k < s
    · have hn : k ∉ r.keys := fun hx => (le_of_mem_right h k hx).not_gt hk
      have hl := ihl h.1
      simp only [set,if_pos hk,keys_inner,mem_append,hn,or_false,← hl]
      split_ifs <;> simp [*]
    · have hnl : k ∉ l.keys := fun hx => hk (h.2.2.1 k hx)
      have hr := ihr h.2.1
      simp only [set,if_neg hk,keys_inner,mem_append,hnl,false_or,← hr]
      split_ifs <;> simp [*]

/-- Insertion keeps the balance; an update keeps the height, an added leaf may
raise it by one. -/
theorem set_balanced (k : K) (v : V) (h : t.Balanced) :
    (set k v t).1.Balanced ∧ t.height ≤ (set k v t).1.height ∧ (set k v t).1.height ≤ t.height+1 ∧
      ((set k v t).2 = true → (set k v t).1.height = t.height) := by
  induction t with
  | leaf x w =>
    simp only [set]
    split_ifs <;> simp [Balanced,height]
  | inner s l r ihl ihr =>
    obtain ⟨hl,hr,h1,h2⟩ := h
    by_cases hk : k < s
    · obtain ⟨hb,hlo,hh,hup⟩ := ihl hl
      cases hu : (set k v l).2
      · obtain ⟨hb',hlo',hh'⟩ := balance_grow_left s hb hr h1 h2 hlo hh
        simp only [set,if_pos hk,hu]
        exact ⟨hb',hlo',hh',by simp⟩
      · have he := hup hu
        simp only [set,if_pos hk,hu,if_true,Balanced,height,he]
        exact ⟨⟨hb,hr,h1,h2⟩,le_refl _,by omega,fun _ => trivial⟩
    · obtain ⟨hb,hlo,hh,hup⟩ := ihr hr
      cases hu : (set k v r).2
      · obtain ⟨hb',hlo',hh'⟩ := balance_grow_right s hl hb h1 h2 hlo hh
        simp only [set,if_neg hk,hu]
        exact ⟨hb',hlo',hh',by simp⟩
      · have he := hup hu
        simp only [set,if_neg hk,hu,if_true,Balanced,height,he]
        exact ⟨⟨hl,hb,h1,h2⟩,le_refl _,by omega,fun _ => trivial⟩

lemma size_set (k : K) (v : V) (t : LeafTree K V) :
    (set k v t).1.size = if (set k v t).2 then t.size else t.size+1 := by
  induction t with
  | leaf x w =>
    simp only [set]
    by_cases h1 : k < x
    · simp [h1,size]
    by_cases h2 : k = x <;> simp [h1,h2,size]
  | inner s l r ihl ihr =>
    by_cases hk : k < s
    · cases hu : (set k v l).2 <;> simp [set,hk,hu,size,ihl]
      omega
    · cases hu : (set k v r).2 <;> simp [set,hk,hu,size,ihr]
      omega

/-! ### Removal -/

def contents : Option (LeafTree K V) → List (K × V)
  | none => []
  | some t => t.toList

omit [LinearOrder K] in
@[simp] lemma contents_some (t : LeafTree K V) : contents (some t) = t.toList := rfl
omit [LinearOrder K] in
@[simp] lemma contents_none : contents (none : Option (LeafTree K V)) = [] := rfl

lemma remove_eq_none (h : t.Ordered) (k : K) : remove k t = none ↔ k ∉ t.keys := by
  induction t with
  | leaf x w =>
    simp only [remove,keys_leaf,mem_singleton]
    split_ifs with he <;> simp [he]
  | inner s l r ihl ihr =>
    by_cases hk : k < s
    · have hn : k ∉ r.keys := fun hx => (le_of_mem_right h k hx).not_gt hk
      rw [keys_inner,mem_append,or_iff_left hn,← ihl h.1]
      simp only [remove,if_pos hk]
      rcases remove k l with _ | ⟨_ | _,_,_⟩ <;> simp
    · have hnl : k ∉ l.keys := fun hx => hk (h.2.2.1 k hx)
      rw [keys_inner,mem_append,or_iff_right hnl,← ihr h.2.1]
      simp only [remove,if_neg hk]
      rcases remove k r with _ | ⟨_ | _,_,_⟩ <;> simp

/-- What a removal leaves behind. The new least key is reported exactly when it
is not the old one, which is what the separators above need. -/
structure RemoveSpec (k : K) (t : LeafTree K V) (d : Removed K V) : Prop where
  removed : (k,d.value) ∈ t.toList
  rest : ∀ p, p ∈ contents d.tree ↔ p.1 ≠ k ∧ p ∈ t.toList
  ordered : ∀ u, d.tree = some u → u.Ordered ∧ u.minKey = d.newKey.getD t.minKey

lemma RemoveSpec.mem_keys {u : LeafTree K V} (h : RemoveSpec k t d) (hu : d.tree = some u) :
    ∀ x ∈ u.keys, x ∈ t.keys := by
  intro x hx
  obtain ⟨p,hp,rfl⟩ := mem_map.mp hx
  exact mem_keys_of_mem ((h.rest p).mp (by rw [hu]; exact hp)).2

lemma remove_spec (h : t.Ordered) (hd : remove k t = some d) : RemoveSpec k t d := by
  induction t generalizing d with
  | leaf x w =>
    simp only [remove] at hd
    split_ifs at hd with he
    cases hd
    subst he
    refine ⟨by simp [toList],?_,by simp⟩
    rintro ⟨a,b⟩
    simp only [contents_none,not_mem_nil,toList,mem_singleton,Prod.mk.injEq,false_iff]
    rintro ⟨hne,he,_⟩
    exact hne he
  | inner s l r ihl ihr =>
    obtain ⟨hl,hr,hlt,hmi⟩ := h
    have hor : (inner s l r).Ordered := ⟨hl,hr,hlt,hmi⟩
    by_cases hk : k < s
    · have hpr : ∀ p ∈ r.toList, p.1 ≠ k := fun p hp he =>
        absurd (le_of_mem_right hor _ (mem_keys_of_mem hp)) (by rw [he]; exact hk.not_ge)
      simp only [remove,if_pos hk] at hd
      rcases hrm : remove k l with _ | ⟨_ | l',nk,w⟩ <;> rw [hrm] at hd
      · simp at hd
      · -- the left child was the leaf that held the key
        cases hd
        have hs := ihl hl hrm
        refine ⟨by simp [toList,hs.removed],?_,?_⟩
        · intro p
          have hre := hs.rest p
          simp only [contents_none,not_mem_nil,false_iff] at hre
          simp only [contents_some,toList,mem_append,and_or_left,and_iff_right_of_imp (hpr p),hre,false_or]
        · rintro u hu
          cases hu
          exact ⟨hr,hmi⟩
      · cases hd
        have hs := ihl hl hrm
        obtain ⟨ho,hm⟩ := hs.ordered l' rfl
        refine ⟨by simp [toList,hs.removed],?_,?_⟩
        · intro p
          have hre := hs.rest p
          simp only [contents_some] at hre
          simp only [contents_some,toList_balance,toList,mem_append,and_or_left,and_iff_right_of_imp (hpr p),hre]
        · rintro u hu
          cases hu
          have hi : (inner s l' r).Ordered := ⟨ho,hr,fun x hx => hlt x (hs.mem_keys rfl x hx),hmi⟩
          refine ⟨hi.balance,?_⟩
          rw [minKey_balance]
          exact hm
    · have hpl : ∀ p ∈ l.toList, p.1 ≠ k := fun p hp he => hk (he ▸ hlt _ (mem_keys_of_mem hp))
      simp only [remove,if_neg hk] at hd
      rcases hrm : remove k r with _ | ⟨_ | r',nk,w⟩ <;> rw [hrm] at hd
      · simp at hd
      · -- the right child was the leaf that held the key
        cases hd
        have hs := ihr hr hrm
        refine ⟨by simp [toList,hs.removed],?_,?_⟩
        · intro p
          have hre := hs.rest p
          simp only [contents_none,not_mem_nil,false_iff] at hre
          simp only [contents_some,toList,mem_append,and_or_left,and_iff_right_of_imp (hpl p),hre,or_false]
        · rintro u hu
          cases hu
          exact ⟨hl,rfl⟩
      · cases hd
        have hs := ihr hr hrm
        obtain ⟨ho,hm⟩ := hs.ordered r' rfl
        refine ⟨by simp [toList,hs.removed],?_,?_⟩
        · intro p
          have hre := hs.rest p
          simp only [contents_some] at hre
          simp only [contents_some,toList_balance,toList,mem_append,and_or_left,and_iff_right_of_imp (hpl p),hre]
        · rintro u hu
          cases hu
          -- the separator is repaired with the least key of the new right subtree
          have hsp : r'.minKey = nk.getD s := by rw [hm,hmi]
          have hle : s ≤ nk.getD s := by
            rw [← hsp]
            exact le_of_mem_right hor _ (hs.mem_keys rfl _ r'.minKey_mem)
          have hi : (inner (nk.getD s) l r').Ordered := ⟨hl,ho,fun x hx => (hlt x hx).trans_le hle,hsp⟩
          refine ⟨hi.balance,?_⟩
          rw [minKey_balance]
          rfl

lemma remove_balanced (h : t.Balanced) (hd : remove k t = some d) : match d.tree with
    | none => t.height = 0
    | some u => u.Balanced ∧ u.height ≤ t.height ∧ t.height ≤ u.height+1 := by
  induction t generalizing d with
  | leaf x w =>
    simp only [remove] at hd
    split_ifs at hd
    cases hd
    rfl
  | inner s l r ihl ihr =>
    obtain ⟨hl,hr,h1,h2⟩ := h
    by_cases hk : k < s
    · simp only [remove,if_pos hk] at hd
      rcases hrm : remove k l with _ | ⟨_ | l',nk,w⟩ <;> rw [hrm] at hd
      · simp at hd
      · cases hd
        have he : l.height = 0 := ihl hl hrm
        simp only [height]
        exact ⟨hr,by omega,by omega⟩
      · cases hd
        obtain ⟨hb,hle,hg⟩ := ihl hl hrm
        exact balance_shrink s hb hr h1 h2 hle (le_refl _) (by omega)
    · simp only [remove,if_neg hk] at hd
      rcases hrm : remove k r with _ | ⟨_ | r',nk,w⟩ <;> rw [hrm] at hd
      · simp at hd
      · cases hd
        have he : r.height = 0 := ihr hr hrm
        simp only [height]
        exact ⟨hl,by omega,by omega⟩
      · cases hd
        obtain ⟨hb,hle,hg⟩ := ihr hr hrm
        have hh := balance_shrink (nk.getD s) hl hb h1 h2 (le_refl _) hle (by omega)
        exact hh

lemma size_remove (hd : remove k t = some d) : t.size = (contents d.tree).length + 1 := by
  induction t generalizing d with
  | leaf x w =>
    simp only [remove] at hd
    split_ifs at hd
    cases hd
    rfl
  | inner s l r ihl ihr =>
    simp only [remove] at hd
    split_ifs at hd
    · rcases hr : remove k l with _ | ⟨_ | l',nk,w⟩ <;> rw [hr] at hd
      · simp at hd
      all_goals
        cases hd
        have := ihl hr
        simp only [contents_none,contents_some,length_toList,size_balance,size,length_nil] at this ⊢
        omega
    · rcases hr : remove k r with _ | ⟨_ | r',nk,w⟩ <;> rw [hr] at hd
      · simp at hd
      all_goals
        cases hd
        have := ihr hr
        simp only [contents_none,contents_some,length_toList,size_balance,size,length_nil] at this ⊢
        omega

lemma lookup_eq_some (h : t.Ordered) (k : K) (v : V) : lookup k t = some v ↔ (k,v) ∈ t.toList := by
  induction t with
  | leaf x w =>
    simp only [lookup,toList,mem_singleton,Prod.mk.injEq]
    split_ifs with he
    · simp [he,eq_comm]
    · simp [Ne.symm he]
  | inner s l r ihl ihr =>
    by_cases hk : k < s
    · have hn : (k,v) ∉ r.toList := fun hp => (le_of_mem_right h k (mem_keys_of_mem hp)).not_gt hk
      simp only [lookup,if_pos hk,toList,mem_append,hn,or_false,ihl h.1]
    · have hnl : (k,v) ∉ l.toList := fun hp => hk (h.2.2.1 k (mem_keys_of_mem hp))
      simp only [lookup,if_neg hk,toList,mem_append,hnl,false_or,ihr h.2.1]

lemma lookup_isSome (h : t.Ordered) (k : K) : (lookup k t).isSome ↔ k ∈ t.keys := by
  simp only [Option.isSome_iff_exists,lookup_eq_some h,keys,mem_map,Prod.exists,
    exists_and_right,exists_eq_right]

lemma rank_eq_countP (h : t.Ordered) (k : K) : rank k t = t.keys.countP (· < k) := by
  induction t with
  | leaf x w => simp [rank,countP_cons]
  | inner s l r ihl ihr =>
    rw [keys_inner,countP_append]
    by_cases hk : k < s
    · have hz : r.keys.countP (· < k) = 0 := by
        rw [countP_eq_zero]
        intro x hx
        have := (hk.trans_le (le_of_mem_right h x hx)).not_gt
        simpa using this
      simp only [rank,if_pos hk,hz,add_zero,ihl h.1]
    · have ha : l.keys.countP (· < k) = l.size := by
        have hl : l.keys.length = l.size := by simp [keys]
        rw [← hl,countP_eq_length]
        intro x hx
        simpa using (h.2.2.1 x hx).trans_le (not_lt.mp hk)
      simp only [rank,if_neg hk,ha,ihr h.2.1]

lemma countP_lt_getElem {l : List K} (hl : l.Pairwise (· < ·)) {i : ℕ} (hi : l[i]? = some k) :
    l.countP (· < k) = i := by
  induction l generalizing i with
  | nil => simp at hi
  | cons x l ih =>
    rw [pairwise_cons] at hl
    cases i with
    | zero =>
      obtain rfl : x = k := by simpa using hi
      have : l.countP (· < x) = 0 := by
        rw [countP_eq_zero]
        intro y hy
        simpa using (hl.1 y hy).le
      simp [this]
    | succ i =>
      have hi : l[i]? = some k := by simpa using hi
      have hx : x < k := hl.1 k (mem_of_getElem? hi)
      rw [countP_cons_of_pos (by simpa using hx),ih hl.2 hi]

def mapVals (f : K → V → V) : LeafTree K V → LeafTree K V
  | .leaf k v => .leaf k (f k v)
  | .inner s l r => .inner s (mapVals f l) (mapVals f r)

section
variable (f : K → V → V)

omit [LinearOrder K]

@[simp] lemma height_mapVals (t : LeafTree K V) : (mapVals f t).height = t.height := by
  induction t with
  | leaf k v => rfl
  | inner s l r ihl ihr => simp only [mapVals,height,ihl,ihr]

@[simp] lemma skew_mapVals (t : LeafTree K V) : (mapVals f t).skew = t.skew := by
  cases t <;> simp [mapVals,skew]

lemma mapVals_rotateRight (t : LeafTree K V) : mapVals f (rotateRight t) = rotateRight (mapVals f t) := by
  rcases t with _ | ⟨k,_ | ⟨lk,a,b⟩,r⟩ <;> rfl

lemma mapVals_rotateLeft (t : LeafTree K V) : mapVals f (rotateLeft t) = rotateLeft (mapVals f t) := by
  rcases t with _ | ⟨k,l,_ | ⟨rk,a,b⟩⟩ <;> rfl

lemma mapVals_balance (t : LeafTree K V) : mapVals f (balance t) = balance (mapVals f t) := by
  cases t with
  | leaf k v => rfl
  | inner k l r =>
    have hs := skew_mapVals f (inner k l r)
    simp only [mapVals] at hs
    simp only [balance,mapVals,hs,skew_mapVals]
    split_ifs <;> simp [mapVals_rotateRight,mapVals_rotateLeft,mapVals]

lemma mapVals_mapVals (g : K → V → V) (t : LeafTree K V) :
    mapVals f (mapVals g t) = mapVals (fun k v => f k (g k v)) t := by
  induction t with
  | leaf k v => rfl
  | inner s l r ihl ihr => simp only [mapVals,ihl,ihr]

end

lemma set_mapVals (f : K → V → V) (k : K) (v : V) (t : LeafTree K V) :
    set k (f k v) (mapVals f t) = (mapVals f (set k v t).1,(set k v t).2) := by
  induction t with
  | leaf x w =>
    simp only [mapVals,set]
    split_ifs <;> rfl
  | inner s l r ihl ihr =>
    simp only [mapVals,set,ihl,ihr]
    split_ifs <;> simp only [mapVals_balance,mapVals]

def revalue (k : K) (v : V) : LeafTree K V → LeafTree K V := mapVals fun x w => if x = k then v else w

variable {t : LeafTree K V} {k : K} {kvs : List (K × V)}

lemma revalue_of_not_mem (hk : k ∉ t.keys) (v : V) : revalue k v t = t := by
  induction t with
  | leaf x w =>
    have hx : x ≠ k := fun h => hk (by simp [h])
    simp [revalue,mapVals,hx]
  | inner s l r ihl ihr =>
    rw [keys_inner,mem_append,not_or] at hk
    exact congrArg₂ (inner s) (ihl hk.1) (ihr hk.2)

lemma set_of_mem (h : t.Ordered) (hk : k ∈ t.keys) (v : V) : (set k v t).1 = revalue k v t := by
  induction t with
  | leaf x w =>
    obtain rfl : k = x := by simpa using hk
    simp [set,revalue,mapVals]
  | inner s l r ihl ihr =>
    obtain ⟨hl,hr,hlt,hs⟩ := h
    have hup := fun u hu => (set_updated (t:=u) hu k v).mpr
    rw [keys_inner,mem_append] at hk
    by_cases hks : k < s
    · have hkr : k ∉ r.keys := fun hm => not_lt.mpr (hs ▸ minKey_le hr k hm) hks
      have hkl := hk.resolve_right hkr
      simp only [set,if_pos hks,hup l hl hkl,if_true,ihl hl hkl]
      exact congrArg (inner s _) (revalue_of_not_mem hkr v).symm
    · have hkl : k ∉ l.keys := fun hm => hks (hlt k hm)
      have hkr := hk.resolve_left hkl
      simp only [set,if_neg hks,hup r hr hkr,if_true,ihr hr hkr]
      exact congrArg (inner s · _) (revalue_of_not_mem hkl v).symm

lemma set_eq_revalue_set (h : t.Ordered) (k : K) (v w : V) : (set k v t).1 = revalue k v (set k w t).1 := by
  by_cases hk : k ∈ t.keys
  · rw [set_of_mem h hk,set_of_mem h hk]
    simp only [revalue,mapVals_mapVals]
    congr 1
    ext x y
    split_ifs <;> rfl
  · have hs := set_mapVals (fun x y => if x = k then v else y) k w t
    rw [if_pos rfl] at hs
    change set k v (revalue k v t) = _ at hs
    rw [revalue_of_not_mem hk] at hs
    rw [hs]
    rfl

def WellFormed (m : Option (LeafTree K V)) : Prop := ∀ t, m = some t → t.Ordered ∧ t.Balanced

def insert (k : K) (v : V) : Option (LeafTree K V) → LeafTree K V × Bool
  | none => (.leaf k v,false)
  | some t => set k v t

def delete (k : K) (m : Option (LeafTree K V)) : Option (Removed K V) := m.bind (remove k)

def erase (k : K) (m : Option (LeafTree K V)) : Option (LeafTree K V) :=
  match delete k m with
  | none => m
  | some d => d.tree

lemma length_insert_le (k : K) (v : V) (m : Option (LeafTree K V)) :
    (contents (some (insert k v m).1)).length ≤ (contents m).length+1 := by
  cases m with
  | none => simp [insert,size]
  | some t =>
    have h := size_set k v t
    simp only [insert,contents_some,length_toList]
    split_ifs at h <;> omega

def insertAll (kvs : List (K × V)) (m : Option (LeafTree K V)) : Option (LeafTree K V) :=
  kvs.foldl (fun m kv => some (insert kv.1 kv.2 m).1) m

lemma insertAll_cons (kv : K × V) (kvs : List (K × V)) (m : Option (LeafTree K V)) :
    insertAll (kv :: kvs) m = insertAll kvs (some (insert kv.1 kv.2 m).1) := rfl

lemma length_insertAll_le (kvs : List (K × V)) (m : Option (LeafTree K V)) :
    (contents (insertAll kvs m)).length ≤ (contents m).length+kvs.length := by
  induction kvs generalizing m with
  | nil => exact le_refl _
  | cons kv kvs ih =>
    have h := length_insert_le kv.1 kv.2 m
    have hr := ih (some (insert kv.1 kv.2 m).1)
    rw [insertAll_cons,length_cons]
    omega

lemma insertAll_ne_none (hne : kvs ≠ []) (m : Option (LeafTree K V)) : ∃ t, insertAll kvs m = some t := by
  obtain ⟨kvs,kv,rfl⟩ := (eq_nil_or_concat kvs).resolve_left hne
  exact ⟨_,by rw [insertAll,concat_eq_append,foldl_append,foldl_cons,foldl_nil]⟩

lemma length_erase_le (k : K) (m : Option (LeafTree K V)) :
    (contents (erase k m)).length ≤ (contents m).length := by
  cases m with
  | none => rfl
  | some t =>
    simp only [erase,delete,Option.bind_some]
    cases hd : remove k t with
    | none => exact le_refl _
    | some d =>
      have h := size_remove hd
      simp only [contents_some,length_toList]
      omega

lemma WellFormed.insert (h : WellFormed m) (k : K) (v : V) : WellFormed (some (insert k v m).1) := by
  rintro t ht
  cases ht
  cases m with
  | none => exact ⟨trivial,trivial⟩
  | some t => exact ⟨(h t rfl).1.set k v,(set_balanced k v (h t rfl).2).1⟩

lemma WellFormed.insertAll (h : WellFormed m) (kvs : List (K × V)) : WellFormed (insertAll kvs m) :=
  foldlRecOn kvs _ h fun _ h kv _ => h.insert kv.1 kv.2

lemma mem_contents_insert (h : WellFormed m) (k : K) (v : V) (p : K × V) :
    p ∈ contents (some (insert k v m).1) ↔ p = (k,v) ∨ (p.1 ≠ k ∧ p ∈ contents m) := by
  cases m with
  | none => simp [insert,toList]
  | some t => exact mem_toList_set (h t rfl).1 k v p

lemma insertAll_revalue (k : K) (v : V) (hk : ∀ kv ∈ kvs, kv.1 ≠ k) (m : Option (LeafTree K V)) :
    insertAll kvs (m.map (revalue k v)) = (insertAll kvs m).map (revalue k v) := by
  induction kvs generalizing m with
  | nil => rfl
  | cons kv kvs ih =>
    rw [forall_mem_cons] at hk
    have hs : (insert kv.1 kv.2 (m.map (revalue k v))).1 = revalue k v (insert kv.1 kv.2 m).1 := by
      cases m with
      | none => simp [insert,revalue,mapVals,hk.1]
      | some t =>
        have h := set_mapVals (fun x w => if x = k then v else w) kv.1 kv.2 t
        rw [if_neg hk.1] at h
        exact congrArg fst h
    rw [insertAll_cons,insertAll_cons,hs]
    exact ih hk.2 (some _)

section
variable (h : WellFormed m)
include h

lemma mem_keys_insertAll (hk : k ∈ (contents m).map fst)
    (kvs : List (K × V)) : k ∈ (contents (insertAll kvs m)).map fst := by
  induction kvs generalizing m with
  | nil => exact hk
  | cons kv kvs ih =>
    refine ih (h.insert kv.1 kv.2) ?_
    obtain ⟨p,hp,rfl⟩ := mem_map.mp hk
    by_cases hpk : p.1 = kv.1
    · exact mem_map.mpr ⟨kv,(mem_contents_insert h _ _ _).mpr (.inl rfl),hpk.symm⟩
    · exact mem_map.mpr ⟨p,(mem_contents_insert h _ _ _).mpr (.inr ⟨hpk,hp⟩),rfl⟩

/-- Inserting a key again at the end is inserting the later value in its first place. -/
theorem insertAll_again (k : K) (v w : V) (hk : ∀ kv ∈ kvs, kv.1 ≠ k) :
    some (insert k v (insertAll ((k,w) :: kvs) m)).1 = insertAll ((k,v) :: kvs) m := by
  have hf1 : (insert k v m).1 = revalue k v (insert k w m).1 := by
    cases m with
    | none => simp [insert,revalue,mapVals]
    | some t => exact set_eq_revalue_set (h t rfl).1 k v w
  have hm := mem_keys_insertAll (h.insert k w)
    (mem_map.mpr ⟨(k,w),(mem_contents_insert h _ _ _).mpr (.inl rfl),rfl⟩) kvs
  have hw := (h.insert k w).insertAll kvs
  have hp := insertAll_revalue k v hk (some (insert k w m).1)
  rw [insertAll_cons,insertAll_cons,hf1]
  change _ = insertAll kvs ((some (insert k w m).1).map (revalue k v))
  rw [hp]
  cases ha : insertAll kvs (some (insert k w m).1) with
  | none => simp [ha] at hm
  | some t =>
    rw [ha] at hm hw
    exact congrArg some (set_of_mem (hw t rfl).1 hm v)

lemma insert_updated (k : K) (v : V) : (insert k v m).2 = true ↔ ∃ w, (k,w) ∈ contents m := by
  cases m with
  | none => simp [insert]
  | some t => simp [insert,set_updated (h t rfl).1,keys]

lemma delete_eq_none (k : K) : delete k m = none ↔ ∀ w, (k,w) ∉ contents m := by
  cases m with
  | none => simp [delete]
  | some t => simp [delete,remove_eq_none (h t rfl).1,keys]

lemma delete_value (hd : delete k m = some d) : (k,d.value) ∈ contents m := by
  cases m with
  | none => simp [delete] at hd
  | some t => exact (remove_spec (h t rfl).1 hd).removed

lemma WellFormed.erase (k : K) : WellFormed (erase k m) := by
  cases m with
  | none => exact h
  | some t =>
    simp only [erase]
    cases hd : delete k (some t) with
    | none => exact h
    | some d =>
      intro u hu
      have hb := remove_balanced (h t rfl).2 hd
      simp only at hu
      rw [hu] at hb
      exact ⟨((remove_spec (h t rfl).1 hd).ordered u hu).1,hb.1⟩

lemma mem_contents_erase (k : K) (p : K × V) : p ∈ contents (erase k m) ↔ p.1 ≠ k ∧ p ∈ contents m := by
  simp only [erase]
  cases hd : delete k m with
  | none =>
    have hn := (delete_eq_none h k).mp hd
    refine ⟨fun hp => ⟨?_,hp⟩,fun hp => hp.2⟩
    rintro rfl
    exact hn p.2 hp
  | some d =>
    cases m with
    | none => simp [delete] at hd
    | some t => exact (remove_spec (h t rfl).1 hd).rest p

lemma WellFormed.sorted : ((contents m).map fst).Pairwise (· < ·) := by
  cases m with
  | none => simp
  | some t => exact (h t rfl).1.sorted

end

/-- The bindings of the tree are those of the finite map. -/
def Models (m : Option (LeafTree K V)) (f : Finmap fun _ : K => V) : Prop :=
  ∀ k v, (k,v) ∈ contents m ↔ f.lookup k = some v

lemma models_empty : Models (none : Option (LeafTree K V)) ∅ := by
  intro k v
  simp

lemma exists_models (h : WellFormed m) : ∃ f : Finmap fun _ : K => V, Models m f := by
  have hn : ((contents m).map toSigma).NodupKeys := by
    have hk : ((contents m).map toSigma).keys = (contents m).map fst := by
      simp [List.keys,Function.comp_def]
    rw [List.NodupKeys,hk]
    exact h.sorted.imp ne_of_lt
  refine ⟨((contents m).map toSigma).toFinmap,fun k v => ?_⟩
  rw [Finmap.dlookup_list_toFinmap,← Option.mem_def,mem_dlookup_iff hn]
  exact (mem_map_of_injective toSigma_injective).symm

section
variable (h : WellFormed m) (hf : Models m f)
include h hf

lemma Models.insert (k : K) (v : V) :
    Models (some (insert k v m).1) (f.insert k v) := by
  intro x w
  rw [mem_contents_insert h]
  by_cases hx : x = k
  · subst hx
    simp [Finmap.lookup_insert,eq_comm]
  · simp [Finmap.lookup_insert_of_ne _ hx,hx,hf x w]

lemma Models.insertAll (kvs : List (K × V)) :
    Models (insertAll kvs m) (kvs.foldl (fun f kv => f.insert kv.1 kv.2) f) := by
  induction kvs generalizing m f with
  | nil => exact hf
  | cons kv kvs ih => exact ih (h.insert kv.1 kv.2) (hf.insert h kv.1 kv.2)

lemma Models.erase (k : K) : Models (erase k m) (f.erase k) := by
  intro x w
  rw [mem_contents_erase h]
  by_cases hx : x = k
  · subst hx
    simp
  · simp [Finmap.lookup_erase_ne hx,hx,hf x w]

end

lemma Models.mem_keys (hf : Models m f) (k : K) : k ∈ f.keys ↔ k ∈ (contents m).map Prod.fst := by
  simp only [Finmap.mem_keys,mem_map,Prod.exists,exists_and_right,exists_eq_right,hf k]
  rw [← Finmap.lookup_isSome,Option.isSome_iff_exists]

lemma Models.keys_eq (hf : Models m f) : f.keys = ((contents m).map fst).toFinset := by
  ext k
  rw [mem_toFinset,hf.mem_keys]

lemma Models.card (h : WellFormed m) (hf : Models m f) : f.keys.card = (contents m).length := by
  have hn : ((contents m).map fst).Nodup := h.sorted.imp fun hlt => hlt.ne
  rw [hf.keys_eq,toFinset_card_of_nodup hn,length_map]

lemma Models.card_lt (h : WellFormed m) (hf : Models m f) (k : K) :
    (f.keys.filter (· < k)).card = ((contents m).map fst).countP (· < k) := by
  have hn : ((contents m).map fst).Nodup := h.sorted.imp fun hlt => hlt.ne
  rw [hf.keys_eq,countP_eq_length_filter,← toFinset_card_of_nodup (hn.filter _),toFinset_filter]
  simp

lemma Models.lookup_isSome_iff (hf : Models m f) (k : K) :
    (f.lookup k).isSome = true ↔ ∃ v, (k,v) ∈ contents m := by
  rw [Option.isSome_iff_exists]
  exact exists_congr fun v => (hf k v).symm

lemma Models.lookup_eq_none (hf : Models (none : Option (LeafTree K V)) f) (k : K) : f.lookup k = none := by
  cases h : f.lookup k with
  | none => rfl
  | some v => simpa using (hf k v).mpr h

lemma Models.lookup_eq (h : t.Ordered) (hf : Models (some t) f) (k : K) : lookup k t = f.lookup k := by
  apply Option.ext
  intro v
  rw [lookup_eq_some h]
  exact hf k v

lemma Models.rank_eq (h : WellFormed (some t)) (hf : Models (some t) f) (k : K) :
    rank k t = (f.keys.filter (· < k)).card := by
  rw [hf.card_lt h,rank_eq_countP (h t rfl).1]
  rfl

end Dpos.LeafTree
