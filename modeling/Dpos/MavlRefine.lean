import Dpos.MavlHolds

/-! The node operations refine those of the search tree: on a node that stands
for some bindings, lookup, insertion and removal never panic, and they return
what the search tree returns, with a node that stands for the new bindings. -/
namespace Dpos.Mavl

open LeafTree

variable {D : Type} {w : View D} {t : Tree D} {v' k : Bytes}

/-- What reading a bound value gives: no bytes for nothing, and for a value that went through the
database what its record kept. -/
def Reads (w : View D) : Option Bytes → Bytes → Prop
  | none, v' => v' = []
  | some v, v' => v' = v ∨ ((∃ k h, w.stored (.leaf k v) h) ∧ v' = storedValue w.config v)

def View.Exact (w : View D) : Prop := ∀ k v h, w.stored (.leaf k v) h → storedValue w.config v = v

lemma Reads.eq_getD (hx : w.Exact) {o : Option Bytes} (h : Reads w o v') : v' = o.getD [] := by
  cases o with
  | none => exact h
  | some v =>
    rcases h with rfl | ⟨⟨k,hk,hs⟩,rfl⟩
    · rfl
    · exact hx k v hk hs

lemma Holds.reads_leaf {v : Bytes} {hash : Option (HashKey D)} {p : Bool}
    (hv : v' = v ∨ (p = true ∧ v' = storedValue w.config v)) (ho : HashOk w (.leaf k v) True hash p) :
    Reads w (some v) v' := by
  rcases hv with hv | ⟨hp,hv⟩
  · exact .inl hv
  · obtain ⟨h,_,hs⟩ := ho.stored hp
    exact .inr ⟨⟨k,h,hs⟩,hv⟩

lemma Fresh.new (w : View D) (k v : Bytes) : Fresh w (.leaf k v) (.new k v) :=
  ⟨⟨v,none,false,rfl,.inl rfl,by simp,by simp,by simp⟩,rfl,rfl⟩

lemma Fresh.split {kl vl kr vr : Bytes} {nl nr : Node D} (hl : Holds w (.leaf kl vl) nl)
    (hr : Holds w (.leaf kr vr) nr) :
    Fresh w (.inner k (.leaf kl vl) (.leaf kr vr)) (.mk k [] 1 2 none none nl none nr false) := by
  have e1 : int32 (LeafTree.inner k (.leaf kl vl) (.leaf kr vr)).height = 1 := by
    simp only [LeafTree.height]
    decide
  have e2 : int32 (LeafTree.inner k (.leaf kl vl) (.leaf kr vr)).size = 2 := by
    simp only [LeafTree.size]
    decide
  refine ⟨⟨by simp [LeafTree.height],none,none,nl,none,nr,false,?_,⟨by simp,by simp,by simp⟩,
    hl.child none,hr.child none⟩,rfl,rfl⟩
  rw [e1,e2]

variable {b : Bindings} {n : Node D} {fuel : ℕ}

lemma Holds.set (hw : w.Serves t) (key va : Bytes) (hb : b.Balanced) (h : Holds w b n)
    (hf : b.height < fuel) (hlt : b.height+3 < 2^31) :
    ∃ n', n.set t key va fuel = .ok (n',(LeafTree.set key va b).2) ∧ Fresh w (LeafTree.set key va b).1 n' := by
  induction b generalizing n fuel with
  | leaf k v =>
    obtain ⟨fuel,rfl⟩ := exists_fuel hf
    have hor : n.removeOrphan t = .ok () := h.removeOrphan
    obtain ⟨v',hash,p,rfl,hv,ho⟩ := id h
    simp only [Node.set,LeafTree.set,Bytes.compare_neg,Bytes.compare_eq_zero,if_true]
    by_cases h1 : key < k
    · simp only [if_pos h1]
      exact ⟨_,rfl,Fresh.split (Fresh.new w key va).1 h⟩
    by_cases h2 : key = k
    · simp only [if_neg h1,if_pos h2,hor,ok_bind]
      exact ⟨_,rfl,Fresh.new w key va⟩
    · simp only [if_neg h1,if_neg h2]
      exact ⟨_,rfl,Fresh.split h (Fresh.new w key va).1⟩
  | inner k l r ihl ihr =>
    obtain ⟨hbl,hbr,hl,hge⟩ := id hb
    obtain ⟨fuel,rfl,hhl,hhr⟩ := exists_fuel_inner hf
    have hor : n.removeOrphan t = .ok () := h.removeOrphan
    obtain ⟨n1,hn1,hf1⟩ := h.copy
    have hz := int32_height_ne_zero h.1
    obtain ⟨_,hash,lh,ln,rh,rn,p,rfl,_⟩ := h
    simp only [Node.set,LeafTree.set,Bytes.compare_neg,if_neg hz,hor,ok_bind,hn1]
    by_cases hk : key < k
    · obtain ⟨m,hm,hml⟩ := hf1.parts.kids.getLeftNode hw
      obtain ⟨n2,hn2,hf2⟩ := ihl hbl hml (by omega : l.height < fuel) (by omega)
      obtain ⟨_,_,hg,hs⟩ := set_balanced key va hbl
      have hsz := size_set key va l
      simp only [if_pos hk,hm,ok_bind,hn2]
      cases hu : (LeafTree.set key va l).2 with
      | true =>
        rw [if_pos rfl]
        exact ⟨_,rfl,hf1.withLeft (hf2.1.child none) (hs hu) (by simpa [hu] using hsz)⟩
      | false =>
        have hh : (inner k (LeafTree.set key va l).1 r).height ≤
            (inner k l r).height+1 := by simp only [height]; omega
        obtain ⟨n3,hn3,hf3⟩ := (hf1.parts.withLeft (hf2.1.child none)).calcHeightAndSize hw (by omega)
        obtain ⟨n4,hn4,hf4⟩ := hf3.balance hw (by omega)
        exact ⟨n4,by rw [hn3,ok_bind,hn4]; rfl,hf4⟩
    · obtain ⟨m,hm,hmr⟩ := hf1.parts.kids.getRightNode hw
      obtain ⟨n2,hn2,hf2⟩ := ihr hbr hmr (by omega : r.height < fuel) (by omega)
      obtain ⟨_,_,hg,hs⟩ := set_balanced key va hbr
      have hsz := size_set key va r
      simp only [if_neg hk,hm,ok_bind,hn2]
      cases hu : (LeafTree.set key va r).2 with
      | true =>
        rw [if_pos rfl]
        exact ⟨_,rfl,hf1.withRight (hf2.1.child none) (hs hu) (by simpa [hu] using hsz)⟩
      | false =>
        have hh : (inner k l (LeafTree.set key va r).1).height ≤
            (inner k l r).height+1 := by simp only [height]; omega
        obtain ⟨n3,hn3,hf3⟩ := (hf1.parts.withRight (hf2.1.child none)).calcHeightAndSize hw (by omega)
        obtain ⟨n4,hn4,hf4⟩ := hf3.balance hw (by omega)
        exact ⟨n4,by rw [hn3,ok_bind,hn4]; rfl,hf4⟩

def ChildOrNil (w : View D) (h : Option (HashKey D)) (n : Node D) : Option Bindings → Prop
  | none => h = none ∧ n = .nil
  | some b => Child w b h n

lemma ChildOrNil.isNil_iff {h : Option (HashKey D)} {o : Option Bindings}
    (hc : ChildOrNil w h n o) : (h = none ∧ n.isNil) ↔ o = none := by
  rw [Node.isNil_iff]
  cases o with
  | none => simp [hc.1,hc.2]
  | some b =>
    rcases hc with ⟨hne,_⟩ | ⟨_,hk,rfl,_⟩
    · simp [hne]
    · simp

/-- The results of a removal against those of the search tree. -/
def Removes (w : View D) (r : Node.Removal D) : Option (Removed Bytes Bytes) → Prop
  | none => r.removed = false ∧ r.value = []
  | some d => r.removed = true ∧ r.newKey = d.newKey ∧ Reads w (some d.value) r.value ∧
      ChildOrNil w r.newHash r.newNode d.tree

lemma Holds.remove (hw : w.Serves t) (key : Bytes) (hb : b.Balanced) (h : Holds w b n)
    (hf : b.height < fuel) (hlt : b.height+2 < 2^31) :
    ∃ r, n.remove t key fuel = .ok r ∧ Removes w r (remove key b) := by
  induction b generalizing n fuel with
  | leaf k v =>
    obtain ⟨fuel,rfl⟩ := exists_fuel hf
    have hor : n.removeOrphan t = .ok () := h.removeOrphan
    obtain ⟨v',hash,p,rfl,hv,ho⟩ := h
    simp only [Node.remove,remove,if_true]
    by_cases h2 : key = k
    · simp only [if_pos h2,hor,ok_bind]
      exact ⟨_,rfl,rfl,rfl,reads_leaf hv ho,rfl,rfl⟩
    · simp only [if_neg h2]
      exact ⟨_,rfl,rfl,rfl⟩
  | inner k l r ihl ihr =>
    obtain ⟨hbl,hbr,hl,hg⟩ := hb
    obtain ⟨fuel,rfl,hhl,hhr⟩ := exists_fuel_inner hf
    have hor : n.removeOrphan t = .ok () := h.removeOrphan
    obtain ⟨n1,hn1,hf1⟩ := h.copy
    have hz := int32_height_ne_zero h.1
    have hk := h.kids
    obtain ⟨_,hash,lh,ln,rh,rn,p,rfl,_,hc,hcr⟩ := h
    simp only [Node.remove,remove,Bytes.compare_neg,if_neg hz]
    by_cases hks : key < k
    · obtain ⟨m,hm,hml⟩ := hk.getLeftNode hw
      obtain ⟨q,hq,hr⟩ := ihl hbl hml (by omega : l.height < fuel) (by omega)
      simp only [if_pos hks,hm,ok_bind,hq]
      rcases hre : remove key l with _ | ⟨tree,nk,v⟩ <;> rw [hre] at hr
      · obtain ⟨hr1,hr2⟩ := hr
        simp only [hr1,if_true]
        exact ⟨_,rfl,rfl,hr2⟩
      obtain ⟨hr1,hr2,hr3,hr4⟩ := hr
      simp only [hr1,Bool.true_eq_false,if_false,hr4.isNil_iff]
      rcases tree with _ | l'
      · simp only [if_true]
        exact ⟨_,rfl,rfl,rfl,hr3,hcr⟩
      · obtain ⟨_,hh,_⟩ := remove_balanced hbl hre
        have hh' : (inner k l' r).height ≤ (inner k l r).height := by
          simp only [height]
          omega
        obtain ⟨n3,hn3,hf3⟩ := (hf1.parts.withLeft hr4).calcHeightAndSize hw (by omega)
        obtain ⟨n4,hn4,hf4⟩ := hf3.balance hw (by omega)
        simp only [reduceCtorEq,if_false,hor,ok_bind,hn1,hn3,hn4]
        exact ⟨_,rfl,rfl,hr2,hr3,hf4.1.child _⟩
    · obtain ⟨m,hm,hmr⟩ := hk.getRightNode hw
      obtain ⟨q,hq,hr⟩ := ihr hbr hmr (by omega : r.height < fuel) (by omega)
      simp only [if_neg hks,hm,ok_bind,hq]
      rcases hre : remove key r with _ | ⟨tree,nk,v⟩ <;> rw [hre] at hr
      · obtain ⟨hr1,hr2⟩ := hr
        simp only [hr1,if_true]
        exact ⟨_,rfl,rfl,hr2⟩
      obtain ⟨hr1,hr2,hr3,hr4⟩ := hr
      simp only [hr1,Bool.true_eq_false,if_false,hr4.isNil_iff]
      rcases tree with _ | r'
      · simp only [if_true]
        exact ⟨_,rfl,rfl,rfl,hr3,hc⟩
      · obtain ⟨_,hh,_⟩ := remove_balanced hbr hre
        have hh' : (inner (nk.getD k) l r').height ≤ (inner k l r).height := by
          simp only [height]
          omega
        -- the separator becomes the new least key of the right subtree
        obtain ⟨n3,hn3,hf3⟩ := ((hf1.parts.withRight hr4).withNewKey nk).calcHeightAndSize hw (by omega)
        obtain ⟨n4,hn4,hf4⟩ := hf3.balance hw (by omega)
        simp only [reduceCtorEq,if_false,hor,ok_bind,hn1,hr2,hn3,hn4]
        exact ⟨_,rfl,rfl,rfl,hr3,hf4.1.child _⟩

lemma Holds.has (hw : w.Serves t) (key : Bytes) (hb : b.Ordered) (h : Holds w b n)
    (hf : b.height < fuel) : n.has t key fuel = .ok (decide (key ∈ b.keys)) := by
  induction b generalizing n fuel with
  | leaf k v =>
    obtain ⟨fuel,rfl⟩ := exists_fuel hf
    obtain ⟨v',hash,p,rfl,hv,ho⟩ := h
    by_cases hk : k = key
    · simp [Node.has,hk]
    · simp [Node.has,hk,Ne.symm hk]
  | inner k l r ihl ihr =>
    obtain ⟨fuel,rfl,hh,hhr⟩ := exists_fuel_inner hf
    obtain ⟨ml,hm,hl⟩ := h.kids.getLeftNode hw
    obtain ⟨mr,hmr,hr⟩ := h.kids.getRightNode hw
    have hz := int32_height_ne_zero h.1
    obtain ⟨_,hash,lh,ln,rh,rn,p,rfl,_⟩ := h
    simp only [Node.has,Bytes.compare_neg,if_neg hz,hm,hmr,ok_bind,keys_inner,List.mem_append]
    by_cases hk : k = key
    · -- a separator is the least key of the right subtree, so it is bound
      have hme : key ∈ r.keys := by rw [← hk,← hb.2.2.2]; exact r.minKey_mem
      simp [if_pos hk,hme]
    by_cases hks : key < k
    · have hn : key ∉ r.keys := fun hx => (le_of_mem_right hb key hx).not_gt hks
      rw [if_neg hk,if_pos hks,ihl hb.1 hl (by omega)]
      simp [hn]
    · have hnl : key ∉ l.keys := fun hx => hks (hb.2.2.1 key hx)
      rw [if_neg hk,if_neg hks,ihr hb.2.1 hr (by omega)]
      simp [hnl]

lemma Holds.get (hw : w.Serves t) (key : Bytes) (h : Holds w b n) (hf : b.height < fuel) :
    ∃ v', n.get t key fuel = .ok (int32 (rank key b),v',(lookup key b).isSome) ∧
      Reads w (lookup key b) v' := by
  induction b generalizing n fuel with
  | leaf k v =>
    obtain ⟨fuel,rfl⟩ := exists_fuel hf
    obtain ⟨v',hash,p,rfl,hv,ho⟩ := h
    simp only [Node.get,rank,lookup,if_true,Bytes.compare_eq_zero,Bytes.compare_eq_neg_one]
    by_cases hk : k = key
    · subst hk
      refine ⟨v',?_,?_⟩
      · simp only [if_true,lt_irrefl,if_false,Option.isSome_some]
        rfl
      · simpa using reads_leaf hv ho
    · refine ⟨[],?_,by simp [hk,Reads]⟩
      by_cases hlt : k < key
      · simp only [if_neg hk,if_pos hlt,Option.isSome_none]
        rfl
      · simp only [if_neg hk,if_neg hlt,Option.isSome_none]
        rfl
  | inner k l r ihl ihr =>
    obtain ⟨fuel,rfl,hh,hhr⟩ := exists_fuel_inner hf
    obtain ⟨ml,hm,hl⟩ := h.kids.getLeftNode hw
    obtain ⟨mr,hmr,hr⟩ := h.kids.getRightNode hw
    have hz := int32_height_ne_zero h.1
    obtain ⟨_,hash,lh,ln,rh,rn,p,rfl,_⟩ := h
    simp only [Node.get,rank,lookup,Bytes.compare_neg,if_neg hz,hm,hmr,ok_bind,hr.size_eq]
    by_cases hks : key < k
    · simp only [if_pos hks]
      exact ihl hl (by omega)
    · obtain ⟨v',hv',hrd⟩ := ihr hr (by omega : r.height < fuel)
      simp only [if_neg hks,hv',ok_bind]
      refine ⟨v',?_,hrd⟩
      have e : int32 (int32 (rank key r) +
          int32 (int32 (inner k l r).size - int32 r.size)) =
          int32 ((l.size + rank key r : ℕ) : ℤ) := by
        simp only [int32,Word.wrap_sub_wrap,Word.wrap_add_wrap,size]
        push_cast
        ring_nf
      rw [e]
      rfl

lemma Holds.getByIndex (hw : w.Serves t) (hs : b.size < 2^31) (h : Holds w b n)
    (hf : b.height < fuel) {i : ℕ} (hi : i < b.size) :
    ∃ k v v', b.toList[i]? = some (k,v) ∧ n.getByIndex t i fuel = .ok (k,v') ∧ Reads w (some v) v' := by
  induction b generalizing n fuel i with
  | leaf k v =>
    obtain ⟨fuel,rfl⟩ := exists_fuel hf
    obtain ⟨v',hash,p,rfl,hv,ho⟩ := h
    obtain rfl : i = 0 := by simpa [size] using hi
    exact ⟨k,v,v',rfl,rfl,reads_leaf hv ho⟩
  | inner k l r ihl ihr =>
    simp only [size] at hs hi
    obtain ⟨fuel,rfl,hh,hhr⟩ := exists_fuel_inner hf
    obtain ⟨ml,hm,hl⟩ := h.kids.getLeftNode hw
    obtain ⟨mr,hmr,hr⟩ := h.kids.getRightNode hw
    have hz := int32_height_ne_zero h.1
    have hsl : int32 l.size = l.size := Word.wrap_eq_self (by constructor <;> push_cast <;> omega)
    obtain ⟨_,hash,lh,ln,rh,rn,p,rfl,_⟩ := h
    simp only [Node.getByIndex,if_neg hz,hm,hmr,ok_bind,hl.size_eq,hsl]
    by_cases hlt : i < l.size
    · obtain ⟨k',v,v',hg,hrun,hrd⟩ := ihl (by omega) hl (by omega : l.height < fuel) hlt
      refine ⟨k',v,v',?_,?_,hrd⟩
      · rw [toList,List.getElem?_append_left (by simpa using hlt),hg]
      · rw [if_pos (by exact_mod_cast hlt),hrun]
    · obtain ⟨k',v,v',hg,hrun,hrd⟩ := ihr (by omega) hr (by omega : r.height < fuel) (i:=i - l.size) (by omega)
      refine ⟨k',v,v',?_,?_,hrd⟩
      · rw [toList,List.getElem?_append_right (by simp; omega),length_toList,hg]
      · have e : int32 ((i : ℤ) - l.size) = ((i - l.size : ℕ) : ℤ) := by
          rw [show (i : ℤ) - l.size = ((i - l.size : ℕ) : ℤ) by omega]
          exact Word.wrap_eq_self (by constructor <;> push_cast <;> omega)
        rw [if_neg (by exact_mod_cast hlt),e,hrun]

end Dpos.Mavl
