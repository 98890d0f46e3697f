import Dpos.MavlStore

/-! Walking through the keys of a range. The walk skips a subtree when the separator
above it lies outside the range; since a separator is the least key on its right,
nothing of the range is skipped. -/
namespace Dpos.Mavl

open LeafTree List Mavl.Tree

variable {D σ : Type}

/-- Calls on the pairs in order, up to the first that returns true: whether there was one, and the
state of the callback. -/
def visit (fn : Bytes → Bytes → σ → Bool × σ) : List (Bytes × Bytes) → σ → Bool × σ
  | [], x => (false,x)
  | p :: l, x =>
    let r := fn p.1 p.2 x
    if r.1 then r else visit fn l r.2

variable (fn : Bytes → Bytes → σ → Bool × σ) {t : Tree D}

lemma visit_append (l l' : List (Bytes × Bytes)) (x : σ) : visit fn (l ++ l') x =
      if (visit fn l x).1 then visit fn l x else visit fn l' (visit fn l x).2 := by
  induction l generalizing x with
  | nil => rfl
  | cons p l ih =>
    simp only [cons_append,visit]
    by_cases hs : (fn p.1 p.2 x).1 = true
    · simp only [hs,if_true]
    · simp only [hs,Bool.false_eq_true,if_false,ih]

lemma visit_two_parts {first se : Bool}
    {l l' : List (Bytes × Bytes)} (h : first = false → l = []) (h' : se = false → l' = []) (x : σ) :
    (if first then if (visit fn l x).1 then .ok (visit fn l x)
      else if se then .ok (visit fn l' (visit fn l x).2) else .ok (visit fn l x)
    else if se then .ok (visit fn l' x) else .ok (false,x) : Result (Bool × σ)) =
      .ok (visit fn (l ++ l') x) := by
  rw [visit_append]
  cases first with
  | true =>
    by_cases hs : (visit fn l x).1 = true
    · simp only [hs,if_true]
    · cases se with
      | true => simp only [hs,if_true,Bool.false_eq_true,if_false]
      | false =>
        have hf : visit fn l x = (false,(visit fn l x).2) := Prod.ext (Bool.eq_false_of_not_eq_true hs) rfl
        simp only [hs,if_true,Bool.false_eq_true,if_false,h' rfl,visit]
        exact congrArg Except.ok hf
  | false =>
    rw [h rfl]
    cases se with
    | true => rfl
    | false => rw [h' rfl]; rfl

/-- Absent bounds do not bound; only the upper one may be exclusive. -/
def within (start stop : Option Bytes) (inclusive : Bool) (key : Bytes) : Bool :=
  start.all (· ≤ key) && stop.all fun e => if inclusive then key ≤ e else key < e

def inOrder (asc : Bool) (l : List (Bytes × Bytes)) : List (Bytes × Bytes) :=
  if asc then l else l.reverse

namespace Node

/-- `traverseInRange`, with the state that the callback reads and writes. -/
def traverseInRange (t : Tree D) (start stop : Option Bytes) (asc inclusive : Bool)
    (cb : Node D → UInt8 → σ → Bool × σ) : ℕ → Node D → UInt8 → σ → Result (Bool × σ)
  | 0, _, _, _ => .error .depth
  | _+1, .nil, _, _ => .error .nilPointer
  | n+1, .mk k v height size hash lh ln rh rn p, depth, x => do
    let node := Node.mk k v height size hash lh ln rh rn p
    let afterStart := start.all fun start => Bytes.compare start k ≤ 0
    let beforeEnd := if inclusive then stop.all fun stop => Bytes.compare k stop ≤ 0
      else stop.all fun stop => Bytes.compare k stop < 0
    let r := if afterStart && beforeEnd then cb node depth x else (false,x)
    if r.1 then return r
    else if height = 0 then return r
    else if asc then
      let r ← if afterStart then
          traverseInRange t start stop asc inclusive cb n (← node.getLeftNode t) (depth+1) r.2
        else pure r
      if r.1 then return r
      else if beforeEnd then
        traverseInRange t start stop asc inclusive cb n (← node.getRightNode t) (depth+1) r.2
      else return r
    else
      let r ← if beforeEnd then
          traverseInRange t start stop asc inclusive cb n (← node.getRightNode t) (depth+1) r.2
        else pure r
      if r.1 then return r
      else if afterStart then
        traverseInRange t start stop asc inclusive cb n (← node.getLeftNode t) (depth+1) r.2
      else return r

def onLeaf (fn : Bytes → Bytes → σ → Bool × σ) : Node D → UInt8 → σ → Bool × σ
  | .nil, _, x => (false,x)
  | .mk key value height _ _ _ _ _ _ _, _, x => if height = 0 then fn key value x else (false,x)

end Node

namespace Tree

def iterateRange (t : Tree D) (start stop : Option Bytes) (asc : Bool)
    (fn : Bytes → Bytes → σ → Bool × σ) (x : σ) : Result (Bool × σ) :=
  match t.root with
  | .nil => .ok (false,x)
  | root => root.traverseInRange t start stop asc false (Node.onLeaf fn) maxDepth 0 x

def iterateRangeInclusive (t : Tree D) (start stop : Option Bytes) (asc : Bool)
    (fn : Bytes → Bytes → σ → Bool × σ) (x : σ) : Result (Bool × σ) :=
  match t.root with
  | .nil => .ok (false,x)
  | root => root.traverseInRange t start stop asc true (Node.onLeaf fn) maxDepth 0 x

end Tree

lemma compare_nonpos {a b : Bytes} : Bytes.compare a b ≤ 0 ↔ a ≤ b := by
  unfold Bytes.compare
  split_ifs with hlt he
  · simp [hlt.le]
  · simp [he]
  · simp [lt_of_le_of_ne (not_lt.mp hlt) (Ne.symm he)]

section
variable {w : View D} {t : Tree D} {b : Bindings} {n : Node D} {f : ℕ} {k : Bytes} {l : List (Bytes × Bytes)}

lemma filter_within_left (st sp : Option Bytes) (i : Bool) (hl : ∀ p ∈ l, p.1 < k)
    (h : (st.all fun st => Bytes.compare st k ≤ 0) = false) : (l.filter fun p => within st sp i p.1) = [] := by
  cases st with
  | none => simp at h
  | some a =>
    have ha : k < a := by simpa [compare_nonpos] using h
    refine filter_eq_nil_iff.mpr fun p hp => ?_
    simp [within,not_le.mpr ((hl p hp).trans ha)]

lemma filter_within_right (sa st : Option Bytes) (i : Bool) (hl : ∀ p ∈ l, k ≤ p.1)
    (h : (if i then st.all fun st => Bytes.compare k st ≤ 0
      else st.all fun st => Bytes.compare k st < 0) = false) : (l.filter fun p => within sa st i p.1) = [] := by
  cases st with
  | none => simp at h
  | some e =>
    refine filter_eq_nil_iff.mpr fun p hp => ?_
    cases i with
    | true =>
      have he : e < k := by simpa [compare_nonpos] using h
      simp [within,not_le.mpr (he.trans_le (hl p hp))]
    | false =>
      have he : e ≤ k := by simpa [Bytes.compare_neg] using h
      simp [within,not_lt.mpr (he.trans (hl p hp))]

/-- The walk below a node visits the bindings of the range, with the values that
`get` finds. -/
theorem Holds.traverseInRange (hw : w.Serves t) (hb : b.Ordered) (h : Holds w b n) (hf : b.height < f) :
    ∃ es : List (Bytes × Bytes), es.map Prod.fst = b.keys ∧ (∀ p ∈ es, ∃ i, n.get t p.1 f = .ok (i,p.2,true)) ∧
      ∀ (sa st : Option Bytes) (a ie : Bool) (σ : Type) (fn : Bytes → Bytes → σ → Bool × σ) (d : UInt8) (x : σ),
        n.traverseInRange t sa st a ie (Node.onLeaf fn) f d x =
          .ok (visit fn (inOrder a (es.filter fun p => within sa st ie p.1)) x) := by
  induction b generalizing n f with
  | leaf k v =>
    obtain ⟨f,rfl⟩ := exists_fuel hf
    obtain ⟨v',hash,p,rfl,-⟩ := h
    refine ⟨[(k,v')],rfl,?_,?_⟩
    · rintro p hp
      obtain rfl := mem_singleton.mp hp
      exact ⟨0,by simp [Node.get,Bytes.compare_eq_zero]⟩
    · intro sa st a ie σ fn d x
      have hin : within sa st ie k = ((sa.all fun sa => Bytes.compare sa k ≤ 0) &&
          if ie then st.all fun st => Bytes.compare k st ≤ 0
          else st.all fun st => Bytes.compare k st < 0) := by
        cases ie <;> simp [within,compare_nonpos,Bytes.compare_neg]
      simp only [Node.traverseInRange,← hin,Node.onLeaf,if_true,filter_singleton]
      have hfn : (if (fn k v' x).1 then fn k v' x else (false,(fn k v' x).2)) = fn k v' x := by
        split_ifs with hs
        · rfl
        · exact Prod.ext (Bool.eq_false_of_not_eq_true hs).symm rfl
      cases within sa st ie k <;> cases a <;> simp [inOrder,visit,hfn]
  | inner k l r ihl ihr =>
    obtain ⟨f,rfl,hh,hhr⟩ := exists_fuel_inner hf
    obtain ⟨hbl,hbr,hlt,hk⟩ := hb
    obtain ⟨ml,hm,hl⟩ := h.kids.getLeftNode hw
    obtain ⟨mr,hmr,hr⟩ := h.kids.getRightNode hw
    have hz := int32_height_ne_zero h.1
    obtain ⟨_,hash,lh,ln,rh,rn,p,rfl,_⟩ := h
    obtain ⟨el,hkl,hg,hrn⟩ := ihl hbl hl (by omega : l.height < f)
    obtain ⟨er,hkr,hgr,hru⟩ := ihr hbr hr (by omega : r.height < f)
    have hle : ∀ p ∈ el, p.1 < k := fun p hp => hlt p.1 (hkl ▸ mem_map_of_mem hp)
    have hri : ∀ p ∈ er, k ≤ p.1 := fun p hp => hk ▸ minKey_le hbr p.1 (hkr ▸ mem_map_of_mem hp)
    refine ⟨el ++ er,by rw [map_append,hkl,hkr,keys_inner],?_,?_⟩
    · intro p hp
      simp only [Node.get,if_neg hz,hm,hmr,ok_bind,Bytes.compare_neg,hr.size_eq]
      rcases mem_append.mp hp with hp | hp
      · obtain ⟨i,hi⟩ := hg p hp
        exact ⟨i,by rw [if_pos (hle p hp),hi]⟩
      · obtain ⟨i,hi⟩ := hgr p hp
        rw [if_neg (not_lt.mpr (hri p hp)),hi]
        exact ⟨_,rfl⟩
    · intro sa st a ie σ fn d x
      have hn := filter_within_left sa st ie hle
      have hnr := filter_within_right sa st ie hri
      generalize hL : (el.filter fun p => within sa st ie p.1) = L at hn
      generalize hR : (er.filter fun p => within sa st ie p.1) = R at hnr
      simp only [Node.traverseInRange,Node.onLeaf,if_neg hz,ite_self,hm,hmr,ok_bind,hrn,hru,
        filter_append,Bool.false_eq_true,if_false,pure_eq_ok,hL,hR]
      generalize (sa.all fun sa => decide (Bytes.compare sa k ≤ 0)) = afterStart at hn ⊢
      generalize (if ie then st.all fun st => decide (Bytes.compare k st ≤ 0)
        else st.all fun st => decide (Bytes.compare k st < 0)) = beforeEnd at hnr ⊢
      -- a side that is not entered has no key in the range
      cases a with
      | true =>
        exact visit_two_parts fn hn hnr x
      | false =>
        simp only [Bool.false_eq_true,if_false,inOrder,reverse_append]
        exact visit_two_parts fn (fun h => by rw [hnr h]; rfl) (fun h => by rw [hn h]; rfl) x

end

/-- The tree stands for a map: its nodes in memory, and the records it reads on
demand. -/
def Tree.Valid (t : Tree D) : Prop := ∃ w m, w.Serves t ∧ Rep w t.root m ∧ Fits m

/-- Edits lead from a tree that stands for a map to another one, whether the first
was empty or loaded. -/
theorem Tree.edits_valid {w : View D} {m : Option Bindings} (hw : w.Serves t)
    (h : Rep w t.root m) (hm : WellFormed m) (es : List Edit)
    (hc : (contents m).length+es.length < capacity) : ∃ t', t.edits es = .ok t' ∧ t'.Valid := by
  induction es generalizing t m with
  | nil => exact ⟨t,rfl,w,m,hw,h,hm,hc⟩
  | cons e es ih =>
    rw [length_cons] at hc
    have hf : Fits m := ⟨hm,by omega⟩
    cases e with
    | set k v =>
      obtain ⟨n,hn,hr⟩ := t.set_spec hw h hf k v
      have hl := length_insert_le k v m
      obtain ⟨t',hrun,hv⟩ := ih (t:={t with root := n}) hw (m:=some (LeafTree.insert k v m).1) hr.1
        (hm.insert k v) (by omega)
      refine ⟨t',?_,hv⟩
      simp only [edits,foldlM_cons,edit,hn,ok_bind]
      exact hrun
    | remove k =>
      obtain ⟨n,v',hn,hr,_⟩ := t.remove_spec hw h hf k
      have hl := length_erase_le k m
      obtain ⟨t',hrun,hv⟩ := ih (t:={t with root := n}) hw hr (hm.erase k) (by omega)
      refine ⟨t',?_,hv⟩
      simp only [edits,foldlM_cons,edit,hn,ok_bind]
      exact hrun

structure Lists (t : Tree D) (entries : List (Bytes × Bytes)) : Prop where
  sorted : entries.Pairwise fun p q => p.1 < q.1
  get : ∀ k v, (k,v) ∈ entries ↔ ∃ i, t.get k = .ok (i,v,true)

lemma Lists.unique {es es' : List (Bytes × Bytes)} (h : Lists t es) (h' : Lists t es') : es = es' := by
  have hn : ∀ {l : List (Bytes × Bytes)}, (l.Pairwise fun p q => p.1 < q.1) → l.Nodup :=
    fun hl => hl.imp fun hlt => ne_of_apply_ne Prod.fst hlt.ne
  have hp : es ~ es' := (perm_ext_iff_of_nodup (hn h.sorted) (hn h'.sorted)).mpr fun p => by
    rw [h.get p.1 p.2,h'.get p.1 p.2]
  exact hp.eq_of_pairwise (fun _ _ _ _ hlt hlt' => absurd hlt hlt'.asymm) h.sorted h'.sorted

lemma Tree.Valid.exists_lists (ht : t.Valid) :
    ∃ es, Lists t es ∧ ∀ (st sp : Option Bytes) (a : Bool) (σ : Type)
      (fn : Bytes → Bytes → σ → Bool × σ) (x : σ), t.iterateRange st sp a fn x =
        .ok (visit fn (inOrder a (es.filter fun p => within st sp false p.1)) x) ∧
      t.iterateRangeInclusive st sp a fn x =
        .ok (visit fn (inOrder a (es.filter fun p => within st sp true p.1)) x) := by
  obtain ⟨w,m,hw,h,hm⟩ := ht
  cases m with
  | none =>
    obtain h : t.root = .nil := h
    refine ⟨[],⟨List.Pairwise.nil,by simp [Tree.get,h]⟩,fun st sp a σ fn x => ?_⟩
    cases a <;> exact ⟨by rw [iterateRange,h]; rfl,by rw [iterateRangeInclusive,h]; rfl⟩
  | some b =>
    have hb := (hm.1 b rfl).1
    obtain ⟨es,hk,hg,hrun⟩ := Holds.traverseInRange hw hb h hm.height_lt_maxDepth
    have hro : ∀ k, t.get k = t.root.get t k maxDepth := fun k => by
      have hne := Holds.ne_nil h
      cases hr : t.root with
      | nil => exact absurd hr hne
      | mk => simp only [Tree.get,hr]
    refine ⟨es,⟨?_,fun k v => ⟨fun hkv => ?_,?_⟩⟩,fun st sp a σ fn x => ?_⟩
    · have hs := hb.sorted
      rw [← hk] at hs
      exact pairwise_map.mp hs
    · rw [hro]
      exact hg (k,v) hkv
    · rintro ⟨i,hi⟩
      obtain ⟨v',hv',-⟩ := Holds.get hw k h hm.height_lt_maxDepth
      rw [hro] at hi
      have hsm : (LeafTree.lookup k b).isSome = true := by
        have := hv'.symm.trans hi
        simp only [Except.ok.injEq,Prod.mk.injEq] at this
        exact this.2.2
      rw [lookup_isSome hb,← hk] at hsm
      obtain ⟨p,hp,rfl⟩ := mem_map.mp hsm
      obtain ⟨j,hj⟩ := hg p hp
      have hvl := hj.symm.trans hi
      simp only [Except.ok.injEq,Prod.mk.injEq,and_true] at hvl
      rw [← hvl.2]
      exact hp
    · have hne := Holds.ne_nil h
      have he := hrun st sp a false σ fn 0 x
      have hic := hrun st sp a true σ fn 0 x
      cases hr : t.root with
      | nil => exact absurd hr hne
      | mk =>
        rw [hr] at he hic
        simp only [iterateRange,iterateRangeInclusive,hr]
        exact ⟨he,hic⟩

/-- `IterateRange` and `IterateRangeInclusive` call back on the pairs of the range, each
once and in order, up to the first call that returns true, and report whether there was one. -/
theorem iterateRange_visits {t : Tree D} (ht : t.Valid) (start stop : Option Bytes)
    (asc inclusive : Bool) :
    ∃ l : List (Bytes × Bytes), l.Pairwise (fun p q => if asc then p.1 < q.1 else q.1 < p.1) ∧
      (∀ k v, (k,v) ∈ l ↔ (∃ i, t.get k = .ok (i,v,true)) ∧ (∀ a, start = some a → a ≤ k) ∧
        ∀ e, stop = some e → if inclusive then k ≤ e else k < e) ∧
      ∀ (σ : Type) (fn : Bytes → Bytes → σ → Bool × σ) (x : σ),
        (if inclusive then t.iterateRangeInclusive start stop asc fn x
          else t.iterateRange start stop asc fn x) = .ok (visit fn l x) := by
  obtain ⟨entries,hl,hrun⟩ := ht.exists_lists
  refine ⟨inOrder asc (entries.filter fun p => within start stop inclusive p.1),?_,?_,?_⟩
  · have hs := hl.sorted.filter fun p => within start stop inclusive p.1
    cases asc with
    | true => simpa only [inOrder,if_true] using hs
    | false => simpa only [inOrder,Bool.false_eq_true,if_false] using pairwise_reverse.mpr hs
  · intro k v
    have hm : ∀ l : List (Bytes × Bytes), (k,v) ∈ inOrder asc l ↔ (k,v) ∈ l := fun l => by
      cases asc <;> simp [inOrder]
    rw [hm,mem_filter,hl.get]
    cases start <;> cases stop <;> cases inclusive <;> simp [within]
  · intro σ fn x
    cases inclusive with
    | true => exact (hrun start stop asc σ fn x).2
    | false => exact (hrun start stop asc σ fn x).1

/-- Two keys set in a tree without a database, walked downwards. -/
theorem iterateRange_visits_two :
    ∃ t, (newInMemory (D:=Bytes) none).edits [.set [1] [2],.set [3] [4]] = .ok t ∧
      ∃ l : List (Bytes × Bytes), (l.Pairwise fun p q => q.1 < p.1) ∧
        ∀ (σ : Type) (fn : Bytes → Bytes → σ → Bool × σ) (x : σ),
          t.iterateRangeInclusive (some [1]) none false fn x = .ok (visit fn l x) := by
  have hc := two_pow_lt_capacity
  obtain ⟨t,hrun,hv⟩ := edits_valid (memView_serves (D:=Bytes) none (newInMemory none))
    (m:=none) rfl (by simp [WellFormed]) [.set [1] [2],.set [3] [4]]
    (by simp only [contents_none,length_nil,length_cons]; omega)
  obtain ⟨l,hs,-,hvi⟩ := iterateRange_visits hv (some [1]) none false true
  exact ⟨t,hrun,l,hs,hvi⟩

section
variable [DecidableEq D]

/-- `IterateRangeByStateHash`: a root that cannot be loaded is not walked. -/
def iterateRangeByStateHash (c : Codec D) (config : Option TreeConfig)
    (db : HashKey D → Option (StoreNode D)) (stateHash : Option (HashKey D))
    (start stop : Option Bytes) (asc : Bool) (fn : Bytes → Bytes → σ → Bool × σ) (x : σ) :
    Result σ :=
  match (new db config).load c stateHash with
  | .error _ => .ok x
  | .ok tree => do return (← tree.iterateRange start stop asc fn x).2

variable {c : Codec D} {co : Option TreeConfig} {s : Store D} {R : Option (HashKey D)}

/-- At a known root of any history the walk visits the pairs stored there. -/
theorem Reachable.exists_lists (hc : c.Ideal) (hs : Reachable c co s) (hR : s.Known c R)
    (hca : s.written < capacity) : ∃ t es, (new s.db co).load c R = .ok t ∧ Lists t es ∧
      ∀ (st sp : Option Bytes) (σ : Type) (fn : Bytes → Bytes → σ → Bool × σ) (x : σ),
        iterateRangeByStateHash c co s.db R st sp true fn x =
          .ok (visit fn (es.filter fun p => within st sp false p.1) x).2 := by
  obtain ⟨m,_,hm,hln,hst,_⟩ := hs.storeOk hc hca R hR
  obtain ⟨n,hl,hr,-⟩ := (new s.db co).load_spec hc
    (rfl : _ = some (NodeDB.mk s.db (some []))) rfl hm hst
  have hv : ({new s.db co with root := n} : Tree D).Valid := ⟨_,m,storeView_serves rfl,hr,hm,by omega⟩
  obtain ⟨es,hli,hrun⟩ := hv.exists_lists
  refine ⟨_,es,hl,hli,fun st sp σ fn x => ?_⟩
  simp only [iterateRangeByStateHash,hl,(hrun st sp true σ fn x).1,ok_bind,pure_eq_ok]
  rfl

end

end Dpos.Mavl
