import Dpos.MavlStore

/-! Two stores with different configurations and block heights, given the same
`SetKVPair` calls. Their records differ in the prefixes of the keys, but a root
has no prefix and its digest depends on the bindings only, so both return the same
root hashes. For the same reason a list of pairs may first be rid of its repeated
keys: a key that is set again changes one leaf and not the shape of the tree. -/
namespace Dpos.Mavl

open LeafTree List Store Codec

variable {D : Type} [DecidableEq D]

/-- A call that builds on a root returned before (counted from the latest, nil
where there is none) or on the empty root, and the pairs it sets. -/
structure Extension where
  base : Option ℕ
  kvs : List (Bytes × Bytes)

def Extension.stateHash (c : Codec D) (roots : List (Option (HashKey D))) (e : Extension) :
    Option (HashKey D) :=
  match e.base with
  | none => some ⟨[],c.emptyRoot⟩
  | some i => (roots[i]?).getD none

/-- The calls in order, the i-th one at the i-th height. -/
def Store.extend (c : Codec D) (config : Option TreeConfig) (heights : ℕ → ℤ) (s : Store D)
    (es : List Extension) : Result (Store D) :=
  es.foldlM (fun s e => s.call c config
    (.set (e.stateHash c s.roots) (heights s.roots.length) e.kvs)) s

/-- Every root has no prefix and stands for one map in both stores. -/
structure Agree (c : Codec D) (config config' : Option TreeConfig) (s s' : Store D) : Prop where
  roots : s.roots = s'.roots
  written : s.written = s'.written
  known : ∀ R, s.Known c R → ∃ m, WellFormed m ∧ (contents m).length ≤ s.written ∧
    StoredMap c config s.db m R ∧ StoredMap c config' s'.db m R ∧ ∀ h, R = some h → h.pre = []

variable {c : Codec D} {config config' : Option TreeConfig} {s s' : Store D}

omit [DecidableEq D] in
lemma Agree.init (db db' : HashKey D → Option (StoreNode D)) : Agree c config config' ⟨db,[],0⟩ ⟨db',[],0⟩ := by
  refine ⟨rfl,rfl,?_⟩
  rintro R (hR | hR)
  · simp at hR
  · refine ⟨none,by simp [WellFormed],le_refl _,hR,hR,?_⟩
    rcases hR with rfl | rfl
    · simp
    · rintro _ ⟨rfl⟩
      rfl

omit [DecidableEq D] in
lemma Extension.stateHash_known (e : Extension) (s : Store D) : s.Known c (e.stateHash c s.roots) := by
  unfold Extension.stateHash
  rcases e.base with _ | i
  · exact .inr (.inr rfl)
  · dsimp only
    cases hi : s.roots[i]? with
    | none => exact .inr (.inl rfl)
    | some R => exact .inl (mem_of_getElem? hi)

variable {R : Option (HashKey D)} {db : HashKey D → Option (StoreNode D)}

omit [DecidableEq D] in
lemma StoredMap.root_eq {db' : HashKey D → Option (StoreNode D)} {b : Bindings}
    {R' : Option (HashKey D)} (hs : StoredMap c config db (some b) R)
    (hs' : StoredMap c config' db' (some b) R') (hp : ∀ h, R = some h → h.pre = [])
    (hp' : ∀ h, R' = some h → h.pre = []) : R = R' := by
  obtain ⟨h,rfl,hst⟩ := hs
  obtain ⟨h',rfl,hst'⟩ := hs'
  obtain ⟨pre,digest⟩ := h
  obtain ⟨pre',digest'⟩ := h'
  obtain rfl : pre = [] := hp _ rfl
  obtain rfl : pre' = [] := hp' _ rfl
  obtain rfl : digest = digestOf c b := hst.digest
  obtain rfl : digest' = digestOf c b := hst'.digest
  rfl

lemma setKVPair_empty (hs : StoredMap c config db none R)
    (height : ℤ) : setKVPair c config db R height [] = .ok (db,none) := by
  rcases hs with rfl | rfl <;>
    simp [setKVPair,Tree.load,Tree.new,Tree.setBlockHeight,Tree.save]

lemma Agree.call (hc : c.Ideal) (h : Agree c config config' s s') (hR : s.Known c R)
    (height height' : ℤ) (kvs : List (Bytes × Bytes)) (hcp : s.written+kvs.length < capacity) :
    ∃ s1 s1', s.call c config (.set R height kvs) = .ok s1 ∧
      s'.call c config' (.set R height' kvs) = .ok s1' ∧ Agree c config config' s1 s1' ∧
      s1.written = s.written+kvs.length := by
  obtain ⟨m,hm,hl,hs,hs',hp⟩ := h.known R hR
  obtain ⟨db,R₁,hse,he,hs1,-,hp1⟩ := setKVPair_spec hc hm hs height kvs (by omega)
  obtain ⟨db',R₁',hse',he',hs1',-,hp1'⟩ := setKVPair_spec hc hm hs' height' kvs (by omega)
  have hr : R₁ = R₁' := by
    cases ha : insertAll kvs m with
    | none =>
      -- nothing was set in an empty tree
      obtain rfl : kvs = [] := by
        by_contra hne
        obtain ⟨b,hb⟩ := insertAll_ne_none hne m
        simp [hb] at ha
      obtain rfl : m = none := ha
      rw [setKVPair_empty hs] at hse
      rw [setKVPair_empty hs'] at hse'
      simp only [Except.ok.injEq,Prod.mk.injEq] at hse hse'
      rw [← hse.2,← hse'.2]
    | some b =>
      rw [ha] at hs1 hs1'
      exact hs1.root_eq hs1' (hp1 fun _ => hp) (hp1' fun _ => hp)
  subst hr
  have hl1 := length_insertAll_le kvs m
  refine ⟨⟨db,R₁ :: s.roots,s.written+kvs.length⟩,⟨db',R₁ :: s'.roots,s'.written+kvs.length⟩,
    by simp only [Store.call,hse,ok_bind,pure_eq_ok],
    by simp only [Store.call,hse',ok_bind,pure_eq_ok],
    ⟨by rw [h.roots],by rw [h.written],fun R₀ hR0 => ?_⟩,rfl⟩
  by_cases hn : R₀ = R₁
  · subst hn
    exact ⟨insertAll kvs m,hm.insertAll kvs,by simp only; omega,hs1,hs1',hp1 fun _ => hp⟩
  · have hold : s.Known c R₀ := hR0.imp_left fun hme => (mem_cons.mp hme).resolve_left hn
    obtain ⟨m0,hm0,hl0,hs0,hs0',hp0⟩ := h.known R₀ hold
    exact ⟨m0,hm0,by simp only; omega,hs0.extend he hm0,hs0'.extend he' hm0,hp0⟩

def pairCount (es : List Extension) : ℕ := (es.map fun e => e.kvs.length).sum

lemma Agree.extend (hc : c.Ideal) (h : Agree c config config' s s') (heights heights' : ℕ → ℤ)
    (es : List Extension) (hcp : s.written+pairCount es < capacity) :
    ∃ s1 s1', s.extend c config heights es = .ok s1 ∧ s'.extend c config' heights' es = .ok s1' ∧
      Agree c config config' s1 s1' := by
  induction es generalizing s s' with
  | nil => exact ⟨s,s',rfl,rfl,h⟩
  | cons e es ih =>
    have hct : pairCount (e :: es) = e.kvs.length+pairCount es := by simp [pairCount]
    obtain ⟨s1,s1',hca,hca',h1,hw⟩ := h.call hc (e.stateHash_known s)
      (heights s.roots.length) (heights' s'.roots.length) e.kvs (by omega)
    obtain ⟨s2,s2',hrun,hrun',h2⟩ := ih h1 (by omega)
    refine ⟨s2,s2',?_,?_,h2⟩
    · rw [extend,foldlM_cons,hca]
      exact hrun
    · rw [h.roots] at hca'
      rw [extend,foldlM_cons,hca']
      exact hrun'

/-- The chain of root hashes does not depend on the configuration of the store, nor
on the block heights. -/
theorem extend_roots_eq (hc : c.Ideal) (config config' : Option TreeConfig)
    (db db' : HashKey D → Option (StoreNode D)) (heights heights' : ℕ → ℤ) (es : List Extension)
    (hcp : pairCount es < capacity) : ∃ s s' : Store D, extend c config heights ⟨db,[],0⟩ es = .ok s ∧
      extend c config' heights' ⟨db',[],0⟩ es = .ok s' ∧ s.roots = s'.roots := by
  have hi : Agree c config config' ⟨db,[],0⟩ ⟨db',[],0⟩ := Agree.init db db'
  obtain ⟨s,s',hrun,hrun',h⟩ := hi.extend hc heights heights' es (by simpa using hcp)
  exact ⟨s,s',hrun,hrun',h.roots⟩

/-- Two calls, the second on the root of the first, with and without prefixes. -/
theorem extend_roots_eq_two :
    ∃ s s' : Store Bytes, extend framed (some ⟨true,false⟩) (fun i => i+7) ⟨fun _ => none,[],0⟩
        [⟨none,[([1],[10]),([2],[20])]⟩,⟨some 0,[([1],[11])]⟩] = .ok s ∧
      extend framed none (fun _ => 0) ⟨fun _ => none,[],0⟩
        [⟨none,[([1],[10]),([2],[20])]⟩,⟨some 0,[([1],[11])]⟩] = .ok s' ∧ s.roots = s'.roots :=
  extend_roots_eq framed_ideal _ _ _ _ _ _ _
    (two_pow_lt_capacity.trans' (by simp [pairCount]))

/-- The second call is given the hash of a leaf as its state hash. -/
def leafCalls : List (Call Bytes) :=
  [.set none 1 [([1],[10]),([2],[20])],
    .set (some ⟨[],LeafNode.hash framed ⟨[1],[10],0,1⟩⟩) 2 [([3],[30])]]

/-- A hash that is no root is found by a store without prefixes only. -/
theorem leafCalls_differ :
    ((leafCalls.foldlM (call framed (some ⟨false,false⟩)) ⟨fun _ => none,[],0⟩).map
        fun s => s.roots.length) = .ok 2 ∧
      ((leafCalls.foldlM (call framed (some ⟨true,false⟩)) ⟨fun _ => none,[],0⟩).map
        fun s => s.roots.length) = .error .nodeNotExist := by
  decide +kernel

/-- A pair takes the place of an earlier one with its key. The code compacts the slice in place and
writes only where it has read. -/
def delDupKey (kvs : List (Bytes × Bytes)) : List (Bytes × Bytes) :=
  kvs.foldl (fun out kv => match out.findIdx? (fun p => p.1 = kv.1) with
    | some index => out.set index kv
    | none => out ++ [kv]) []

variable (kvs : List (Bytes × Bytes))

lemma delDupKey_concat (kv : Bytes × Bytes) :
    ((∀ p ∈ delDupKey kvs, p.1 ≠ kv.1) ∧ delDupKey (kvs ++ [kv]) = delDupKey kvs ++ [kv]) ∨
    ∃ b old after, delDupKey kvs = b ++ (kv.1,old) :: after ∧ delDupKey (kvs ++ [kv]) = b ++ kv :: after := by
  have hs : delDupKey (kvs ++ [kv]) = match (delDupKey kvs).findIdx? (fun p => p.1 = kv.1) with
      | some i => (delDupKey kvs).set i kv
      | none => delDupKey kvs ++ [kv] := by
    rw [delDupKey,foldl_concat]
    rfl
  cases hid : (delDupKey kvs).findIdx? (fun p => p.1 = kv.1) with
  | none =>
    rw [hid] at hs
    exact .inl ⟨by simpa [findIdx?_eq_none_iff] using hid,hs⟩
  | some i =>
    rw [hid] at hs
    obtain ⟨hlt,hk,-⟩ := findIdx?_eq_some_iff_getElem.mp hid
    have hk : ((delDupKey kvs)[i]).1 = kv.1 := by simpa using hk
    refine .inr ⟨(delDupKey kvs).take i,((delDupKey kvs)[i]).2,(delDupKey kvs).drop (i+1),?_,?_⟩
    · rw [← hk]
      change _ = _ ++ (delDupKey kvs)[i] :: _
      rw [getElem_cons_drop,take_append_drop]
    · rw [hs]
      exact set_eq_take_append_cons_drop.trans (if_pos hlt)

lemma delDupKey_nodup : ((delDupKey kvs).map Prod.fst).Nodup := by
  induction kvs using reverseRecOn with
  | nil => exact nodup_nil
  | append_singleton kvs kv ih =>
    rcases delDupKey_concat kvs kv with ⟨hn,he⟩ | ⟨b,old,a,hb,he⟩
    · rw [he,map_append,nodup_append]
      refine ⟨ih,nodup_singleton _,?_⟩
      simp only [mem_map,mem_singleton]
      rintro _ ⟨p,hp,rfl⟩ _ ⟨_,rfl,rfl⟩
      exact hn p hp
    · rw [hb] at ih
      rw [he]
      simpa using ih

lemma delDupKey_length_le : (delDupKey kvs).length ≤ kvs.length := by
  induction kvs using reverseRecOn with
  | nil => exact le_refl _
  | append_singleton kvs kv ih =>
    rcases delDupKey_concat kvs kv with ⟨-,he⟩ | ⟨b,old,a,hb,he⟩
    · simpa [he] using ih
    · rw [hb] at ih
      simp only [he,length_append,length_cons,length_nil] at ih ⊢
      omega

lemma insertAll_append (kvs' : List (Bytes × Bytes)) (m : Option Bindings) :
    insertAll (kvs ++ kvs') m = insertAll kvs' (insertAll kvs m) := foldl_append

lemma insertAll_delDupKey {m : Option Bindings} (hm : WellFormed m) (kvs : List (Bytes × Bytes)) :
    insertAll (delDupKey kvs) m = insertAll kvs m := by
  induction kvs using reverseRecOn with
  | nil => rfl
  | append_singleton kvs kv ih =>
    rw [insertAll_append,← ih]
    rcases delDupKey_concat kvs kv with ⟨-,he⟩ | ⟨b,old,a,hb,he⟩
    · rw [he,insertAll_append]
    · have hn := delDupKey_nodup kvs
      rw [hb,map_append,map_cons,nodup_append,nodup_cons] at hn
      have ha : ∀ p ∈ a, p.1 ≠ kv.1 := fun p hp he => hn.2.1.1 (he ▸ mem_map_of_mem hp)
      rw [he,hb,insertAll_append,insertAll_append]
      exact (insertAll_again (hm.insertAll b) kv.1 kv.2 old ha).symm

/-- At every known root, a list of pairs and the list without repeated keys lead to
one root hash. -/
theorem setKVPair_delDupKey (hc : c.Ideal) (hs : Reachable c config s) (hR : s.Known c R)
    (height : ℤ) (kvs : List (Bytes × Bytes)) (hcp : s.written+kvs.length < capacity) :
    ∃ db db' R', setKVPair c config s.db R height kvs = .ok (db,R') ∧
      setKVPair c config s.db R height (delDupKey kvs) = .ok (db',R') := by
  have hl' := delDupKey_length_le kvs
  obtain ⟨m,_,hm,hl,hst,_⟩ := hs.storeOk hc (by omega) R hR
  obtain ⟨db,R₁,hse,-,hst1,-,hp⟩ := setKVPair_spec hc hm hst height kvs (by omega)
  obtain ⟨db',R₁',hse',-,hst1',-,hp'⟩ := setKVPair_spec hc hm hst height (delDupKey kvs) (by omega)
  by_cases hn : kvs = []
  · subst hn
    exact ⟨db,db,R₁,hse,hse⟩
  · have hn' : delDupKey kvs ≠ [] := fun h => by
      obtain ⟨t,ht⟩ := insertAll_ne_none hn (none : Option Bindings)
      rw [← insertAll_delDupKey (by simp [WellFormed]),h] at ht
      simp [insertAll] at ht
    obtain ⟨t,ht⟩ := insertAll_ne_none hn m
    rw [insertAll_delDupKey hm,ht] at hst1'
    rw [ht] at hst1
    obtain rfl : R₁ = R₁' := hst1.root_eq hst1' (hp fun h => absurd h hn)
      (hp' fun h => absurd h hn')
    exact ⟨db,db',R₁,hse,hse'⟩

/-- Three pairs with one key twice, set in an empty store. -/
theorem setKVPair_delDupKey_three : delDupKey [([1],[2]),([3],[4]),([1],[5])] = [([1],[5]),([3],[4])] ∧
    ∃ db db' R', setKVPair framed none (fun _ => none) none 1 [([1],[2]),([3],[4]),([1],[5])] =
        .ok (db,R') ∧
      setKVPair framed none (fun _ => none) none 1 (delDupKey [([1],[2]),([3],[4]),([1],[5])]) =
        .ok (db',R') :=
  ⟨by decide,setKVPair_delDupKey framed_ideal (Reachable.init fun _ => none)
    (.inr (.inl rfl)) 1 _ (by
      have hc := two_pow_lt_capacity
      simp only [length_cons,length_nil]
      omega)⟩

end Dpos.Mavl
