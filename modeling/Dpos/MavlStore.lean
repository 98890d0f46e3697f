import Dpos.MavlMap

/-! The store over the node database: `SetKVPair`, `GetKVPair` and `DelKVPair` load
a root, work on the tree and save it again. A history of such calls keeps every
root it has produced readable, with the bindings it had. -/
namespace Dpos.Mavl

open LeafTree Codec

variable {co : Option TreeConfig}

variable {D : Type} [DecidableEq D]

/-- `SetKVPair`: the database after the commit and the new root hash. -/
def setKVPair (c : Codec D) (config : Option TreeConfig) (db : HashKey D → Option (StoreNode D))
    (stateHash : Option (HashKey D)) (height : ℤ) (kvs : List (Bytes × Bytes)) :
    Result ((HashKey D → Option (StoreNode D)) × Option (HashKey D)) := do
  let tree := (Tree.new db config).setBlockHeight height
  let tree ← tree.load c stateHash
  let tree ← kvs.foldlM (fun tree kv => return (← tree.set kv.1 kv.2).1) tree
  let (tree,hash) ← tree.save c
  return ((tree.ndb.map NodeDB.db).getD db,hash)

def getKVPair (c : Codec D) (config : Option TreeConfig) (db : HashKey D → Option (StoreNode D))
    (stateHash : Option (HashKey D)) (keys : List Bytes) : Result (List Bytes) := do
  let tree ← (Tree.new db config).load c stateHash
  keys.mapM fun key => do
    let (_,value,exit) ← tree.get key
    return if exit then value else []

/-- `DelKVPair`: the new database and root hash, and the removed values. -/
def delKVPair (c : Codec D) (config : Option TreeConfig) (db : HashKey D → Option (StoreNode D))
    (stateHash : Option (HashKey D)) (keys : List Bytes) :
    Result ((HashKey D → Option (StoreNode D)) × Option (HashKey D) × List Bytes) := do
  let tree ← (Tree.new db config).load c stateHash
  let (tree,values) ← keys.foldlM (fun (tree,values) key => do
    let (tree,value,removed) ← tree.remove key
    return (tree,values ++ [if removed then value else []])) (tree,[])
  let (tree,hash) ← tree.save c
  return ((tree.ndb.map NodeDB.db).getD db,hash,values)

variable {R : Option (HashKey D)}

section
variable {c : Codec D} {db : HashKey D → Option (StoreNode D)}

omit [DecidableEq D] in
lemma Stored.get {t : Tree D} {ndb : NodeDB D} (hn : t.ndb = some ndb) (key : Bytes)
    {b : Bindings} {h : HashKey D} (hs : Stored c co ndb.db b h) {fu : ℕ} (hf : b.height < fu) :
    ∃ n si i, getNode t (some h) = .ok n ∧ n.size = .ok si ∧ n.get t key fu =
      .ok (i,((lookup key b).map (storedValue co)).getD [], (lookup key b).isSome) := by
  induction b generalizing h fu with
  | leaf k v =>
    obtain ⟨fu,rfl⟩ := exists_fuel hf
    have hg : getNode t (some h) = .ok (.mk k (storedValue co v) 0 1 (some h) none .nil none
        .nil true) := by simp only [getNode,hn,hs.2]; rfl
    simp only [hg,Node.size,Except.ok.injEq,exists_and_left,exists_eq_left',Node.get,
      lookup,if_true,Bytes.compare_eq_zero,Bytes.compare_eq_neg_one]
    by_cases hk : k = key
    · simp only [if_pos hk]
      exact ⟨0,rfl⟩
    by_cases hlt : k < key
    · simp only [if_neg hk,if_pos hlt]
      exact ⟨1,rfl⟩
    · simp only [if_neg hk,if_neg hlt]
      exact ⟨0,rfl⟩
  | inner k l r ihl ihr =>
    obtain ⟨fu,rfl,hh,hhr⟩ := exists_fuel_inner hf
    obtain ⟨hd,hlt,lh,rh,hdb,hl,hr⟩ := hs
    have hz := int32_height_ne_zero hlt
    have hg : getNode t (some h) = .ok (.mk k [] (int32 (inner k l r).height)
        (int32 (inner k l r).size) (some h) (some lh) .nil (some rh) .nil true) := by
      simp only [getNode,hn,hdb,Node.make,if_neg hz]
    obtain ⟨ml,sl,il,hm,_,hgl⟩ := ihl hl (by omega : l.height < fu)
    obtain ⟨mr,sr,ir,hmr,hsr,hgr⟩ := ihr hr (by omega : r.height < fu)
    refine ⟨_,_,if key < k then il else int32 (ir + int32 (int32 (inner k l r).size - sr)),hg,rfl,?_⟩
    simp only [Node.get,if_neg hz,Bytes.compare_neg,lookup,Node.getLeftNode,
      Node.getRightNode,hm,hmr,hsr,ok_bind]
    by_cases hks : key < k
    · simp only [if_pos hks,hgl]
    · simp only [if_neg hks,hgr,ok_bind,pure_eq_ok]

lemma getKVPair_spec (hc : c.Ideal) {m : Option Bindings} {f : Finmap fun _ : Bytes => Bytes}
    (hm : Fits m) (hf : Models m f) (hs : StoredMap c co db m R) (ks : List Bytes) :
    getKVPair c co db R ks = .ok (ks.map fun k => ((f.lookup k).map (storedValue co)).getD []) := by
  have ht : ∃ tree, (Tree.new db co).load c R = .ok tree ∧ ∀ key, ∃ i,
      tree.get key = .ok (i,((f.lookup key).map (storedValue co)).getD [],
        (f.lookup key).isSome) := by
    cases m with
    | none =>
      refine ⟨Tree.new db co,?_,fun key => ⟨0,?_⟩⟩
      · rcases hs with rfl | rfl <;> simp [Tree.load]
      · rw [hf.lookup_eq_none key]
        rfl
    | some b =>
      obtain ⟨hk,rfl,hst⟩ := hs
      have hne : hk ≠ ⟨[],c.emptyRoot⟩ := by
        rintro rfl
        exact digestOf_ne_emptyRoot hc b hst.digest.symm
      obtain ⟨n0,_,_,hn0,_⟩ := hst.get (t:=Tree.new db co) rfl [] hm.height_lt_maxDepth
      refine ⟨{Tree.new db co with root := n0},?_,fun key => ?_⟩
      · simp only [Tree.load,if_neg hne,hn0,ok_bind,pure_eq_ok]
      · obtain ⟨n,si,i,hn,hsz,hg⟩ := hst.get (t:={Tree.new db co with root := n0}) rfl
          key hm.height_lt_maxDepth
        obtain rfl : n0 = n := by simpa using hn0.symm.trans hn
        rw [hf.lookup_eq (hm.1 b rfl).1] at hg
        refine ⟨i,?_⟩
        cases n0 with
        | nil => simp [Node.size] at hsz
        | mk => simpa only [Tree.get] using hg
  obtain ⟨tree,hl,hg⟩ := ht
  simp only [getKVPair,hl,ok_bind]
  induction ks with
  | nil => rfl
  | cons key ks ih =>
    obtain ⟨i,hk⟩ := hg key
    rw [List.mapM_cons,hk,ok_bind,ih]
    cases h : f.lookup key <;> simp [h]

end

/-- The last value that the list gives to the key. -/
def lastValue (kvs : List (Bytes × Bytes)) (k : Bytes) : Option Bytes :=
  (kvs.reverse.find? fun kv => kv.1 = k).map Prod.snd

lemma lookup_foldl_insert (f : Finmap fun _ : Bytes => Bytes) (kvs : List (Bytes × Bytes)) (k : Bytes) :
    (kvs.foldl (fun f kv => f.insert kv.1 kv.2) f).lookup k = (lastValue kvs k).or (f.lookup k) := by
  induction kvs using List.reverseRecOn with
  | nil => simp [lastValue]
  | append_singleton kvs kv ih =>
    rw [List.foldl_append,List.foldl_cons,List.foldl_nil]
    by_cases hk : kv.1 = k
    · subst hk
      simp [lastValue,Finmap.lookup_insert]
    · rw [Finmap.lookup_insert_of_ne _ (Ne.symm hk),ih]
      simp [lastValue,hk]

lemma map_foldl_insert (f : Finmap fun _ : Bytes => Bytes) (kvs : List (Bytes × Bytes)) (ks : List Bytes) :
    (ks.map fun k => ((kvs.foldl (fun f kv => f.insert kv.1 kv.2) f).lookup k).getD []) =
      List.zipWith (fun k v => (lastValue kvs k).getD v) ks (ks.map fun k => (f.lookup k).getD []) := by
  induction ks with
  | nil => rfl
  | cons k ks ih =>
    rw [List.map_cons,List.map_cons,List.zipWith_cons_cons,ih,lookup_foldl_insert]
    cases lastValue kvs k <;> simp

lemma storedValue_eq_id {config : Option TreeConfig} (h : ∀ cfg, config = some cfg → cfg.enableMVCC = false) :
    storedValue config = id := by
  funext v
  cases config with
  | none => rfl
  | some cfg => simp [storedValue,h cfg rfl]

section
variable {c : Codec D} {db : HashKey D → Option (StoreNode D)}
  {m : Option Bindings} {f : Finmap fun _ : Bytes => Bytes}

variable {w : View D} {t : Tree D}

omit [DecidableEq D] in
lemma sets_spec (hw : w.Serves t) (h : Rep w t.root m) (hm : WellFormed m) (kvs : List (Bytes × Bytes))
    (hc : (contents m).length + kvs.length < capacity) :
    ∃ n, kvs.foldlM (fun (tree : Tree D) kv => (return (← tree.set kv.1 kv.2).1 : Result (Tree D))) t =
        .ok {t with root := n} ∧ Rep w n (insertAll kvs m) ∧
      (kvs = [] ∧ n = t.root ∨ n.hash = none) := by
  induction kvs generalizing t m with
  | nil => exact ⟨t.root,rfl,h,.inl ⟨rfl,rfl⟩⟩
  | cons kv kvs ih =>
    rw [List.length_cons] at hc
    obtain ⟨n,hs,hr,hn,_⟩ := t.set_spec hw h ⟨hm,by omega⟩ kv.1 kv.2
    have hl := length_insert_le kv.1 kv.2 m
    obtain ⟨n',hrun,hr',hro⟩ := ih (t:={t with root := n})
      (m:=some (insert kv.1 kv.2 m).1) hw hr (hm.insert kv.1 kv.2) (by omega)
    refine ⟨n',?_,hr',.inr ?_⟩
    · rw [List.foldlM_cons,hs]
      exact hrun
    · rcases hro with ⟨-,rfl⟩ | hro
      · exact hn
      · exact hro

omit [DecidableEq D] in
lemma removes_spec (hw : w.Serves t) (h : Rep w t.root m) (hm : Fits m) (hf : Models m f) (ks vs : List Bytes) :
    ∃ n m' vs', ks.foldlM (fun ((tree,vs) : Tree D × List Bytes) key => (do
        let (tree,value,removed) ← tree.remove key
        return (tree,vs ++ [if removed then value else []]) : Result _)) (t,vs) =
        .ok ({t with root := n},vs') ∧ Rep w n m' ∧ WellFormed m' ∧
      (contents m').length ≤ (contents m).length ∧
      Models m' (ks.foldl (fun f key => f.erase key) f) := by
  induction ks generalizing t m f vs with
  | nil => exact ⟨t.root,m,vs,rfl,h,hm.1,le_refl _,hf⟩
  | cons key ks ih =>
    obtain ⟨n,v',hrm,hr,_⟩ := t.remove_spec hw h hm key
    have hl := length_erase_le key m
    obtain ⟨n',m',vs',hrun,hr',hwf',hl',hmo'⟩ := ih (t:={t with root := n}) hw hr
      ⟨hm.1.erase key,hl.trans_lt hm.2⟩ (hf.erase hm.1 key) (vs ++ [if (delete key m).isSome then v' else []])
    refine ⟨n',m',vs',?_,hr',hwf',hl'.trans hl,hmo'⟩
    rw [List.foldlM_cons]
    simp only [hrm,ok_bind,pure_eq_ok]
    exact hrun

/-- `SetKVPair` at a stored root: the new root stands for the map with the pairs inserted, and
stored trees stay. It has no prefix, unless nothing was set at a root that has one. -/
theorem setKVPair_spec (hc : c.Ideal) (hm : WellFormed m) (hs : StoredMap c co db m R)
    (height : ℤ) (kvs : List (Bytes × Bytes)) (hca : (contents m).length + kvs.length < capacity) :
    ∃ db' R', setKVPair c co db R height kvs = .ok (db',R') ∧
      Extends c co db db' ∧ StoredMap c co db' (insertAll kvs m) R' ∧
      (∀ n, (contents m).length + kvs.length ≤ n → Sound c co (Within n) db → Sound c co (Within n) db') ∧
      ((kvs = [] → ∀ h, R = some h → h.pre = []) → ∀ h, R' = some h → h.pre = []) := by
  have hl := length_insertAll_le kvs m
  obtain ⟨n,hlo,hr,hha⟩ := ((Tree.new db co).setBlockHeight height).load_spec hc
    (rfl : _ = some (NodeDB.mk db (some []))) rfl hm hs
  obtain ⟨n',hss,hr',hro⟩ := sets_spec
    (t:=⟨n,some ⟨db,some []⟩,height,co⟩) (storeView_serves rfl) hr hm kvs hca
  obtain ⟨t',ndb,R',hsave,hn,he,hst,hso⟩ := Tree.save_spec
    (t:=⟨n',some ⟨db,some []⟩,height,co⟩) hc rfl hr' ⟨hm.insertAll kvs,by omega⟩
  refine ⟨ndb.db,R',?_,he,hst,fun n hn => hso n (hl.trans hn),fun hR h hh => ?_⟩
  · simp only [setKVPair,hlo,ok_bind]
    change (kvs.foldlM _ (Tree.mk n (some ⟨db,some []⟩) height co) >>= _) = _
    rw [hss,ok_bind,hsave,ok_bind]
    simp only [hn]
    rfl
  · subst hh
    refine Tree.save_pre hsave fun h0 hh0 => ?_
    rcases hro with ⟨hni,rfl⟩ | hnw
    · exact hR hni h0 (hha h0 hh0)
    · simp [hnw] at hh0

lemma delKVPair_spec (hc : c.Ideal) (hm : Fits m) (hf : Models m f)
    (hs : StoredMap c co db m R) (ks : List Bytes) : ∃ db' R' vs m', delKVPair c co db R ks = .ok (db',R',vs) ∧
      Extends c co db db' ∧ StoredMap c co db' m' R' ∧ WellFormed m' ∧
      (contents m').length ≤ (contents m).length ∧ Models m' (ks.foldl (fun f key => f.erase key) f) := by
  obtain ⟨n,hlo,hr,_⟩ := (Tree.new db co).load_spec hc
    (rfl : _ = some (NodeDB.mk db (some []))) rfl hm.1 hs
  obtain ⟨n',m',vs,hrm,hr',hw',hl',hmo'⟩ := removes_spec
    (t:=⟨n,some ⟨db,some []⟩,0,co⟩) (storeView_serves rfl) hr hm hf ks []
  obtain ⟨t',ndb,R',hsave,hn,he,hst,_⟩ := Tree.save_spec
    (t:=⟨n',some ⟨db,some []⟩,0,co⟩) hc rfl hr' ⟨hw',hl'.trans_lt hm.2⟩
  refine ⟨ndb.db,R',vs,m',?_,he,hst,hw',hl',hmo'⟩
  simp only [delKVPair,hlo,ok_bind]
  change (ks.foldlM _ (Tree.mk n (some ⟨db,some []⟩) 0 co,[]) >>= _) = _
  rw [hrm,ok_bind,hsave,ok_bind]
  simp only [hn]
  rfl

end

/-- The database, the roots returned so far, and how many pairs were given. -/
structure Store (D : Type) where
  db : HashKey D → Option (StoreNode D)
  roots : List (Option (HashKey D))
  written : ℕ

inductive Call (D : Type)
  | set (stateHash : Option (HashKey D)) (height : ℤ) (kvs : List (Bytes × Bytes))
  | del (stateHash : Option (HashKey D)) (keys : List Bytes)

namespace Store

/-- A root that an earlier call returned, or one of the empty tree. -/
def Known (c : Codec D) (s : Store D) (R : Option (HashKey D)) : Prop :=
  R ∈ s.roots ∨ R = none ∨ R = some ⟨[],c.emptyRoot⟩

def call (c : Codec D) (config : Option TreeConfig) (s : Store D) : Call D → Result (Store D)
  | .set R height kvs => do
    let (db,R') ← setKVPair c config s.db R height kvs
    return ⟨db,R' :: s.roots,s.written+kvs.length⟩
  | .del R keys => do
    let (db,R',_) ← delKVPair c config s.db R keys
    return ⟨db,R' :: s.roots,s.written⟩

end Store

def Call.stateHash : Call D → Option (HashKey D)
  | .set R _ _ => R
  | .del R _ => R

/-- The states of a store after a history of calls, each at a root known then. -/
inductive Reachable (c : Codec D) (config : Option TreeConfig) : Store D → Prop
  | init (db : HashKey D → Option (StoreNode D)) : Reachable c config ⟨db,[],0⟩
  | call {s s' : Store D} (h : Reachable c config s) (a : Call D) (hR : s.Known c a.stateHash)
      (hrun : s.call c config a = .ok s') : Reachable c config s'

/-- Every known root stands for a map that is stored. -/
def StoreOk (c : Codec D) (config : Option TreeConfig) (s : Store D) : Prop :=
  ∀ R, s.Known c R → ∃ m f, WellFormed m ∧ (contents m).length ≤ s.written ∧
    StoredMap c config s.db m R ∧ Models m f

section
variable {c : Codec D} {config : Option TreeConfig} {s : Store D}

omit [DecidableEq D] in
lemma StoreOk.init (db : HashKey D → Option (StoreNode D)) : StoreOk c config ⟨db,[],0⟩ := by
  rintro R (hR | hR)
  · simp at hR
  · exact ⟨none,∅,by simp [WellFormed],le_refl _,hR,models_empty⟩

omit [DecidableEq D] in
lemma StoreOk.cons (h : StoreOk c config s) {db : HashKey D → Option (StoreNode D)}
    (he : Extends c config s.db db) {R' : Option (HashKey D)} {wr : ℕ}
    (hw : s.written ≤ wr) {m : Option Bindings} {f : Finmap fun _ : Bytes => Bytes}
    (hm : WellFormed m) (hl : (contents m).length ≤ wr) (hs : StoredMap c config db m R')
    (hf : Models m f) : StoreOk c config ⟨db,R' :: s.roots,wr⟩ := by
  have hold : ∀ R, s.Known c R → ∃ m f, WellFormed m ∧ (contents m).length ≤ wr ∧
      StoredMap c config db m R ∧ Models m f := by
    intro R hR
    obtain ⟨m0,f0,hm0,hl0,hs0,hf0⟩ := h R hR
    exact ⟨m0,f0,hm0,hl0.trans hw,hs0.extend he hm0,hf0⟩
  rintro R (hR | hR)
  · rcases List.mem_cons.mp hR with rfl | hR
    · exact ⟨m,f,hm,hl,hs,hf⟩
    · exact hold R (.inl hR)
  · exact hold R (.inr hR)

variable {a : Call D} {s' : Store D}

lemma Store.call_cases (hrun : s.call c config a = .ok s') : (∃ R height kvs db R', a = .set R height kvs ∧
      setKVPair c config s.db R height kvs = .ok (db,R') ∧ s' = ⟨db,R' :: s.roots,s.written+kvs.length⟩) ∨
    (∃ R ks db R' vs, a = .del R ks ∧
      delKVPair c config s.db R ks = .ok (db,R',vs) ∧ s' = ⟨db,R' :: s.roots,s.written⟩) := by
  cases a with
  | set R height kvs =>
    obtain ⟨q,hq,he⟩ := bind_eq_ok.mp hrun
    exact .inl ⟨R,height,kvs,q.1,q.2,rfl,hq,(Except.ok.inj he).symm⟩
  | del R ks =>
    obtain ⟨q,hq,he⟩ := bind_eq_ok.mp hrun
    exact .inr ⟨R,ks,q.1,q.2.1,q.2.2,rfl,hq,(Except.ok.inj he).symm⟩

lemma StoreOk.call (hc : c.Ideal) (h : StoreOk c config s)
    (hR : s.Known c a.stateHash) (hrun : s.call c config a = .ok s')
    (hca : s'.written < capacity) : StoreOk c config s' := by
  obtain ⟨m,f,hm,hl,hs,hf⟩ := h _ hR
  rcases Store.call_cases hrun with ⟨R,height,kvs,db,R',rfl,hse,rfl⟩ |
    ⟨R,keys,db,R',vs,rfl,hdel,rfl⟩
  · simp only at hca
    have hl' := length_insertAll_le kvs m
    obtain ⟨db1,R₁,hse1,he,hst,_⟩ := setKVPair_spec hc hm hs height kvs (by omega)
    obtain ⟨rfl,rfl⟩ : db = db1 ∧ R' = R₁ := by
      have := hse.symm.trans hse1
      simpa only [Except.ok.injEq,Prod.mk.injEq] using this
    exact h.cons he (Nat.le_add_right _ _) (hm.insertAll kvs) (by omega) hst (hf.insertAll hm kvs)
  · simp only at hca
    obtain ⟨db1,R₁,vs1,m',hdel1,he,hst,hw,hl',hmo⟩ := delKVPair_spec hc ⟨hm,by omega⟩ hf hs keys
    obtain ⟨rfl,rfl,rfl⟩ : db = db1 ∧ R' = R₁ ∧ vs = vs1 := by
      have := hdel.symm.trans hdel1
      simpa only [Except.ok.injEq,Prod.mk.injEq] using this
    exact h.cons he (le_refl _) hw (by omega) hst hmo

lemma Reachable.storeOk (hc : c.Ideal) (h : Reachable c config s) (hca : s.written < capacity) :
    StoreOk c config s := by
  induction h with
  | init db => exact StoreOk.init db
  | @call s s' _ a hR hrun ih =>
    have hl : s.written ≤ s'.written := by
      rcases Store.call_cases hrun with ⟨_,_,kvs,_,_,_,_,rfl⟩ | ⟨_,_,_,_,_,_,_,rfl⟩
      · exact Nat.le_add_right _ _
      · exact le_refl _
    exact (ih (by omega)).call hc hR hrun hca

/-- Writing pairs at a known root of any history gives a root where each key has
its last value or else the one it had, and disturbs no read at any known root. -/
theorem setKVPair_frame (hc : c.Ideal) (hs : Reachable c config s) {R : Option (HashKey D)}
    (hR : s.Known c R) (height : ℤ) (kvs : List (Bytes × Bytes)) (hca : s.written + kvs.length < capacity) :
    ∃ db' R', setKVPair c config s.db R height kvs = .ok (db',R') ∧
      (∀ R₀, s.Known c R₀ → ∀ keys, ∃ values, getKVPair c config s.db R₀ keys = .ok values ∧
        getKVPair c config db' R₀ keys = .ok values) ∧
      ((∀ cfg, config = some cfg → cfg.enableMVCC = false) → ∀ keys, ∃ old,
        getKVPair c config s.db R keys = .ok old ∧ getKVPair c config db' R' keys =
          .ok (List.zipWith (fun k v => (lastValue kvs k).getD v) keys old)) := by
  have ho := hs.storeOk hc (by omega)
  obtain ⟨m,f,hm,hl,hst,hf⟩ := ho R hR
  have hl' := length_insertAll_le kvs m
  obtain ⟨db',R',hse,he,hst',_⟩ := setKVPair_spec hc hm hst height kvs (by omega)
  refine ⟨db',R',hse,?_,?_⟩
  · intro R₀ hR0 keys
    obtain ⟨m0,f0,hm0,hl0,hst0,hf0⟩ := ho R₀ hR0
    have hfi : Fits m0 := ⟨hm0,by omega⟩
    exact ⟨_,getKVPair_spec hc hfi hf0 hst0 keys,getKVPair_spec hc hfi hf0 (hst0.extend he hm0) keys⟩
  · intro hmv keys
    refine ⟨_,getKVPair_spec hc ⟨hm,by omega⟩ hf hst keys,?_⟩
    rw [getKVPair_spec hc ⟨hm.insertAll kvs,by omega⟩ (hf.insertAll hm kvs) hst' keys,storedValue_eq_id hmv]
    simp only [Option.map_id,id]
    rw [map_foldl_insert]

end

/-- Two pairs written at the root of a first call, over the key of that call and a new one. -/
theorem setKVPair_frame_second : ∃ db₁ R₁ db₂ R₂, setKVPair framed none (fun _ => none) none 1 [([1],[2])] = .ok (db₁,R₁) ∧
    setKVPair framed none db₁ R₁ 2 [([1],[5]),([3],[4])] = .ok (db₂,R₂) ∧
    getKVPair framed none db₂ R₁ [[1],[3]] = .ok [[2],[]] ∧ getKVPair framed none db₂ R₂ [[1],[3]] = .ok [[5],[4]] := by
  have hc := two_pow_lt_capacity
  have ho : ∀ cfg, (none : Option TreeConfig) = some cfg → cfg.enableMVCC = false := by simp
  have hi : Reachable framed none ⟨fun _ => none,[],0⟩ := Reachable.init _
  obtain ⟨db₁,R₁,hs₁,-,hg₁⟩ := setKVPair_frame framed_ideal hi (R:=none) (.inr (.inl rfl)) 1 [([1],[2])]
    (by simp only [List.length_singleton]; omega)
  obtain ⟨old,ho₁,hr₁⟩ := hg₁ ho [[1],[3]]
  obtain rfl : [[],[]] = old := Except.ok.inj ho₁
  have hreach : Reachable framed none ⟨db₁,[R₁],1⟩ :=
    hi.call (.set none 1 [([1],[2])]) (.inr (.inl rfl)) (by simp only [Store.call,hs₁]; rfl)
  have hk : (Store.mk db₁ [R₁] 1).Known framed R₁ := .inl (List.mem_singleton_self _)
  obtain ⟨db₂,R₂,hs₂,hf,hg₂⟩ := setKVPair_frame framed_ideal hreach hk 2 [([1],[5]),([3],[4])]
    (by simp only [List.length_cons,List.length_nil]; omega)
  obtain ⟨values,hv,hv₂⟩ := hf R₁ hk [[1],[3]]
  obtain ⟨old,ho₂,hr₂⟩ := hg₂ ho [[1],[3]]
  obtain rfl := Except.ok.inj (hr₁.symm.trans hv)
  obtain rfl := Except.ok.inj (hr₁.symm.trans ho₂)
  exact ⟨db₁,R₁,db₂,R₂,hs₁,hs₂,hv₂,hr₂⟩

/-- With `EnableMVCC` the records keep no values, so none is read back. -/
theorem setKVPair_mvcc_lost :
    ¬∃ db' R', setKVPair framed (some ⟨false,true⟩) (fun _ => none) none 1 [([1],[2])] = .ok (db',R') ∧
      getKVPair framed (some ⟨false,true⟩) db' R' [[1]] = .ok [[2]] := by
  rintro ⟨db',R',hs,hg⟩
  have hc := two_pow_lt_capacity
  have he : StoredMap framed (some ⟨false,true⟩) (fun _ => none) none none := .inl rfl
  have hw : WellFormed (none : Option Bindings) := by simp [WellFormed]
  have hl := length_insertAll_le [([1],[2])] (none : Option Bindings)
  simp only [contents_none,List.length_nil,List.length_singleton] at hl
  obtain ⟨db1,R₁,hs1,_,hst,_⟩ := setKVPair_spec framed_ideal hw he 1 [([1],[2])]
    (by simp only [contents_none,List.length_nil,List.length_singleton]; omega)
  obtain ⟨rfl,rfl⟩ : db' = db1 ∧ R' = R₁ := by
    have := hs.symm.trans hs1
    simpa only [Except.ok.injEq,Prod.mk.injEq] using this
  rw [getKVPair_spec framed_ideal ⟨hw.insertAll _,by omega⟩
    (models_empty.insertAll hw [([1],[2])]) hst] at hg
  simp [Finmap.lookup_insert,storedValue] at hg

end Dpos.Mavl
