import Dpos.MavlStore

/-! The requests of the store: trees set in memory wait under their root hash until
they are committed or rolled back. -/
namespace Dpos.Mavl

open LeafTree Function Nat Codec

variable {D : Type} [DecidableEq D]

/-- A tree that was set in memory. Its nodes come from the store's own database. -/
structure PendingTree (D : Type) where
  root : Node D
  blockHeight : ℤ

/-- The store: the map `trees` may hold nil under a hash. -/
structure MemStore (D : Type) where
  db : HashKey D → Option (StoreNode D)
  trees : Option (HashKey D) → Option (Option (PendingTree D))

inductive Request (D : Type)
  | set (stateHash : Option (HashKey D)) (height : ℤ) (kvs : List (Bytes × Bytes))
  | get (stateHash : Option (HashKey D)) (keys : List Bytes)
  | memSet (stateHash : Option (HashKey D)) (height : ℤ) (kvs : List (Bytes × Bytes))
  | commit (hash : Option (HashKey D))
  | rollback (hash : Option (HashKey D))
  deriving DecidableEq

inductive Failure
  | errHashNotFound
  | errDataBaseDamage
  | load (fault : Fault)
  deriving DecidableEq

inductive Reply (D : Type)
  | hash (hash : Option (HashKey D))
  | values (values : List Bytes)
  | failed (failure : Failure)
  deriving DecidableEq

def PendingTree.over (config : Option TreeConfig) (db : HashKey D → Option (StoreNode D))
    (p : PendingTree D) : Tree D := ⟨p.root,some ⟨db,some []⟩,p.blockHeight,config⟩

/-- The values of the keys, no bytes for one that does not exist. -/
def Tree.values (tree : Tree D) (keys : List Bytes) : Result (List Bytes) :=
  keys.mapM fun key => do
    let (_,value,exit) ← tree.get key
    return if exit then value else []

namespace MemStore

def empty : MemStore D := ⟨fun _ => none,fun _ => none⟩

section
variable (c : Codec D) (config : Option TreeConfig) (s : MemStore D)

/-- `Set`. An error of `Load` is the reply. -/
def set (stateHash : Option (HashKey D)) (height : ℤ) (kvs : List (Bytes × Bytes)) :
    Result (MemStore D × Reply D) :=
  match ((Tree.new s.db config).setBlockHeight height).load c stateHash with
  | .error fault => .ok (s,.failed (.load fault))
  | .ok _ => do
    let (db,hash) ← setKVPair c config s.db stateHash height kvs
    return ({ s with db },.hash hash)

/-- `Get`: from the waiting tree if there is one, else from the database. -/
def get (stateHash : Option (HashKey D)) (keys : List Bytes) : Result (List Bytes) :=
  match s.trees stateHash with
  | some (some p) => (p.over config s.db).values keys
  | _ =>
    match (Tree.new s.db config).load c stateHash with
    | .error _ => .ok (keys.map fun _ => [])
    | .ok tree => tree.values keys

/-- `MemSet`. Without pairs, nil takes the place of whatever waits under the hash. -/
def memSet (stateHash : Option (HashKey D)) (height : ℤ) (kvs : List (Bytes × Bytes)) :
    Result (MemStore D × Reply D) :=
  if kvs = [] then
    .ok ({ s with trees := update s.trees stateHash (some none) },.hash stateHash)
  else
    match ((Tree.new s.db config).setBlockHeight height).load c stateHash with
    | .error fault => .ok (s,.failed (.load fault))
    | .ok tree => do
      let tree ← kvs.foldlM (fun tree kv => return (← tree.set kv.1 kv.2).1) tree
      let (tree,hash) ← tree.hash c
      return ({ s with trees := update s.trees hash (some (some ⟨tree.root,tree.blockHeight⟩)) },.hash hash)

def commit (hash : Option (HashKey D)) : Result (MemStore D × Reply D) :=
  match s.trees hash with
  | none => .ok (s,.failed .errHashNotFound)
  | some none => .ok ({ s with trees := update s.trees hash none },.hash hash)
  | some (some p) => do
    let (tree,saved) ← (p.over config s.db).save c
    let db := (tree.ndb.map NodeDB.db).getD s.db
    match saved with
    | none => return ({ s with db },.failed .errDataBaseDamage)
    | some _ => return (⟨db,update s.trees hash none⟩,.hash hash)

def rollback (hash : Option (HashKey D)) : MemStore D × Reply D :=
  match s.trees hash with
  | none => (s,.failed .errHashNotFound)
  | some _ => ({ s with trees := update s.trees hash none },.hash hash)

def handle : Request D → Result (MemStore D × Reply D)
  | .set stateHash height kvs => s.set c config stateHash height kvs
  | .get stateHash keys => do return (s,.values (← s.get c config stateHash keys))
  | .memSet stateHash height kvs => s.memSet c config stateHash height kvs
  | .commit hash => s.commit c config hash
  | .rollback hash => .ok (s.rollback hash)

def run (requests : List (Request D)) : Result (MemStore D) :=
  requests.foldlM (fun s r => return (← s.handle c config r).1) s

end
end MemStore

def Request.pairs : Request D → ℕ
  | .set _ _ kvs => kvs.length
  | .memSet _ _ kvs => kvs.length
  | _ => 0

/-- Requests that take away what waits under the hash. -/
def Request.Drops (H : Option (HashKey D)) : Request D → Prop
  | .rollback hash => hash = H
  | .memSet stateHash _ kvs => stateHash = H ∧ kvs = []
  | _ => False

/-- All records are of trees with at most `n` keys, and so are the waiting trees, each
under its own hash. -/
structure MemOk (c : Codec D) (config : Option TreeConfig) (n : ℕ) (s : MemStore D) : Prop where
  sound : Sound c config (Within n) s.db
  pending : ∀ h p, s.trees h = some (some p) → ∃ hk b, h = some hk ∧ Within n b ∧
    Holds (storeView c config s.db) b p.root ∧ p.root.hash = some hk

/-- The hash is that of the bindings, and they are stored or wait under it. -/
structure Bears (c : Codec D) (config : Option TreeConfig) (s : MemStore D) (H : HashKey D)
    (b : Bindings) : Prop where
  digest : H.digest = digestOf c b
  kept : Stored c config s.db b H ∨ ∃ p, s.trees (some H) = some (some p)

variable {S H : Option (HashKey D)}

section
variable {c : Codec D} {config : Option TreeConfig} {s : MemStore D} {n : ℕ} {b : Bindings} {p : PendingTree D}
  {tree : Tree D}

omit [DecidableEq D] in
lemma MemOk.empty : MemOk c config 0 (MemStore.empty (D := D)) where
  sound h s hs := by simp [MemStore.empty] at hs
  pending h p hp := by simp [MemStore.empty] at hp

omit [DecidableEq D] in
lemma MemOk.extend (h : MemOk c config n s) {n' : ℕ} (hn : n ≤ n')
    {db : HashKey D → Option (StoreNode D)} (he : Extends c config s.db db)
    (hs : Sound c config (Within n') db) : MemOk c config n' { s with db } where
  sound := hs
  pending k p hp := by
    obtain ⟨hk,b,rfl,hb,hh,hha⟩ := h.pending k p hp
    exact ⟨hk,b,rfl,hb.mono hn,hh.extend he,hha⟩

lemma MemOk.drop (h : MemOk c config n s) (k : Option (HashKey D))
    (o : Option (Option (PendingTree D))) (ho : ∀ p, o ≠ some (some p)) :
    MemOk c config n { s with trees := update s.trees k o } where
  sound := h.sound
  pending k' p hp := by
    by_cases hk : k' = k
    · subst hk
      simp only [update_self] at hp
      exact absurd hp (ho p)
    · simp only [update_of_ne hk] at hp
      exact h.pending k' p hp

lemma Bears.drop {H : HashKey D} (h : Bears c config s H b) {K : Option (HashKey D)}
    (hne : ∀ p, s.trees (some H) = some (some p) → some H ≠ K) (o : Option (Option (PendingTree D))) :
    Bears c config { s with trees := update s.trees K o } H b := by
  obtain ⟨hd,hs | ⟨p,hp⟩⟩ := h
  · exact ⟨hd,.inl hs⟩
  · exact ⟨hd,.inr ⟨p,(update_of_ne (hne p hp) _ _).trans hp⟩⟩

lemma MemOk.load_state (h : MemOk c config n s) {height : ℤ}
    (hl : ((Tree.new s.db config).setBlockHeight height).load c S = .ok tree) :
    ∃ m, WellFormed m ∧ (contents m).length ≤ n ∧ StoredMap c config s.db m S := by
  have he : WellFormed (none : Option Bindings) := by simp [WellFormed]
  cases S with
  | none => exact ⟨none,he,zero_le _,.inl rfl⟩
  | some hk =>
    by_cases hk0 : hk = ⟨[],c.emptyRoot⟩
    · exact ⟨none,he,zero_le _,.inr (by rw [hk0])⟩
    · simp only [Tree.load,if_neg hk0] at hl
      obtain ⟨no,hnode,-⟩ := bind_eq_ok.mp hl
      cases hdb : s.db hk with
      | none => simp [getNode,Tree.new,Tree.setBlockHeight,hdb] at hnode
      | some record =>
        obtain ⟨b,hb,-,hs⟩ := h.sound hk record hdb
        refine ⟨some b,?_,by simpa using hb.2.2,hk,rfl,hs⟩
        rintro _ ⟨rfl⟩
        exact ⟨hb.1,hb.2.1⟩

omit [DecidableEq D] in
lemma Within.eq_of_digest (hc : c.Ideal) (hn : n < capacity) {b' : Bindings} (hb : Within n b)
    (hb' : Within n b') (h : digestOf c b = digestOf c b') : b = b' := by
  have hlt := (hb.fits hn).height
  have hlt' := (hb'.fits hn).height
  exact digestOf_injective hc hb.1 hb'.1 (by omega) (by omega) h

/-- Pairs set in memory give a tree for the map with the pairs inserted, under its hash. -/
theorem MemOk.memSet_spec (hc : c.Ideal) {m : Option Bindings} {f : Finmap fun _ : Bytes => Bytes}
    (hm : WellFormed m) (hl : (contents m).length ≤ n) (hf : Models m f)
    (hs : StoredMap c config s.db m S) (height : ℤ) {kvs : List (Bytes × Bytes)} (hne : kvs ≠ [])
    (hca : n+kvs.length < capacity) : ∃ hk b p, s.memSet c config S height kvs =
        .ok ({ s with trees := update s.trees (some hk) (some (some p)) },.hash (some hk)) ∧
      Within (n+kvs.length) b ∧ Holds (storeView c config s.db) b p.root ∧ p.root.hash = some hk ∧
      hk.digest = digestOf c b ∧ Models (some b) (kvs.foldl (fun f kv => f.insert kv.1 kv.2) f) := by
  obtain ⟨r,hlo,hrp,_⟩ := ((Tree.new s.db config).setBlockHeight height).load_spec hc
    (rfl : _ = some (NodeDB.mk s.db (some []))) rfl hm hs
  obtain ⟨r',hss,hrp',_⟩ := sets_spec
    (t:=⟨r,some ⟨s.db,some []⟩,height,config⟩) (storeView_serves rfl) hrp hm kvs (by omega)
  have hw' := hm.insertAll kvs
  have hl' := length_insertAll_le kvs m
  have hmo' := hf.insertAll hm kvs
  obtain ⟨b,hb⟩ := insertAll_ne_none hne m
  rw [hb] at hrp' hw' hl' hmo'
  have hro : r' ≠ .nil := Holds.ne_nil hrp'
  obtain ⟨no,hk,hh,hho,hme,hd,-⟩ := Holds.hashNode_store
    (t := ⟨r',some ⟨s.db,some []⟩,height,config⟩) hro hrp'
  have ht : (Tree.mk r' (some ⟨s.db,some []⟩) height config).hash c =
      .ok (⟨no,some ⟨s.db,some []⟩,height,config⟩,some hk) := by
    cases hr : r' with
    | nil => exact absurd hr hro
    | mk =>
      rw [hr] at hh
      simp only [Tree.hash,hh,ok_bind,pure_eq_ok]
  refine ⟨hk,b,⟨no,height⟩,?_,⟨(hw' b rfl).1,(hw' b rfl).2,?_⟩,hho,hme,hd,hmo'⟩
  · simp only [MemStore.memSet,if_neg hne,hlo]
    change (kvs.foldlM _ (Tree.mk r (some ⟨s.db,some []⟩) height config) >>= _) = _
    rw [hss,ok_bind,ht]
    rfl
  · rw [contents_some,length_toList] at hl'
    omega

lemma MemOk.commit_spec (hc : c.Ideal) (h : MemOk c config n s) (hn : n < capacity)
    (hp : s.trees H = some (some p)) : ∃ hk b db, H = some hk ∧ s.commit c config H =
        .ok (⟨db,update s.trees H none⟩,.hash H) ∧
      Within n b ∧ hk.digest = digestOf c b ∧ Extends c config s.db db ∧ Sound c config (Within n) db ∧
      Stored c config db b hk := by
  obtain ⟨hk,b,rfl,hb,hh,hm⟩ := h.pending H p hp
  obtain ⟨t',ba,hk',hsave,hnd,hsa,hs,_⟩ := (p.over config s.db).save_in hc rfl hh
    (hb.fits hn) (closed_within n) hb
  obtain rfl := hsa hk hm
  refine ⟨hk',b,NodeDB.write s.db ba,rfl,?_,hb,hs.stored.digest,hs.extends_,hs.sound h.sound,hs.stored⟩
  simp only [MemStore.commit,hp,hsave,ok_bind,hnd,pure_eq_ok]
  rfl

omit [DecidableEq D] in
lemma values_ok {g : Bytes → Bytes} (h : ∀ key, ∃ i va e, tree.get key = .ok (i,va,e) ∧
      (if e then va else []) = g key) (ks : List Bytes) : tree.values ks = .ok (ks.map g) := by
  induction ks with
  | nil => rfl
  | cons key ks ih =>
    obtain ⟨i,va,e,hge,hg⟩ := h key
    have hc : tree.values (key :: ks) = (tree.get key >>= fun r =>
        Except.ok (if r.2.2 then r.2.1 else [])) >>= fun v => tree.values ks >>= fun vs => .ok (v :: vs) :=
      List.mapM_cons
    rw [hc,hge,ok_bind,ok_bind,ih,ok_bind,List.map_cons,hg]

omit [DecidableEq D] in
lemma MemOk.values_pending (h : MemOk c config n s) (hn : n < capacity)
    (hp : s.trees H = some (some p)) : ∃ hk b, H = some hk ∧ Within n b ∧ hk.digest = digestOf c b ∧
      ∀ ks, ∃ vs, (p.over config s.db).values ks = .ok vs ∧
        ∀ f, Models (some b) f → (storeView c config s.db).Exact →
          vs = ks.map fun key => (f.lookup key).getD [] := by
  obtain ⟨hk,b,rfl,hb,hh,hm⟩ := h.pending H p hp
  have hfi := hb.fits hn
  have hs : (storeView c config s.db).Serves (p.over config s.db) :=
    @storeView_serves D c config (p.over config s.db) ⟨s.db,some []⟩ rfl
  obtain ⟨f,hf⟩ := exists_models hfi.1
  have hg : ∀ key, ∃ value, (p.over config s.db).get key =
      .ok (int32 ((f.keys.filter (· < key)).card : ℕ),value,(f.lookup key).isSome) ∧
        Reads (storeView c config s.db) (f.lookup key) value :=
    fun key => (p.over config s.db).get_spec hs (m := some b) hh hfi hf key
  choose value hv hr using hg
  refine ⟨hk,b,rfl,hb,hh.digest_of_hash hm,fun ks =>
    ⟨ks.map fun key => if (f.lookup key).isSome then value key else [],?_,?_⟩⟩
  · exact values_ok (fun key => ⟨_,_,_,hv key,rfl⟩) ks
  · intro f' hf' he
    apply List.map_congr_left
    intro key _
    have hl : f'.lookup key = f.lookup key := by
      rw [← hf'.lookup_eq (hfi.1 b rfl).1,← hf.lookup_eq (hfi.1 b rfl).1]
    rw [hl,hr key |>.eq_getD he]
    cases f.lookup key <;> rfl

section
variable (hc : c.Ideal) (h : MemOk c config n s)
include hc h

/-- What is read where a map is stored, whether or not a tree waits there too. -/
theorem MemOk.get_spec (hn : n < capacity)
    (hea : storedValue config = id) {m : Option Bindings} {f : Finmap fun _ : Bytes => Bytes}
    (hm : WellFormed m) (hl : (contents m).length ≤ n) (hf : Models m f)
    (hs : StoredMap c config s.db m H) (ks : List Bytes) :
    s.get c config H ks = .ok (ks.map fun key => (f.lookup key).getD []) := by
  have hdb : ((Tree.new s.db config).load c H >>= fun tree => tree.values ks) =
      .ok (ks.map fun key => (f.lookup key).getD []) := by
    have hr : ((Tree.new s.db config).load c H >>= fun tree => tree.values ks) = _ :=
      getKVPair_spec hc ⟨hm,hl.trans_lt hn⟩ hf hs ks
    simpa only [hea,Option.map_id,id] using hr
  obtain ⟨tree,hlo,hvs⟩ := bind_eq_ok.mp hdb
  have hv : (storeView c config s.db).Exact := fun _ _ _ _ => congrFun hea _
  unfold MemStore.get
  cases hp : s.trees H with
  | none => simp only [hlo,hvs]
  | some o =>
    cases o with
    | none => simp only [hlo,hvs]
    | some p =>
      obtain ⟨hk,b,rfl,hb,hd,hr⟩ := h.values_pending hn hp
      cases m with
      | none =>
        rcases hs with hs | hs
        · cases hs
        · cases hs
          exact absurd hd.symm (digestOf_ne_emptyRoot hc b)
      | some b' =>
        obtain ⟨hk',he,hst⟩ := hs
        cases he
        rw [contents_some,length_toList] at hl
        obtain rfl : b = b' := hb.eq_of_digest hc hn ⟨(hm b' rfl).1,(hm b' rfl).2,hl⟩
          (hd.symm.trans hst.digest)
        obtain ⟨vs,hva,heq⟩ := hr ks
        simp only [hva,heq f hf hv]

lemma MemOk.get_ok (hn : n < capacity)
    (H : Option (HashKey D)) (ks : List Bytes) : ∃ values, s.get c config H ks = .ok values := by
  have hdb : ∃ values, (match (Tree.new s.db config).load c H with
      | .error _ => .ok (ks.map fun _ => [])
      | .ok tree => tree.values ks : Result (List Bytes)) = .ok values := by
    cases hlo : (Tree.new s.db config).load c H with
    | error fa => exact ⟨_,rfl⟩
    | ok tree =>
      have hlo0 : ((Tree.new s.db config).setBlockHeight 0).load c H = .ok tree := hlo
      obtain ⟨m,hm,hl,hs⟩ := h.load_state hlo0
      obtain ⟨f,hf⟩ := exists_models hm
      have hr : ((Tree.new s.db config).load c H >>= fun tree => tree.values ks) = _ :=
        getKVPair_spec hc ⟨hm,hl.trans_lt hn⟩ hf hs ks
      rw [hlo,ok_bind] at hr
      exact ⟨_,hr⟩
  unfold MemStore.get
  cases hp : s.trees H with
  | none => exact hdb
  | some o =>
    cases o with
    | none => exact hdb
    | some p =>
      obtain ⟨_,_,_,_,_,hr⟩ := h.values_pending hn hp
      obtain ⟨values,hv,-⟩ := hr ks
      exact ⟨values,hv⟩

/-- A request goes through and keeps the store in order and what is stored; what waits under a hash
it does not drop waits on or is stored. -/
theorem MemOk.handle (r : Request D) (hca : n+r.pairs < capacity) :
    ∃ s' re, s.handle c config r = .ok (s',re) ∧ MemOk c config (n+r.pairs) s' ∧ Extends c config s.db s'.db ∧
      ∀ H b, Within n b → Bears c config s H b → ¬r.Drops (some H) → Bears c config s' H b := by
  cases r with
  | set S height kvs =>
    simp only [Request.pairs] at hca ⊢
    have hg : Sound c config (Within (n+kvs.length)) s.db :=
      h.sound.mono fun _ hb => hb.mono (le_add_right _ _)
    cases hlo : ((Tree.new s.db config).setBlockHeight height).load c S with
    | error fa =>
      refine ⟨s,.failed (.load fa),by simp only [MemStore.handle,MemStore.set,hlo],?_,
        Extends.refl _,fun _ _ _ hb _ => hb⟩
      exact h.extend (le_add_right _ _) (Extends.refl _) hg
    | ok tree =>
      obtain ⟨m,hm,hl,hs⟩ := h.load_state hlo
      obtain ⟨db,R,hse,hex,-,hsu,-⟩ := setKVPair_spec hc hm hs height kvs (by omega)
      refine ⟨{ s with db },.hash R,?_,h.extend (le_add_right _ _) hex (hsu _ (by omega) hg),hex,?_⟩
      · simp only [MemStore.handle,MemStore.set,hlo,hse,ok_bind,pure_eq_ok]
      · rintro H b hb ⟨hd,hso | hw⟩ -
        · exact ⟨hd,.inl (hex b H hb.1 hso)⟩
        · exact ⟨hd,.inr hw⟩
  | get S ks =>
    obtain ⟨vs,hge⟩ := h.get_ok hc (lt_of_le_of_lt (le_add_right _ _) hca) S ks
    refine ⟨s,.values vs,?_,h,Extends.refl _,fun _ _ _ hb _ => hb⟩
    simp only [MemStore.handle,hge,ok_bind,pure_eq_ok]
  | memSet S height kvs =>
    by_cases hkvs : kvs = []
    · subst hkvs
      refine ⟨_,.hash S,by simp only [MemStore.handle,MemStore.memSet,if_true],h.drop S (some none) (by simp),
        Extends.refl _,fun H b _ hb hdr => hb.drop ?_ (some none)⟩
      exact fun _ _ he => hdr ⟨he.symm,rfl⟩
    · have hg : Sound c config (Within (n+kvs.length)) s.db :=
        h.sound.mono fun _ hb => hb.mono (le_add_right _ _)
      have hmr := h.extend (le_add_right n kvs.length) (Extends.refl _) hg
      cases hlo : ((Tree.new s.db config).setBlockHeight height).load c S with
      | error fa =>
        refine ⟨s,.failed (.load fa),?_,hmr,Extends.refl _,fun _ _ _ hb _ => hb⟩
        simp only [MemStore.handle,MemStore.memSet,if_neg hkvs,hlo]
      | ok tree =>
        obtain ⟨m,hm,hl,hs⟩ := h.load_state hlo
        obtain ⟨f,hf⟩ := exists_models hm
        obtain ⟨hk,b,p,heq,hb,hh,hme,hd,-⟩ := MemOk.memSet_spec hc hm hl hf hs height hkvs hca
        refine ⟨_,.hash (some hk),heq,⟨hg,?_⟩,Extends.refl _,?_⟩
        · intro k q hq
          by_cases hk' : k = some hk
          · subst hk'
            simp only [update_self,Option.some.injEq] at hq
            subst hq
            exact ⟨hk,b,rfl,hb,hh,hme⟩
          · simp only [update_of_ne hk'] at hq
            exact hmr.pending k q hq
        · intro H b' _ hb' _
          by_cases hk' : some H = some hk
          · refine ⟨hb'.digest,.inr ⟨p,?_⟩⟩
            rw [hk']
            exact update_self ..
          · exact hb'.drop (fun _ _ => hk') _
  | commit K =>
    have hn : n < capacity := hca
    cases hK : s.trees K with
    | none =>
      refine ⟨s,.failed .errHashNotFound,?_,h,Extends.refl _,fun _ _ _ hb _ => hb⟩
      simp only [MemStore.handle,MemStore.commit,hK]
    | some o =>
      cases o with
      | none =>
        refine ⟨_,.hash K,by simp only [MemStore.handle,MemStore.commit,hK],h.drop K none (by simp),
          Extends.refl _,fun H b _ hb _ => hb.drop ?_ none⟩
        rintro p hp rfl
        rw [hK] at hp
        cases hp
      | some p =>
        obtain ⟨hk,b,db,rfl,heq,hb,hd,hex,hsu,hs⟩ := h.commit_spec hc hn hK
        refine ⟨_,.hash (some hk),heq,(h.extend (le_refl n) hex hsu).drop (some hk) none (by simp),hex,?_⟩
        rintro H b' hb' hbe -
        have hgo : Bears c config { s with db } H b' := ⟨hbe.digest,hbe.kept.imp_left (hex b' H hb'.1)⟩
        by_cases hH : some H = some hk
        · -- the tree that waited is the one asked for, and now it is stored
          cases hH
          obtain rfl : b = b' := hb.eq_of_digest hc hn hb' (hd.symm.trans hbe.digest)
          exact ⟨hd,.inl hs⟩
        · exact hgo.drop (fun _ _ => hH) none
  | rollback K =>
    cases hK : s.trees K with
    | none =>
      refine ⟨s,.failed .errHashNotFound,?_,h,Extends.refl _,fun _ _ _ hb _ => hb⟩
      simp only [MemStore.handle,MemStore.rollback,hK]
    | some o =>
      refine ⟨_,.hash K,by simp only [MemStore.handle,MemStore.rollback,hK],h.drop K none (by simp),
        Extends.refl _,fun H b _ hb hdr => hb.drop ?_ none⟩
      exact fun _ _ he => hdr he.symm

end

def pairsOf (requests : List (Request D)) : ℕ := (requests.map Request.pairs).sum

lemma MemOk.run (hc : c.Ideal) (h : MemOk c config n s) (requests : List (Request D))
    (hca : n+pairsOf requests < capacity) :
    ∃ s', s.run c config requests = .ok s' ∧ MemOk c config (n+pairsOf requests) s' ∧
      Extends c config s.db s'.db ∧
      ∀ H b, Within n b → Bears c config s H b → (∀ r ∈ requests, ¬r.Drops (some H)) →
        Bears c config s' H b := by
  induction requests generalizing s n with
  | nil => exact ⟨s,rfl,h,Extends.refl _,fun _ _ _ hb _ => hb⟩
  | cons r requests ih =>
    have hs : pairsOf (r :: requests) = r.pairs+pairsOf requests := by simp [pairsOf]
    rw [hs,← add_assoc] at hca ⊢
    obtain ⟨s1,re,heq,ho,he,hbe⟩ := h.handle hc r (by omega)
    obtain ⟨s2,hrun,ho2,he2,hbe2⟩ := ih ho hca
    refine ⟨s2,?_,ho2,he.trans he2,fun H b hb hba hd => ?_⟩
    · have hco : s.run c config (r :: requests) =
          (s.handle c config r >>= fun q => Except.ok q.1) >>= fun s => s.run c config requests :=
        List.foldlM_cons
      rw [hco,heq,ok_bind,ok_bind,hrun]
    · exact hbe2 H b (hb.mono (le_add_right _ _))
        (hbe H b hb hba (hd r List.mem_cons_self))
        (fun r' hr' => hd r' (List.mem_cons_of_mem _ hr'))

/-- Once `Commit` has succeeded for bindings that were kept, they are stored. -/
theorem MemOk.stored_of_commit (hc : c.Ideal) (h : MemOk c config n s) (hn : n < capacity) {H : HashKey D}
    (hb : Within n b) (hbe : Bears c config s H b) {s' : MemStore D}
    {H' : Option (HashKey D)} (hcm : s.handle c config (.commit (some H)) = .ok (s',.hash H')) :
    Stored c config s'.db b H := by
  change s.commit c config (some H) = _ at hcm
  cases hK : s.trees (some H) with
  | none => simp [MemStore.commit,hK] at hcm
  | some o =>
    cases o with
    | none =>
      simp only [MemStore.commit,hK,Except.ok.injEq,Prod.mk.injEq] at hcm
      obtain ⟨rfl,-⟩ := hcm
      exact hbe.kept.resolve_right (by simp [hK])
    | some p =>
      obtain ⟨hk,b',db,he,heq,hb',hd,-,-,hs⟩ := h.commit_spec hc hn hK
      cases he
      rw [heq] at hcm
      obtain ⟨rfl,-⟩ := hcm
      obtain rfl : b' = b := hb'.eq_of_digest hc hn hb (hd.symm.trans hbe.digest)
      exact hs

end

section
variable (c : Codec D) (config : Option TreeConfig)

/-- After `before`, `MemSet` at `S` returns `H`; after `between`, `Commit` of `H` succeeds;
then whenever the map at `S` could be read, `Get` at `H` after any more requests reads it
with the pairs put over it. -/
def CommitReads (before between after : List (Request D)) (S H : Option (HashKey D)) (height : ℤ)
    (kvs : List (Bytes × Bytes)) : Prop :=
  ∃ s0, MemStore.empty.run c config before = .ok s0 ∧
    ∀ s1, s0.handle c config (.memSet S height kvs) = .ok (s1,.hash H) →
    ∃ s2, s1.run c config between = .ok s2 ∧
    ∀ s3, s2.handle c config (.commit H) = .ok (s3,.hash H) →
    ∃ s4, s3.run c config after = .ok s4 ∧
    ∀ keys old, getKVPair c config s0.db S keys = .ok old →
      s4.get c config H keys = .ok (List.zipWith (fun k v => (lastValue kvs k).getD v) keys old)

variable {c config}

/-- A hash returned by `MemSet` bears the map with the pairs put over it. -/
theorem MemOk.memSet_bears (hc : c.Ideal) {s0 : MemStore D} {n : ℕ} (h : MemOk c config n s0)
    {height : ℤ} {kvs : List (Bytes × Bytes)} (hne : kvs ≠ []) (hca : n+kvs.length < capacity)
    {s1 : MemStore D} (hs : s0.handle c config (.memSet S height kvs) = .ok (s1,.hash H)) :
    ∃ m f hk b, WellFormed m ∧ (contents m).length ≤ n ∧ Models m f ∧ StoredMap c config s0.db m S ∧
      H = some hk ∧ Within (n+kvs.length) b ∧
      Models (some b) (kvs.foldl (fun f kv => f.insert kv.1 kv.2) f) ∧ Bears c config s1 hk b := by
  change s0.memSet c config S height kvs = _ at hs
  cases hlo : ((Tree.new s0.db config).setBlockHeight height).load c S with
  | error fa => simp [MemStore.memSet,hne,hlo] at hs
  | ok tree =>
    obtain ⟨m,hm,hl,hst⟩ := h.load_state hlo
    obtain ⟨f,hf⟩ := exists_models hm
    obtain ⟨hk,b,p,he,hb,-,-,hd,hmo⟩ := MemOk.memSet_spec hc hm hl hf hst height hne hca
    rw [he] at hs
    obtain ⟨rfl,rfl⟩ := hs
    exact ⟨m,f,hk,b,hm,hl,hf,hst,rfl,hb,hmo,hd,.inr ⟨p,update_self ..⟩⟩

/-- With the values kept in the records: a committed state reads as the map that it was
set from with the pairs over it, unless a request in between dropped it. -/
theorem commit_reads (hc : c.Ideal) (hmv : ∀ cfg, config = some cfg → cfg.enableMVCC = false)
    (before between after : List (Request D)) (S H : Option (HashKey D)) (height : ℤ)
    (kvs : List (Bytes × Bytes)) (hca : pairsOf before+kvs.length+pairsOf between+pairsOf after < capacity)
    (hke : kvs ≠ [] → ∀ r ∈ between, ¬r.Drops H) :
    CommitReads c config before between after S H height kvs := by
  have hea := storedValue_eq_id hmv
  obtain ⟨s0,hrun0,ho0,-⟩ := MemOk.empty.run hc before (by omega)
  rw [zero_add] at ho0
  refine ⟨s0,hrun0,fun s1 hse => ?_⟩
  obtain ⟨s1',reply,heq,ho1,he1,-⟩ := ho0.handle hc (.memSet S height kvs)
    (by simp only [Request.pairs]; omega)
  obtain ⟨rfl,rfl⟩ : s1' = s1 ∧ reply = .hash H := by simpa using heq.symm.trans hse
  simp only [Request.pairs] at ho1
  obtain ⟨s2,hrun2,ho2,he2,hbe2⟩ := ho1.run hc between (by omega)
  refine ⟨s2,hrun2,fun s3 hcm => ?_⟩
  obtain ⟨s3',reply,heq3,ho3,he3,-⟩ := ho2.handle hc (.commit H) (by simp only [Request.pairs]; omega)
  obtain ⟨rfl,rfl⟩ : s3' = s3 ∧ reply = .hash H := by simpa using heq3.symm.trans hcm
  obtain ⟨s4,hrun4,ho4,he4,-⟩ := ho3.run hc after (by simp only [Request.pairs]; omega)
  refine ⟨s4,hrun4,fun keys old hold => ?_⟩
  -- the map at `S`, and that it is stored at `H` with the pairs over it
  obtain ⟨m,f,m',hm,hl,hf,hs,hm',hl',hf',hs'⟩ : ∃ m f m', WellFormed m ∧
      (contents m).length ≤ pairsOf before ∧ Models m f ∧ StoredMap c config s0.db m S ∧ WellFormed m' ∧
      (contents m').length ≤ pairsOf before+kvs.length ∧
      Models m' (kvs.foldl (fun f kv => f.insert kv.1 kv.2) f) ∧ StoredMap c config s4.db m' H := by
    by_cases hne : kvs = []
    · subst hne
      obtain rfl : S = H := by
        have hsa : MemStore.memSet c config s0 S height [] = .ok (s1',.hash H) := hse
        simp only [MemStore.memSet,if_true,Except.ok.injEq,Prod.mk.injEq,Reply.hash.injEq] at hsa
        exact hsa.2
      obtain ⟨tree,hlo,-⟩ := bind_eq_ok.mp hold
      have hlo0 : ((Tree.new s0.db config).setBlockHeight 0).load c S = .ok tree := hlo
      obtain ⟨m,hm,hl,hs⟩ := ho0.load_state hlo0
      obtain ⟨f,hf⟩ := exists_models hm
      exact ⟨m,f,m,hm,hl,hf,hs,hm,hl,hf,hs.extend (he1.trans (he2.trans (he3.trans he4))) hm⟩
    · obtain ⟨m,f,hk,b,hm,hl,hf,hs,rfl,hb,hmo,hbe⟩ := ho0.memSet_bears hc hne (by omega) hse
      have hbt := hbe2 hk b hb hbe (hke hne)
      have hso := ho2.stored_of_commit hc (by omega) (hb.mono (le_add_right _ _)) hbt hcm
      exact ⟨m,f,some b,hm,hl,hf,hs,(hb.fits (by omega)).1,by simpa using hb.2.2,hmo,hk,rfl,he4 b hk hb.1 hso⟩
  have hr := getKVPair_spec hc ⟨hm,by omega⟩ hf hs keys
  rw [hea] at hr
  obtain rfl : (keys.map fun k => (f.lookup k).getD []) = old := by simpa using hr.symm.trans hold
  rw [ho4.get_spec hc hca hea hm' (by omega) hf' hs' keys,map_foldl_insert]

def loneHash (k v : Bytes) : HashKey Bytes := ⟨[],1 :: message k v 0 1⟩

/-- A second tree is set in memory and committed before the first one. -/
theorem commit_reads_interleaved :
    CommitReads framed none [] [.memSet none 2 [([3],[4])],.commit (some (loneHash [3] [4]))]
      [.rollback none] none (some (loneHash [1] [2])) 1 [([1],[2])] := by
  have hc := two_pow_lt_capacity
  refine commit_reads framed_ideal (by simp) _ _ _ _ _ _ _ ?_ ?_
  · simp only [pairsOf,List.map_cons,List.map_nil,List.sum_cons,List.sum_nil,Request.pairs,
      List.length_singleton]
    omega
  · intro _ r hr
    fin_cases hr <;> simp [Request.Drops]

def lonePending : PendingTree Bytes := ⟨.mk [1] [2] 0 1 (some (loneHash [1] [2])) none .nil none .nil false,1⟩

def lonePendings : Option (HashKey Bytes) → Option (Option (PendingTree Bytes)) :=
  update (fun _ => none) (some (loneHash [1] [2])) (some (some lonePending))

lemma memSet_lone (config : Option TreeConfig) :
    MemStore.empty.handle framed config (.memSet none 1 [([1],[2])]) =
      .ok (⟨fun _ => none,lonePendings⟩,.hash (some (loneHash [1] [2]))) := by
  have hk : ∀ t : Tree Bytes, t.root = .new [1] [2] →
      hashKey t 0 (1 :: message [1] [2] 0 1) = .ok (loneHash [1] [2]) := by
    intro t ht
    cases hc : t.config with
    | none => simp [hashKey,hc,loneHash]
    | some cfg => simp [hashKey,hc,ht,Node.height,Node.new,loneHash]
  simp [MemStore.handle,MemStore.memSet,MemStore.empty,Tree.load,Tree.setBlockHeight,Tree.new,Tree.set,
    Tree.hash,Node.new,Node.hashNode,LeafNode.hash,framed,lonePendings,lonePending]
  rw [hk _ rfl]
  rfl

lemma commit_lone {cfg : TreeConfig} (hm : cfg.enableMVCC = true) :
    (MemStore.mk (fun _ => none) lonePendings).handle framed (some cfg)
        (.commit (some (loneHash [1] [2]))) =
      .ok (⟨update (fun _ => none) (loneHash [1] [2]) (some ⟨[1],[],none,none,0,1⟩),
        update lonePendings (some (loneHash [1] [2])) none⟩,.hash (some (loneHash [1] [2]))) := by
  obtain ⟨d,hd⟩ : ∃ d, maxDepth = d+1 := ⟨2^31-1,by norm_num [maxDepth]⟩
  simp [MemStore.handle,MemStore.commit,PendingTree.over,lonePendings,lonePending,Tree.save,hd,Node.save,
    Node.hashNode,saveNode,Node.storeNode,hm,NodeDB.write,Node.hash]

/-- A `MemSet` without pairs at the hash of a waiting tree drops it, and `Commit` then
succeeds without saving anything. With `EnableMVCC` the records keep no values. -/
theorem commit_loses : ¬CommitReads framed none [] [.memSet (some (loneHash [1] [2])) 2 []] [] none
        (some (loneHash [1] [2])) 1 [([1],[2])] ∧
      ¬CommitReads framed (some ⟨false,true⟩) [] [] [] none (some (loneHash [1] [2])) 1 [([1],[2])] := by
  obtain ⟨d,hd⟩ : ∃ d, maxDepth = d+1 := ⟨2^31-1,by norm_num [maxDepth]⟩
  constructor
  · rintro ⟨s0,hrun0,hs⟩
    cases hrun0
    obtain ⟨s2,hrun2,hc⟩ := hs _ (memSet_lone none)
    cases hrun2
    obtain ⟨s4,hrun4,hg⟩ := hc _ (by simp [MemStore.handle,MemStore.commit]; rfl)
    cases hrun4
    have hr := hg [[1]] [[]] rfl
    simp [MemStore.get,Tree.load,framed,Tree.new,getNode,lastValue,loneHash] at hr
  · rintro ⟨s0,hrun0,hs⟩
    cases hrun0
    obtain ⟨s2,hrun2,hc⟩ := hs _ (memSet_lone _)
    cases hrun2
    obtain ⟨s4,hrun4,hg⟩ := hc _ (commit_lone rfl)
    cases hrun4
    have hr := hg [[1]] [[]] rfl
    simp [MemStore.get,Tree.load,framed,Tree.new,getNode,lastValue,Tree.values,Tree.get,Node.make,
      Node.get,hd,Bytes.compare,loneHash] at hr

end

end Dpos.Mavl
