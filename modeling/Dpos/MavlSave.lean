import Dpos.MavlRefine

/-! Hashing, saving and loading. The hash of a node determines its bindings, so
a record that is written again under the same key never changes what the key
stands for: a save keeps every tree that was stored before. -/
namespace Dpos.Mavl

open LeafTree Function NodeDB Node LeafTree

variable {D : Type} {c : Codec D} {config : Option TreeConfig}

variable {b : Bindings} {db db' : HashKey D → Option (StoreNode D)} {h hk : HashKey D} {w : View D}
  {t : Tree D} {n ln rn : Node D} {s : StoreNode D} {height size : ℤ} {k v : Bytes}
  {lh rh hash : Option (HashKey D)} {fuel : ℕ} {ndb : NodeDB D}

lemma digestOf_injective (hc : c.Ideal) {b' : Bindings} (hb : b.Ordered) (hb' : b'.Ordered)
    (hh : b.height < 2^31) (hh' : b'.height < 2^31) (he : digestOf c b = digestOf c b') :
    b = b' := by
  induction b generalizing b' with
  | leaf k v =>
    cases b' with
    | leaf k' v' => simpa using hc.marshalLeaf_injective (hc.sha256_injective he)
    | inner k' l' r' =>
      have h0 := int32_height_ne_zero hh'
      have := hc.marshal_height _ _ (hc.sha256_injective he)
      dsimp only at this
      exact absurd this.symm h0
  | inner k l r ihl ihr =>
    cases b' with
    | leaf k' v' =>
      have h0 := int32_height_ne_zero hh
      have := hc.marshal_height _ _ (hc.sha256_injective he.symm)
      dsimp only at this
      exact absurd this.symm h0
    | inner k' l' r' =>
      have hl := height_left_lt k l r
      have hr := height_right_lt k l r
      have hl' := height_left_lt k' l' r'
      have hr' := height_right_lt k' l' r'
      have hm := hc.marshalInner_injective (hc.sha256_injective he)
      simp only [InnerNode.mk.injEq] at hm
      obtain rfl := ihl hb.1 hb'.1 (by omega) (by omega) hm.1
      obtain rfl := ihr hb.2.1 hb'.2.1 (by omega) (by omega) hm.2.1
      -- the separators are not hashed, but both are the least key on the right
      rw [← hb.2.2.2,← hb'.2.2.2]

lemma digestOf_ne_emptyRoot (hc : c.Ideal) (b : Bindings) : digestOf c b ≠ c.emptyRoot := by
  cases b <;> exact hc.sha256_ne_emptyRoot _

lemma Stored.digest (hs : Stored c config db b h) : h.digest = digestOf c b := by
  cases b <;> exact hs.1

lemma Stored.height_lt (hs : Stored c config db b h) : b.height < 2^31 := by
  cases b with
  | leaf k v => simp [LeafTree.height]
  | inner k l r => exact hs.2.1

/-- The record that a node for the bindings is stored as, when its children are. -/
def Record (config : Option TreeConfig) (stored : Bindings → HashKey D → Prop) :
    Bindings → StoreNode D → Prop
  | .leaf k v, s => s = ⟨k,storedValue config v,none,none,0,1⟩
  | .inner k l r, s => (inner k l r).height < 2^31 ∧ ∃ lh rh,
      s = ⟨k,[],some lh,some rh,int32 (inner k l r).height,
        int32 (inner k l r).size⟩ ∧ stored l lh ∧ stored r rh

lemma stored_iff : Stored c config db b h ↔
      h.digest = digestOf c b ∧ ∃ s, db h = some s ∧ Record config (Stored c config db) b s := by
  cases b with
  | leaf k v => simp [Stored,Record]
  | inner k l r =>
    constructor
    · rintro ⟨hd,hlt,lh,rh,hdb,hl,hr⟩
      exact ⟨hd,_,hdb,hlt,lh,rh,rfl,hl,hr⟩
    · rintro ⟨hd,_,hdb,hlt,lh,rh,rfl,hl,hr⟩
      exact ⟨hd,hlt,lh,rh,hdb,hl,hr⟩

/-- The ordered trees of a database. -/
def storeView (c : Codec D) (config : Option TreeConfig) (db : HashKey D → Option (StoreNode D)) :
    View D := ⟨c,config,fun b h => b.Ordered ∧ Stored c config db b h⟩

/-- A view serves the tree if what it has stored is in the records, with children that
are stored. -/
theorem View.serves_of_records (hn : t.ndb = some ndb)
    (hw : ∀ b h, w.stored b h → h.digest = digestOf w.codec b ∧ ∃ s, ndb.db h = some s ∧ Record w.config w.stored b s) :
    w.Serves t := by
  intro b h hs
  obtain ⟨hd,s,hdb,hrc⟩ := hw b h hs
  have ho : ∀ li : Prop, li → HashOk w b li (some h) true := by
    intro li hl
    refine ⟨?_,fun _ => ⟨h,rfl,hs⟩,fun _ _ => hl⟩
    rintro _ ⟨rfl⟩
    exact hd
  cases b with
  | leaf k v =>
    obtain rfl : s = _ := hrc
    exact ⟨.make h ⟨k,storedValue w.config v,none,none,0,1⟩,by simp only [getNode,hn,hdb],
      storedValue w.config v,some h,true,by simp [make],.inr ⟨rfl,rfl⟩,ho _ trivial⟩
  | inner k l r =>
    obtain ⟨hlt,lh,rh,rfl,hl,hr⟩ := hrc
    refine ⟨_,by simp only [getNode,hn,hdb]; rfl,hlt,some h,some lh,.nil,some rh,.nil,true,
      ?_,ho _ ⟨⟨lh,rfl,.inl rfl⟩,⟨rh,rfl,.inl rfl⟩⟩,.inr ⟨rfl,lh,rfl,hl⟩,.inr ⟨rfl,rh,rfl,hr⟩⟩
    simp [make,int32_height_ne_zero hlt]

lemma storeView_serves (hn : t.ndb = some ndb) : (storeView c config ndb.db).Serves t := by
  refine View.serves_of_records hn fun b h hst => ?_
  obtain ⟨hd,s,hdb,hrc⟩ := stored_iff.mp hst.2
  refine ⟨hd,s,hdb,?_⟩
  cases b with
  | leaf k v => exact hrc
  | inner k l r =>
    obtain ⟨hlt,lh,rh,hs,hl,hr⟩ := hrc
    exact ⟨hlt,lh,rh,hs,⟨hst.1.1,hl⟩,⟨hst.1.2.1,hr⟩⟩

lemma getNode_hash (hn : getNode t (some h) = .ok n) : n.hash = some h := by
  unfold getNode at hn
  split at hn
  · simp at hn
  · simp at hn
  · rename_i h₀ _ he
    cases he
    split at hn
    · simp at hn
    · rw [← Except.ok.inj hn,make]
      split_ifs <;> rfl

def Extends (c : Codec D) (config : Option TreeConfig) (db db' : HashKey D → Option (StoreNode D)) :
    Prop := ∀ b h, b.Ordered → Stored c config db b h → Stored c config db' b h

lemma Extends.refl (db : HashKey D → Option (StoreNode D)) : Extends c config db db := fun _ _ _ h => h

lemma Extends.trans {db1 db2 db3 : HashKey D → Option (StoreNode D)}
    (h1 : Extends c config db1 db2) (h2 : Extends c config db2 db3) : Extends c config db1 db3 :=
  fun b h hb hs => h2 b h hb (h1 b h hb hs)

lemma Record.mono {st st' : Bindings → HashKey D → Prop} (hb : b.Ordered)
    (hm : ∀ b h, b.Ordered → st b h → st' b h) (h : Record config st b s) :
    Record config st' b s := by
  cases b with
  | leaf k v => exact h
  | inner k l r =>
    obtain ⟨hlt,lh,rh,hs,hl,hr⟩ := h
    exact ⟨hlt,lh,rh,hs,hm l lh hb.1 hl,hm r rh hb.2.1 hr⟩

section
variable [DecidableEq D] (hc : c.Ideal) (hb : b.Ordered) (hd : hk.digest = digestOf c b) (hlt : b.height < 2^31)
  (hs : Record config (Stored c config db) b s)
include hc hb hd hlt hs

lemma extends_update : Extends c config db (update db hk (some s)) := by
  intro b1 h hb1 hst
  induction b1 generalizing h with
  | leaf k v =>
    by_cases he : h = hk
    · subst he
      obtain rfl : leaf k v = b := digestOf_injective hc hb1 hb hst.height_lt hlt
        (by rw [← hst.digest,hd])
      obtain rfl : s = _ := hs
      exact ⟨hd,update_self ..⟩
    · exact ⟨hst.1,by rw [update_of_ne he]; exact hst.2⟩
  | inner k l r ihl ihr =>
    by_cases he : h = hk
    · subst he
      obtain rfl : inner k l r = b := digestOf_injective hc hb1 hb hst.height_lt hlt
        (by rw [← hst.digest,hd])
      obtain ⟨_,lh,rh,rfl,hl,hr⟩ := hs
      exact ⟨hd,hlt,lh,rh,update_self ..,ihl lh hb1.1 hl,ihr rh hb1.2.1 hr⟩
    · obtain ⟨hd1,hlt1,lh,rh,hdb,hl,hr⟩ := hst
      exact ⟨hd1,hlt1,lh,rh,by rw [update_of_ne he]; exact hdb,
        ihl lh hb1.1 hl,ihr rh hb1.2.1 hr⟩

lemma stored_update : Stored c config (update db hk (some s)) b hk :=
  stored_iff.mpr ⟨hd,s,update_self ..,hs.mono hb (extends_update hc hb hd hlt hs)⟩

end

lemma Holds.mono {w' : View D} (hc : w'.codec = w.codec) (hcn : w'.config = w.config)
    (hm : ∀ b h, w.stored b h → w'.stored b h) (h : Holds w b n) : Holds w' b n := by
  induction b generalizing n with
  | leaf k v =>
    obtain ⟨v',hash,p,rfl,hv,ho⟩ := h
    refine ⟨v',hash,p,rfl,hcn ▸ hv,hc ▸ ho.digest,?_,ho.linked⟩
    intro hp
    obtain ⟨hk,he,hs⟩ := ho.stored hp
    exact ⟨hk,he,hm _ _ hs⟩
  | inner k l r ihl ihr =>
    have hcd : ∀ {b : Bindings} {h : Option (HashKey D)} {n : Node D},
        (∀ {n}, Holds w b n → Holds w' b n) → Child w b h n → Child w' b h n := by
      rintro b h n ih (⟨hne,hh⟩ | ⟨hn,hk,he,hs⟩)
      · exact .inl ⟨hne,ih hh⟩
      · exact .inr ⟨hn,hk,he,hm _ _ hs⟩
    obtain ⟨hlt,hash,lh,ln,rh,rn,p,rfl,ho,hl,hr⟩ := h
    refine ⟨hlt,hash,lh,ln,rh,rn,p,rfl,⟨hc ▸ ho.digest,?_,ho.linked⟩,hcd ihl hl,hcd ihr hr⟩
    intro hp
    obtain ⟨hk,he,hs⟩ := ho.stored hp
    exact ⟨hk,he,hm _ _ hs⟩

lemma Holds.extend (he : Extends c config db db')
    (h : Holds (storeView c config db) b n) : Holds (storeView c config db') b n := by
  refine Holds.mono ?_ ?_ ?_ h
  · rfl
  · rfl
  · rintro b k ⟨hb,hs⟩
    exact ⟨hb,he b k hb hs⟩

lemma Child.extend (he : Extends c config db db')
    {h : Option (HashKey D)} (hc : Child (storeView c config db) b h n) :
    Child (storeView c config db') b h n := by
  rcases hc with ⟨hne,hh⟩ | ⟨hn,hk,hk',hb,hs⟩
  · exact .inl ⟨hne,hh.extend he⟩
  · exact .inr ⟨hn,hk,hk',hb,he b hk hb hs⟩

lemma hashKey_digest (hr : t.root ≠ .nil) (height : ℤ) (d : D) :
    ∃ h, hashKey t height d = .ok h ∧ h.digest = d := by
  obtain ⟨H,hH⟩ : ∃ H, t.root.height = .ok H := by
    cases ht : t.root with
    | nil => exact absurd ht hr
    | mk => exact ⟨_,rfl⟩
  simp only [hashKey,hH,ok_bind]
  rcases t.config with _ | config
  · exact ⟨_,rfl,rfl⟩
  · dsimp only
    split_ifs
    · exact ⟨_,rfl,rfl⟩
    · exact ⟨_,rfl,rfl⟩
    · exact ⟨_,rfl,rfl⟩

lemma hashKey_root (hr : t.root.height = .ok height) (d : D) : hashKey t height d = .ok ⟨[],d⟩ := by
  simp only [hashKey,hr,ok_bind,ne_eq,not_true_eq_false,if_false,pure_eq_ok]
  cases t.config with
  | none => rfl
  | some config => simp only [ite_self]

/-- How `Node.Hash` treats a child: a pointer is hashed, a hash is taken as it is. -/
def Node.hashChild (c : Codec D) (t : Tree D) (h : Option (HashKey D)) :
    Node D → Result (Node D × Option (HashKey D))
  | .nil => .ok (.nil,h)
  | n => do
    let (n,h) ← n.hashNode c t
    return (n,some h)

lemma Node.hashNode_eq (hz : height ≠ 0) (lh rh : Option (HashKey D)) (ln rn : Node D) (p : Bool) :
    (Node.mk k v height size none lh ln rh rn p).hashNode c t = (do
      let (ln,lh) ← ln.hashChild c t lh
      match lh with
      | none => .error .leftHashNil
      | some lh =>
        let (rn,rh) ← rn.hashChild c t rh
        match rh with
        | none => .error .rightHashNil
        | some rh =>
          let h ← hashKey t height (InnerNode.hash c ⟨lh,rh,height,size⟩)
          return (.mk k v height size (some h) (some lh) ln (some rh) rn p,h)) := by
  rw [hashNode,if_neg hz]
  cases ln <;> cases rn <;> cases lh <;> cases rh <;> simp [hashChild]

lemma Node.hashNode_inner (hz : height ≠ 0) {ln' rn' : Node D} {lk rk : HashKey D}
    {p : Bool} (hl : ln.hashChild c t lh = .ok (ln',some lk))
    (hr : rn.hashChild c t rh = .ok (rn',some rk))
    (hh : hashKey t height (InnerNode.hash c ⟨lk,rk,height,size⟩) = .ok hk) :
    (Node.mk k v height size none lh ln rh rn p).hashNode c t =
      .ok (.mk k v height size (some hk) (some lk) ln' (some rk) rn' p,hk) := by
  rw [hashNode_eq hz]
  simp only [hl,hr,ok_bind,hh,pure_eq_ok]

lemma Node.hashNode_pre {m : Node D} (hr : t.root = n) (hn : ∀ h, n.hash = some h → h.pre = [])
    (hh : n.hashNode c t = .ok (m,h)) (hm : m.hash = some hk) : hk.pre = [] := by
  rcases n with _ | ⟨k,v,height,size,_ | h₀,lh,ln,rh,rn,p⟩
  · simp [hashNode] at hh
  · have hro : t.root.height = .ok height := by rw [hr]; rfl
    by_cases hz : height = 0
    · simp only [hashNode,if_pos hz,hashKey_root hro,ok_bind,pure_eq_ok,Except.ok.injEq,
        Prod.mk.injEq] at hh
      rw [← hh.1] at hm
      simp only [hash,Option.some.injEq] at hm
      rw [← hm]
    · rw [hashNode_eq hz] at hh
      obtain ⟨⟨ln',lh'⟩,_,hh⟩ := bind_eq_ok.mp hh
      rcases lh' with _ | lh'
      · simp at hh
      obtain ⟨⟨rn',rh'⟩,_,hh⟩ := bind_eq_ok.mp hh
      rcases rh' with _ | rh'
      · simp at hh
      simp only [hashKey_root hro,ok_bind,pure_eq_ok,Except.ok.injEq,Prod.mk.injEq] at hh
      rw [← hh.1] at hm
      simp only [hash,Option.some.injEq] at hm
      rw [← hm]
  · simp only [hashNode,Except.ok.injEq,Prod.mk.injEq] at hh
    rw [← hh.1] at hm
    exact hn hk hm

lemma Holds.digest_of_hash (h : Holds w b n) (he : n.hash = some hk) : hk.digest = digestOf w.codec b := by
  cases b with
  | leaf k v => obtain ⟨v',hash,p,rfl,_,ho⟩ := h; exact ho.digest hk he
  | inner k l r => obtain ⟨_,hash,lh,ln,rh,rn,p,rfl,ho,_⟩ := h; exact ho.digest hk he

lemma Child.hashChild {h : Option (HashKey D)} (hc : Child w b h n)
    (hw : ∀ b h, w.stored b h → h.digest = digestOf w.codec b)
    (ih : ∀ n, Holds w b n → ∃ n' hk, n.hashNode w.codec t = .ok (n',hk) ∧ Holds w b n' ∧ n'.hash = some hk ∧ (n.hash ≠ none → n' = n)) :
    ∃ n' hk, n.hashChild w.codec t h = .ok (n',some hk) ∧ Child w b (some hk) n' ∧
      Linked (some hk) n' ∧ hk.digest = digestOf w.codec b := by
  rcases hc with ⟨hne,hh⟩ | ⟨rfl,hk,rfl,hs⟩
  · obtain ⟨n',hk,hn',hh',he,_⟩ := ih n hh
    refine ⟨n',hk,?_,hh'.child _,⟨hk,rfl,.inr he⟩,?_⟩
    · cases n with
      | nil => exact absurd rfl hne
      | mk => simp only [hashChild,hn',ok_bind,pure_eq_ok]
    · exact hh'.digest_of_hash he
  · exact ⟨.nil,hk,rfl,.inr ⟨rfl,hk,rfl,hs⟩,⟨hk,rfl,.inl rfl⟩,hw b hk hs⟩

lemma Holds.hashNode (hr : t.root ≠ .nil)
    (hw : ∀ b h, w.stored b h → h.digest = digestOf w.codec b) (h : Holds w b n) :
    ∃ n' hk, n.hashNode w.codec t = .ok (n',hk) ∧ Holds w b n' ∧ n'.hash = some hk ∧
      (n.hash ≠ none → n' = n) := by
  induction b generalizing n with
  | leaf k v =>
    obtain ⟨v',hash,p,rfl,hv,ho⟩ := id h
    rcases hash with _ | hk
    · obtain ⟨hk,hh,hd⟩ := hashKey_digest hr 0 (LeafNode.hash w.codec ⟨k,v',0,1⟩)
      have hp : p = false := by
        by_contra hp
        obtain ⟨_,he,_⟩ := ho.stored (by simpa using hp)
        simp at he
      subst hp
      obtain rfl : v' = v := by simpa using hv
      refine ⟨.mk k v' 0 1 (some hk) none .nil none .nil false,hk,?_,?_,rfl,by simp [Node.hash]⟩
      · simp only [Node.hashNode,if_true,hh,ok_bind,pure_eq_ok]
      · refine ⟨v',some hk,false,rfl,.inl rfl,?_,by simp,by simp⟩
        rintro _ ⟨rfl⟩
        exact hd
    · exact ⟨_,hk,rfl,h,rfl,fun _ => rfl⟩
  | inner k l r ihl ihr =>
    obtain ⟨hlt,hash,lh,ln,rh,rn,p,rfl,ho,hl,hr'⟩ := id h
    rcases hash with _ | hk
    · have hp : p = false := by
        by_contra hp
        obtain ⟨_,he,_⟩ := ho.stored (by simpa using hp)
        simp at he
      subst hp
      obtain ⟨ln',lk,hln,hl',hll,hld⟩ := Child.hashChild hl hw fun n hn => ihl hn
      obtain ⟨rn',rk,hrn,hr'',hrl,hrd⟩ := Child.hashChild hr' hw fun n hn => ihr hn
      obtain ⟨hk,hh,hd⟩ := hashKey_digest hr (int32 (inner k l r).height)
        (InnerNode.hash w.codec ⟨lk,rk,int32 (inner k l r).height,
          int32 (inner k l r).size⟩)
      refine ⟨.mk k [] (int32 (inner k l r).height) (int32 (inner k l r).size)
        (some hk) (some lk) ln' (some rk) rn' false,hk,?_,?_,rfl,by simp [Node.hash]⟩
      · exact Node.hashNode_inner (int32_height_ne_zero hlt) hln hrn hh
      · refine ⟨hlt,some hk,some lk,ln',some rk,rn',false,rfl,⟨?_,by simp,fun _ _ => ⟨hll,hrl⟩⟩,
          hl',hr''⟩
        rintro _ ⟨rfl⟩
        rw [hd,InnerNode.hash,hld,hrd,digestOf]
    · exact ⟨_,hk,rfl,h,rfl,fun _ => rfl⟩

/-! ### Saving -/

/-- How `Node.save` treats a child: only pointers are followed. -/
def Node.saveChild (c : Codec D) (t : Tree D) (fuel : ℕ)
    (batch : Option (List (HashKey D × StoreNode D))) :
    Node D → Result (Option (List (HashKey D × StoreNode D)))
  | .nil => .ok batch
  | n => do
    let (_,batch) ← n.save c t fuel batch
    return batch

lemma Node.save_eq (hh : n.hashNode c t = .ok (.mk k v height size hash lh ln rh rn false,hk))
    (batch : Option (List (HashKey D × StoreNode D))) :
    n.save c t (fuel+1) batch = (do
      let batch ← ln.saveChild c t fuel batch
      let batch ← rn.saveChild c t fuel batch
      saveNode t batch (.mk k v height size hash lh .nil rh .nil false)) := by
  simp only [save,hh,ok_bind,Bool.false_eq_true,if_false]
  cases ln <;> cases rn <;> simp [saveChild]

lemma Node.save_succ {batch batch1 batch2 : Option (List (HashKey D × StoreNode D))}
    (hh : n.hashNode c t = .ok (.mk k v height size hash lh ln rh rn false,hk))
    (hl : ln.saveChild c t fuel batch = .ok batch1) (hr : rn.saveChild c t fuel batch1 = .ok batch2) :
    n.save c t (fuel+1) batch = saveNode t batch2 (.mk k v height size hash lh .nil rh .nil false) := by
  rw [save_eq hh,hl,ok_bind,hr,ok_bind]

lemma storeNode_leaf (t : Tree D) (k v : Bytes) (hash lh rh : Option (HashKey D)) (ln rn : Node D) (p : Bool) :
    (Node.mk k v 0 1 hash lh ln rh rn p).storeNode t =
      .ok ⟨k,storedValue t.config v,none,none,0,1⟩ := by
  rcases hc : t.config with _ | config <;> simp [storeNode,storedValue,hc]

lemma Holds.hashNode_store (hr : t.root ≠ .nil) (h : Holds (storeView c config db) b n) :
    ∃ n' hk, n.hashNode c t = .ok (n',hk) ∧ Holds (storeView c config db) b n' ∧
      n'.hash = some hk ∧ hk.digest = digestOf c b ∧ ∀ h₀, n.hash = some h₀ → hk = h₀ := by
  have hw : ∀ b h, (storeView c config db).stored b h →
      h.digest = digestOf (storeView c config db).codec b := fun b h hs => hs.2.digest
  obtain ⟨n',hk,hn',hh',he,hsm⟩ := h.hashNode hr hw
  refine ⟨n',hk,hn',hh',he,hh'.digest_of_hash he,?_⟩
  intro h₀ h1
  rw [hsm (by simp [h1]),h1] at he
  simpa using he.symm

lemma Node.save_persisted
    (hh : n.hashNode c t = .ok (.mk k v height size hash lh ln rh rn true,hk))
    (batch : Option (List (HashKey D × StoreNode D))) :
    n.save c t (fuel+1) batch = .ok (.mk k v height size hash lh ln rh rn true,batch) := by
  simp only [save,hh,ok_bind,if_true,pure_eq_ok]

lemma Node.save_hash {n' : Node D} {batch batch' : Option (List (HashKey D × StoreNode D))}
    (hs : n.save c t fuel batch = .ok (n',batch')) :
    ∃ m h, n.hashNode c t = .ok (m,h) ∧ m.hash = n'.hash := by
  cases fuel with
  | zero => simp [save] at hs
  | succ fuel =>
    obtain ⟨⟨m,h⟩,hm,hr⟩ := bind_eq_ok.mp hs
    refine ⟨m,h,hm,?_⟩
    rcases m with _ | ⟨k,v,height,size,hash,lh,ln,rh,rn,p⟩
    · simp at hr
    cases p with
    | true =>
      simp only [if_true,pure_eq_ok,Except.ok.injEq,Prod.mk.injEq] at hr
      rw [← hr.1]
    | false =>
      rw [save_eq hm] at hs
      obtain ⟨batch1,_,hs⟩ := bind_eq_ok.mp hs
      obtain ⟨batch2,_,hs⟩ := bind_eq_ok.mp hs
      rcases hash with _ | hash
      · simp [saveNode] at hs
      obtain ⟨s,_,hs⟩ := bind_eq_ok.mp hs
      rcases batch2 with _ | batch2
      · simp at hs
      simp only [pure_eq_ok,Except.ok.injEq,Prod.mk.injEq] at hs
      rw [← hs.1]
      rfl

section Save
variable [DecidableEq D]

@[simp] lemma NodeDB.write_nil (db : HashKey D → Option (StoreNode D)) : write db [] = db := rfl
@[simp] lemma NodeDB.write_append_singleton (db : HashKey D → Option (StoreNode D))
    (batch : List (HashKey D × StoreNode D)) (h : HashKey D) (s : StoreNode D) :
    write db (batch ++ [(h,s)]) = update (write db batch) h (some s) := by
  simp [write]

/-- What saving a subtree does to the batch and to what the database will hold. -/
structure Saved (c : Codec D) (config : Option TreeConfig) (db : HashKey D → Option (StoreNode D))
    (b : Bindings) (hk : HashKey D) (batch batch' : List (HashKey D × StoreNode D)) : Prop where
  extends_ : Extends c config (write db batch) (write db batch')
  stored : Stored c config (write db batch') b hk

/-- Every record belongs to a tree that is stored under its key and that `P` allows. -/
def Sound (c : Codec D) (config : Option TreeConfig) (P : Bindings → Prop)
    (db : HashKey D → Option (StoreNode D)) : Prop :=
  ∀ h s, db h = some s → ∃ b, P b ∧ b.Ordered ∧ Stored c config db b h

variable {P : Bindings → Prop} {batch : List (HashKey D × StoreNode D)}

omit [DecidableEq D] in
lemma Sound.mono {P' : Bindings → Prop} (hP : ∀ b, P b → P' b) (h : Sound c config P db) :
    Sound c config P' db := by
  intro k s hk
  obtain ⟨b,hb,ho,hs⟩ := h k s hk
  exact ⟨b,hP b hb,ho,hs⟩

/-- The record of a tree that `P` allows, written after its children. -/
theorem Sound.update (hc : c.Ideal) (hP : P b) (hb : b.Ordered) (hd : hk.digest = digestOf c b)
    (hlt : b.height < 2^31) (hs : Record config (Stored c config db) b s) (h : Sound c config P db) :
    Sound c config P (update db hk (some s)) := by
  intro k s' hk'
  by_cases he : k = hk
  · subst he
    exact ⟨b,hP,hb,stored_update hc hb hd hlt hs⟩
  · rw [update_of_ne he] at hk'
    obtain ⟨b',hP',hb',hst⟩ := h k s' hk'
    exact ⟨b',hP',hb',extends_update hc hb hd hlt hs b' k hb' hst⟩

/-- A saved subtree of a database in which `P` allows all trees. -/
structure SavedIn (c : Codec D) (config : Option TreeConfig) (P : Bindings → Prop)
    (db : HashKey D → Option (StoreNode D)) (b : Bindings) (hk : HashKey D)
    (batch batch' : List (HashKey D × StoreNode D)) : Prop extends Saved c config db b hk batch batch' where
  sound : Sound c config P (write db batch) → Sound c config P (write db batch')

/-- `P` allows the subtrees of the trees it allows. -/
def Closed (P : Bindings → Prop) : Prop := ∀ k l r, P (.inner k l r) → P l ∧ P r

variable {batch' : List (HashKey D × StoreNode D)}

lemma Saved.append (hc : c.Ideal) (hb : b.Ordered) (hd : hk.digest = digestOf c b) (hlt : b.height < 2^31)
    (he : Extends c config (write db batch) (write db batch'))
    (hs : Record config (Stored c config (write db batch')) b s) :
    Saved c config db b hk batch (batch' ++ [(hk,s)]) := by
  constructor
  · rw [write_append_singleton]
    exact he.trans (extends_update hc hb hd hlt hs)
  · rw [write_append_singleton]
    exact stored_update hc hb hd hlt hs

lemma SavedIn.append (hc : c.Ideal) (hP : P b) (hb : b.Ordered) (hd : hk.digest = digestOf c b)
    (hlt : b.height < 2^31) (he : Extends c config (write db batch) (write db batch'))
    (hso : Sound c config P (write db batch) → Sound c config P (write db batch'))
    (hs : Record config (Stored c config (write db batch')) b s) :
    SavedIn c config P db b hk batch (batch' ++ [(hk,s)]) := by
  refine ⟨Saved.append hc hb hd hlt he hs,fun h => ?_⟩
  rw [write_append_singleton]
  exact (hso h).update hc hP hb hd hlt hs

/-- Saving a node stores its bindings under its hash and keeps what was stored; the
node still stands for them. -/
def Saves (c : Codec D) (config : Option TreeConfig) (P : Bindings → Prop) (db : HashKey D → Option (StoreNode D))
    (t : Tree D) (fuel : ℕ) (b : Bindings) (n : Node D) (batch : List (HashKey D × StoreNode D)) : Prop :=
  ∃ n' hk batch', n.save c t fuel (some batch) = .ok (n',some batch') ∧ n'.hash = some hk ∧
    (∀ h₀, n.hash = some h₀ → hk = h₀) ∧ SavedIn c config P db b hk batch batch' ∧
    Holds (storeView c config (write db batch')) b n'

lemma Child.saveChild {h : Option (HashKey D)}
    (hc : Child (storeView c config (write db batch)) b h n) (hl : Linked h n)
    (ih : ∀ n batch, Holds (storeView c config (write db batch)) b n → Saves c config P db t fuel b n batch) :
    ∃ hk batch', h = some hk ∧ n.saveChild c t fuel (some batch) = .ok (some batch') ∧
      SavedIn c config P db b hk batch batch' := by
  obtain ⟨hk,rfl,hn⟩ := hl
  rcases hc with ⟨hne,hh⟩ | ⟨rfl,hk',he,hs⟩
  · obtain ⟨n',hk',batch',hsv,_,hm,hsa,_⟩ := ih n batch hh
    obtain rfl := hm hk (hn.resolve_left hne)
    refine ⟨hk',batch',rfl,?_,hsa⟩
    cases n with
    | nil => exact absurd rfl hne
    | mk => simp only [saveChild,hsv,ok_bind,pure_eq_ok]
  · obtain rfl : hk = hk' := by simpa using he
    exact ⟨hk,batch,rfl,rfl,⟨Extends.refl _,hs.2⟩,id⟩

theorem Holds.save (hc : c.Ideal) (hr : t.root ≠ .nil) (hP : Closed P) (hPb : P b) (hb : b.Ordered)
    (h : Holds (storeView c t.config (write db batch)) b n) (hf : b.height < fuel) :
    Saves c t.config P db t fuel b n batch := by
  induction b generalizing n fuel batch with
  | leaf k v =>
    obtain ⟨fuel,rfl⟩ := exists_fuel hf
    obtain ⟨n',hk,hn',hh',he,hd,hm⟩ := h.hashNode_store hr
    obtain ⟨v',hash,p,rfl,hv,ho⟩ := id hh'
    obtain rfl : hash = some hk := he
    cases p with
    | true =>
      obtain ⟨h1,he1,hs⟩ := ho.stored rfl
      obtain rfl : hk = h1 := by simpa using he1
      exact ⟨_,hk,batch,save_persisted hn' _,rfl,hm,⟨⟨Extends.refl _,hs.2⟩,id⟩,hh'⟩
    | false =>
      obtain rfl : v' = v := by simpa using hv
      have hsa : SavedIn c t.config P db (.leaf k v') hk batch
          (batch ++ [(hk,⟨k,storedValue t.config v',none,none,0,1⟩)]) :=
        SavedIn.append hc hPb hb hd (by simp [LeafTree.height]) (Extends.refl _) id rfl
      refine ⟨.mk k v' 0 1 (some hk) none .nil none .nil true,hk,_,?_,rfl,hm,hsa,
        v',some hk,true,rfl,.inl rfl,ho.digest,fun _ => ⟨hk,rfl,hb,hsa.stored⟩,fun _ _ => trivial⟩
      rw [save_succ hn' rfl rfl,saveNode]
      simp only [Bool.false_eq_true,if_false,storeNode_leaf,ok_bind,pure_eq_ok]
  | inner k l r ihl ihr =>
    obtain ⟨fuel,rfl,hhl,hhr⟩ := exists_fuel_inner hf
    obtain ⟨n',hk,hn',hh',he,hd,hm⟩ := h.hashNode_store hr
    obtain ⟨hlt,hash,lh,ln,rh,rn,p,rfl,ho,hl,hr'⟩ := id hh'
    obtain rfl : hash = some hk := he
    cases p with
    | true =>
      obtain ⟨h1,he1,hs⟩ := ho.stored rfl
      obtain rfl : hk = h1 := by simpa using he1
      exact ⟨_,hk,batch,save_persisted hn' _,rfl,hm,⟨⟨Extends.refl _,hs.2⟩,id⟩,hh'⟩
    | false =>
      obtain ⟨hll,hlr⟩ := ho.linked hk rfl
      obtain ⟨lk,batch1,rfl,hb1,hs1⟩ := Child.saveChild hl hll fun n batch hn =>
        ihl (hP k l r hPb).1 hb.1 hn (by omega : l.height < fuel)
      obtain ⟨rk,batch2,rfl,hb2,hs2⟩ := Child.saveChild (Child.extend hs1.extends_ hr') hlr
        fun n batch hn => ihr (hP k l r hPb).2 hb.2.1 hn (by omega : r.height < fuel)
      have hsa := SavedIn.append hc hPb hb hd hlt (hs1.extends_.trans hs2.extends_)
        (hs2.sound ∘ hs1.sound) ⟨hlt,lk,rk,rfl,hs2.extends_ _ _ hb.1 hs1.stored,hs2.stored⟩
      obtain ⟨_,lk',rk',hdb,hsl,hsr⟩ := hsa.stored.2
      obtain ⟨rfl,rfl⟩ : lk = lk' ∧ rk = rk' := by simpa [write_append_singleton] using hdb
      refine ⟨.mk k [] (int32 (LeafTree.inner k l r).height) (int32 (LeafTree.inner k l r).size)
        (some hk) (some lk) .nil (some rk) .nil true,hk,_,?_,rfl,hm,hsa,
        hlt,some hk,some lk,.nil,some rk,.nil,true,rfl,
        ⟨ho.digest,fun _ => ⟨hk,rfl,hb,hsa.stored⟩,
          fun _ _ => ⟨⟨lk,rfl,.inl rfl⟩,⟨rk,rfl,.inl rfl⟩⟩⟩,
        .inr ⟨rfl,lk,rfl,hb.1,hsl⟩,.inr ⟨rfl,rk,rfl,hb.2.1,hsr⟩⟩
      rw [save_succ hn' hb1 hb2,saveNode]
      simp only [Bool.false_eq_true,if_false,storeNode,if_neg (int32_height_ne_zero hlt),
        ok_bind,pure_eq_ok]

end Save

/-- Two byte fields and two numbers, as both hashed messages have them. -/
def message (a b : Bytes) (height size : ℤ) : Bytes :=
  frame a ++ (frame b ++ (frameInt height ++ (frameInt size ++ [])))

lemma message_inj {a b a' b' : Bytes} {height' size' : ℤ}
    (h : message a b height size = message a' b' height' size') :
    a = a' ∧ b = b' ∧ height = height' ∧ size = size' := by
  obtain ⟨ha,h⟩ := frame_append_inj h
  obtain ⟨hb,h⟩ := frame_append_inj h
  obtain ⟨hh,h⟩ := frameInt_append_inj h
  exact ⟨ha,hb,hh,(frameInt_append_inj h).1⟩

def Codec.framed : Codec Bytes where
  sha256 b := 1 :: b
  marshalLeaf n := message n.key n.value n.height n.size
  marshalInner n := message n.leftHash n.rightHash n.height n.size
  emptyRoot := []

lemma Codec.framed_ideal : Codec.framed.Ideal where
  sha256_injective := fun a b h => by simpa [Codec.framed] using h
  marshalLeaf_injective := by
    rintro ⟨k,v,h,s⟩ ⟨k',v',h',s'⟩ he
    obtain ⟨rfl,rfl,rfl,rfl⟩ := message_inj he
    rfl
  marshalInner_injective := by
    rintro ⟨k,v,h,s⟩ ⟨k',v',h',s'⟩ he
    obtain ⟨rfl,rfl,rfl,rfl⟩ := message_inj he
    rfl
  marshal_height := by
    rintro ⟨k,v,h,s⟩ ⟨k',v',h',s'⟩ he
    exact (message_inj he).2.2.1
  sha256_ne_emptyRoot := by simp [Codec.framed]

end Dpos.Mavl
