import Dpos.MavlStore

/-! Membership proofs: `proof.go` and `VerifyKVPairProof`. The prover collects the
sibling hashes on the way to a leaf, with the prefixes they are stored under; the
verifier hashes its way back up and cuts the prefixes off. It does not cut one off
the root hash. -/
namespace Dpos.Mavl

open LeafTree Codec Mavl.Tree

/-- What the verifier needs of a hash field: whether it is empty, its last `sha256Len` bytes, and
the hashes of the two messages. -/
structure HashOps (F : Type) where
  isEmpty : F → Bool
  cut : F → F
  leaf : LeafNode → F
  inner : InnerNode F → F

structure Proof (F : Type) where
  leafHash : F
  innerNodes : List (InnerNode F)
  rootHash : F
  deriving DecidableEq, Repr

section
variable {F : Type} (o : HashOps F)

def HashOps.innerHash (n : InnerNode F) : F := o.inner ⟨o.cut n.leftHash,o.cut n.rightHash,n.height,n.size⟩

/-- `InnerNodeProofHash`: the child is on the left if the branch has no left hash. -/
def innerNodeProofHash (childHash : F) (branch : InnerNode F) : F :=
  if o.isEmpty branch.leftHash then
    o.innerHash ⟨childHash,branch.rightHash,branch.height,branch.size⟩
  else o.innerHash ⟨branch.leftHash,childHash,branch.height,branch.size⟩

def Proof.verify [DecidableEq F] (proof : Proof F) (key value : Bytes) (root : F) : Bool :=
  if proof.rootHash ≠ root then false
  else
    let leafHash := o.leaf ⟨key,value,0,1⟩
    if leafHash ≠ o.cut proof.leafHash then false
    else decide (proof.rootHash = proof.innerNodes.foldl (innerNodeProofHash o) leafHash)

/-- `ReadProof`, given what `proto.Unmarshal` makes of the inner nodes. -/
def readProof (unmarshal : Bytes → Option (List (InnerNode F))) (roothash leafhash : F)
    (data : Bytes) : Option (Proof F) :=
  (unmarshal data).map fun innerNodes => ⟨leafhash,innerNodes,roothash⟩

/-- `VerifyKVPairProof`. The error of `ReadProof` is logged, and then the nil proof
is used all the same. -/
def verifyKVPairProof [DecidableEq F] (unmarshal : Bytes → Option (List (InnerNode F)))
    (roothash : F) (key value proof : Bytes) : Result Bool :=
  match readProof unmarshal roothash (o.leaf ⟨key,value,0,1⟩) proof with
  | none => .error .nilPointer
  | some proofnode => .ok (proofnode.verify o key value roothash)

variable {u : Bytes → Option (List (InnerNode F))} {p : Bytes}

lemma verifyKVPairProof_of_none [DecidableEq F] (h : u p = none) (ro : F) (key va : Bytes) :
    verifyKVPairProof o u ro key va p = .error .nilPointer := by
  simp only [verifyKVPairProof,readProof,h,Option.map_none]

/-- For a proof that can be read, only the hash at the top decides. -/
theorem verifyKVPairProof_of_some [DecidableEq F] {bs : List (InnerNode F)}
    (h : u p = some bs) (hc : ∀ n, o.cut (o.leaf n) = o.leaf n) (ro : F)
    (key va : Bytes) : verifyKVPairProof o u ro key va p = .ok (decide
      (ro = bs.foldl (innerNodeProofHash o) (o.leaf ⟨key,va,0,1⟩))) := by
  simp only [verifyKVPairProof,readProof,h,Option.map_some,Proof.verify,hc,ne_eq,not_true_eq_false,if_false]

end

variable {b : Bindings}

section
variable {D : Type}

/-- `Node.constructProof`: the value, the leaf hash and the inner nodes, if the key exists. -/
def Node.constructProof (t : Tree D) (key : Bytes) : ℕ → Node D →
    Result (Option (Bytes × Option (HashKey D) × List (InnerNode (Option (HashKey D)))))
  | 0, _ => .error .depth
  | _+1, .nil => .error .nilPointer
  | n+1, .mk k v height size hash lh ln rh rn p => do
    let node := Node.mk k v height size hash lh ln rh rn p
    if height = 0 then return if k = key then some (v,hash,[]) else none
    else if Bytes.compare key k < 0 then
      match ← constructProof t key n (← node.getLeftNode t) with
      | none => return none
      | some (value,leafHash,innerNodes) =>
        let rightNode ← node.getRightNode t
        return some (value,leafHash,innerNodes ++ [⟨none,rightNode.hash,height,size⟩])
    else
      match ← constructProof t key n (← node.getRightNode t) with
      | none => return none
      | some (value,leafHash,innerNodes) =>
        let leftNode ← node.getLeftNode t
        return some (value,leafHash,innerNodes ++ [⟨leftNode.hash,none,height,size⟩])

def Tree.constructProof (c : Codec D) (t : Tree D) (key : Bytes) :
    Result (Tree D × Option (Bytes × Proof (Option (HashKey D)))) := do
  match t.root with
  | .nil => return (t,none)
  | root =>
    let (root,_) ← root.hashNode c t
    let t := {t with root := root}
    match ← root.constructProof t key maxDepth with
    | none => return (t,none)
    | some (value,leafHash,innerNodes) => return (t,some (value,⟨leafHash,innerNodes,root.hash⟩))

/-- The encodings of proofs: of an inner node whose hash fields may be empty, and of the proof,
which can be read back. -/
structure ProofCodec (c : Codec D) where
  marshalInner : InnerNode (Option D) → Bytes
  marshalInner_some : ∀ l r height size,
    marshalInner ⟨some l,some r,height,size⟩ = c.marshalInner ⟨l,r,height,size⟩
  marshal : List (InnerNode (Option (HashKey D))) → Bytes
  unmarshal : Bytes → Option (List (InnerNode (Option (HashKey D))))
  unmarshal_marshal : ∀ ns, unmarshal (marshal ns) = some ns

/-- Hash fields that hold nothing or a hash with its prefix. -/
def ProofCodec.ops {c : Codec D} (pc : ProofCodec c) : HashOps (Option (HashKey D)) where
  isEmpty := Option.isNone
  cut := Option.map fun h => ⟨[],h.digest⟩
  leaf n := some ⟨[],n.hash c⟩
  inner n := some ⟨[],c.sha256 (pc.marshalInner
    ⟨n.leftHash.map HashKey.digest,n.rightHash.map HashKey.digest,n.height,n.size⟩)⟩

variable {c : Codec D} {w : View D} {t : Tree D}

lemma ProofCodec.proofHash_left (pc : ProofCodec c) (l r : HashKey D) (height s : ℤ) :
    innerNodeProofHash pc.ops (some l) ⟨none,some r,height,s⟩ = some ⟨[],InnerNode.hash c ⟨l,r,height,s⟩⟩ := by
  simp [innerNodeProofHash,HashOps.innerHash,ProofCodec.ops,pc.marshalInner_some,InnerNode.hash]

lemma ProofCodec.proofHash_right (pc : ProofCodec c) (l r : HashKey D) (height s : ℤ) :
    innerNodeProofHash pc.ops (some r) ⟨some l,none,height,s⟩ = some ⟨[],InnerNode.hash c ⟨l,r,height,s⟩⟩ := by
  simp [innerNodeProofHash,HashOps.innerHash,ProofCodec.ops,pc.marshalInner_some,InnerNode.hash]

variable {n : Node D} {k : Bytes} {l r : Bindings} {hk : HashKey D} {key v : Bytes}

lemma Child.exists_hashed (hw : w.Serves t) {h : Option (HashKey D)} (hc : Child w b h n) (hl : Linked h n) :
    ∃ m hk, (match n with | .nil => getNode t h | n => .ok n) = .ok m ∧ Holds w b m ∧ m.hash = some hk := by
  obtain ⟨m,hm,hh⟩ := hc.exists_getNode hw
  obtain ⟨hk,rfl,hn⟩ := hl
  cases n with
  | nil => exact ⟨m,hk,hm,hh,getNode_hash hm⟩
  | mk =>
    cases hm
    exact ⟨_,hk,rfl,hh,hn.resolve_left (by simp)⟩

section
variable (hw : w.Serves t) (h : Holds w (.inner k l r) n) (hh : n.hash = some hk)
include hw h hh

lemma Holds.getLeftNode_hashed :
    ∃ m lk, n.getLeftNode t = .ok m ∧ Holds w l m ∧ m.hash = some lk := by
  obtain ⟨_,hash,lh,ln,rh,rn,p,rfl,ho,hl,_⟩ := h
  obtain ⟨m,lk,hm,hm'⟩ := Child.exists_hashed hw hl (ho.linked hk hh).1
  cases ln <;> exact ⟨m,lk,hm,hm'⟩

lemma Holds.getRightNode_hashed :
    ∃ m rk, n.getRightNode t = .ok m ∧ Holds w r m ∧ m.hash = some rk := by
  obtain ⟨_,hash,lh,ln,rh,rn,p,rfl,ho,_,hr⟩ := h
  obtain ⟨m,rk,hm,hm'⟩ := Child.exists_hashed hw hr (ho.linked hk hh).2
  cases rn <;> exact ⟨m,rk,hm,hm'⟩

end

/-- The inner nodes lead from the leaf of the key back to the hash of the bindings. -/
theorem Holds.constructProof (hw : w.Serves t) (pc : ProofCodec w.codec)
    (hv : LeafTree.lookup key b = some v) (h : Holds w b n)
    (hh : n.hash = some hk) {f : ℕ} (hf : b.height < f) :
    ∃ v' leh ins, n.constructProof t key f = .ok (some (v',leh,ins)) ∧
      Reads w (some v) v' ∧ ins.foldl (innerNodeProofHash pc.ops) (pc.ops.leaf ⟨key,v,0,1⟩) =
        some ⟨[],digestOf w.codec b⟩ := by
  induction b generalizing n f hk with
  | leaf k x =>
    obtain ⟨f,rfl⟩ := exists_fuel hf
    obtain ⟨x',hash,p,rfl,hx,ho⟩ := h
    simp only [LeafTree.lookup] at hv
    split_ifs at hv with hke
    obtain rfl : x = v := by simpa using hv
    subst hke
    exact ⟨x',hash,[],by simp only [Node.constructProof,if_true,pure_eq_ok],reads_leaf hx ho,rfl⟩
  | inner k l r ihl ihr =>
    obtain ⟨f,rfl,hhl,hhr⟩ := exists_fuel_inner hf
    obtain ⟨ml,lk,hm,hl,hlk⟩ := h.getLeftNode_hashed hw hh
    obtain ⟨mr,rk,hmr,hr,hrk⟩ := h.getRightNode_hashed hw hh
    have hz := int32_height_ne_zero h.1
    have hld := hl.digest_of_hash hlk
    have hrd := hr.digest_of_hash hrk
    obtain ⟨_,hash,lh,ln,rh,rn,p,rfl,_⟩ := h
    simp only [Node.constructProof,if_neg hz,Bytes.compare_neg,hm,hmr,ok_bind]
    by_cases hks : key < k
    · rw [LeafTree.lookup,if_pos hks] at hv
      obtain ⟨v',leh,ins,hc,hrd',hfo⟩ := ihl hv hl hlk (by omega : l.height < f)
      simp only [if_pos hks,hc,ok_bind,hrk,pure_eq_ok]
      refine ⟨v',leh,_,rfl,hrd',?_⟩
      rw [List.foldl_append,hfo,List.foldl_cons,List.foldl_nil,pc.proofHash_left]
      simp only [InnerNode.hash,hrd,digestOf]
    · rw [LeafTree.lookup,if_neg hks] at hv
      obtain ⟨v',leh,ins,hc,hrd',hfo⟩ := ihr hv hr hrk (by omega : r.height < f)
      simp only [if_neg hks,hc,ok_bind,hlk,pure_eq_ok]
      refine ⟨v',leh,_,rfl,hrd',?_⟩
      rw [List.foldl_append,hfo,List.foldl_cons,List.foldl_nil,pc.proofHash_right]
      simp only [InnerNode.hash,hld,digestOf]

/-- The proof for a key of the tree verifies exactly if the root has no prefix. -/
theorem Tree.constructProof_spec [DecidableEq D] {db : HashKey D → Option (StoreNode D)}
    (hw : (storeView c t.config db).Serves t) (pc : ProofCodec c)
    (h : Holds (storeView c t.config db) b t.root) (hm : Fits (some b)) (hv : LeafTree.lookup key b = some v) :
    ∃ t' v' pr R, t.constructProof c key = .ok (t',some (v',pr)) ∧
      t.hash c = .ok (t',some R) ∧ pr.rootHash = some R ∧ Reads (storeView c t.config db) (some v) v' ∧
      (verifyKVPairProof pc.ops pc.unmarshal (some R) key v (pc.marshal pr.innerNodes) = .ok true ↔
        ∀ h, t.root.hash = some h → h.pre = []) := by
  have hne := h.ne_nil
  obtain ⟨n,hk,hn,hh,hha,hd,hme⟩ := h.hashNode_store hne
  have hw' : (storeView c t.config db).Serves {t with root := n} := hw
  obtain ⟨v',lh,ins,hc,hrd,hf⟩ := hh.constructProof hw' pc hv hha hm.height_lt_maxDepth
  refine ⟨{t with root := n},v',⟨lh,ins,some hk⟩,hk,?_,?_,rfl,hrd,?_⟩
  · cases hr : t.root with
    | nil => exact absurd hr hne
    | mk =>
      rw [hr] at hn
      simp only [constructProof,hr,hn,ok_bind,hc,hha,pure_eq_ok]
  · cases hr : t.root with
    | nil => exact absurd hr hne
    | mk =>
      rw [hr] at hn
      simp only [hash,hr,hn,ok_bind,pure_eq_ok]
  · have ht : ins.foldl (innerNodeProofHash pc.ops) (pc.ops.leaf ⟨key,v,0,1⟩) = some ⟨[],digestOf c b⟩ := hf
    rw [verifyKVPairProof_of_some pc.ops (pc.unmarshal_marshal ins) fun _ => rfl,ht]
    simp only [Except.ok.injEq,decide_eq_true_eq,Option.some.injEq]
    constructor
    · intro he h0 hh0
      rw [← hme h0 hh0,he]
    · intro hp
      have hp' : hk.pre = [] := Node.hashNode_pre rfl hp hn hha
      obtain ⟨pre,digest⟩ := hk
      obtain rfl : pre = [] := hp'
      obtain rfl : digest = digestOf c b := hd
      rfl

end

section
variable {D : Type} [DecidableEq D] {c : Codec D}

lemma Backed.save (hc : c.Ideal) {t : Tree D} {db : HashKey D → Option (StoreNode D)}
    (h : Backed c t (some b) db) (hm : Fits (some b)) {t1 : Tree D} {R : Option (HashKey D)}
    (hsave : t.save c = .ok (t1,R)) :
    ∃ db', (storeView c t1.config db').Serves t1 ∧ Holds (storeView c t1.config db') b t1.root ∧
      t1.config = t.config := by
  obtain ⟨t2,ba,hk,hsave2,hn,_,_,hh,hco⟩ := t.save_in hc h.ndb h.rep hm
    (closed_within b.size) ⟨(hm.1 b rfl).1,(hm.1 b rfl).2,le_refl _⟩
  obtain ⟨rfl,rfl⟩ : t1 = t2 ∧ R = some hk := by
    simpa only [Except.ok.injEq,Prod.mk.injEq] using hsave.symm.trans hsave2
  exact ⟨_,storeView_serves hn,hco ▸ hh,hco⟩

/-- In every run, for every key of the tree as it is or as it is once saved, the
proof verifies against the root hash exactly if the root was not given a prefix. -/
theorem constructProof_verifies_iff (hc : c.Ideal) (pc : ProofCodec c)
    (db : HashKey D → Option (StoreNode D)) (config : Option TreeConfig) (blockHeight : ℤ)
    (ops : List Op) (hl : ∀ pre, pre <+: ops → (liveKeys (Op.edits pre)).card < capacity) :
    ∃ t, ((new db config).setBlockHeight blockHeight).run c ops = .ok t ∧
      ∀ t1, (t1 = t ∨ ∃ R, t.save c = .ok (t1,R)) → ∀ key v, (finalMap (Op.edits ops)).lookup key = some v →
        ∃ t' v' proof R, t1.constructProof c key = .ok (t',some (v',proof)) ∧
          t1.hash c = .ok (t',some R) ∧ proof.rootHash = some R ∧
          ((∀ cfg, config = some cfg → cfg.enableMVCC = false) → v' = v) ∧
          (verifyKVPairProof pc.ops pc.unmarshal (some R) key v (pc.marshal proof.innerNodes) = .ok true ↔
            ∀ h, t1.root.hash = some h → h.pre = []) := by
  obtain ⟨t,m,db',hrun,hco,hb,hf,hm⟩ := run_spec hc db config blockHeight ops hl
  refine ⟨t,hrun,fun t1 ht1 key v hv => ?_⟩
  cases m with
  | none => simp [hm.lookup_eq_none key] at hv
  | some b =>
    rw [← hm.lookup_eq (hf.1 b rfl).1] at hv
    obtain ⟨db1,hs,hh,hco1⟩ : ∃ db1, (storeView c t1.config db1).Serves t1 ∧
        Holds (storeView c t1.config db1) b t1.root ∧ t1.config = t.config := by
      rcases ht1 with rfl | ⟨R,hsave⟩
      · exact ⟨db',storeView_serves hb.ndb,hb.rep,rfl⟩
      · exact hb.save hc hf hsave
    obtain ⟨t',v',proof,R,hcn,hha,hr,hrd,hi⟩ := constructProof_spec hs pc hh hf hv
    refine ⟨t',v',proof,R,hcn,hha,hr,fun hmv => ?_,hi⟩
    rw [← hco,← hco1] at hmv
    have he : (storeView c t1.config db1).Exact := fun _ _ _ _ => by
      simp only [storeView,storedValue_eq_id hmv,id]
    exact hrd.eq_getD he

end

def frameHash : Option (HashKey Bytes) → Bytes
  | none => []
  | some h => frame h.pre ++ h.digest

lemma frameHash_injective : Function.Injective frameHash := by
  rintro (_ | ⟨pre,d⟩) (_ | ⟨pre',d'⟩) h
  · rfl
  · simp [frameHash,frame] at h
  · simp [frameHash,frame] at h
  · obtain ⟨rfl,rfl⟩ := frame_append_inj h
    rfl

def frameInner (n : InnerNode (Option (HashKey Bytes))) : Bytes :=
  message (frameHash n.leftHash) (frameHash n.rightHash) n.height n.size

lemma frameInner_injective : Function.Injective frameInner := by
  rintro ⟨l,r,h,s⟩ ⟨l',r',h',s'⟩ he
  obtain ⟨hl,hr,rfl,rfl⟩ := message_inj he
  obtain rfl := frameHash_injective hl
  obtain rfl := frameHash_injective hr
  rfl

/-- Proofs as lists of framed inner nodes, over the framed messages. -/
noncomputable def ProofCodec.framed : ProofCodec framed where
  marshalInner n := message (n.leftHash.getD []) (n.rightHash.getD []) n.height n.size
  marshalInner_some := fun _ _ _ _ => rfl
  marshal := frameList frameInner
  unmarshal := Function.partialInv (frameList frameInner)
  unmarshal_marshal := Function.partialInv_left (frameList_injective frameInner_injective)

def threeSets : List Op := [.edit (.set [1] [2]),.edit (.set [3] [4]),.edit (.set [5] [6])]

/-- The proof for a key of a tree with three of them. -/
theorem constructProof_verifies_iff_three :
    ∃ t t' v' proof R, (new (fun _ => none) (some ⟨true,false⟩)).run framed threeSets = .ok t ∧
      t.constructProof framed [3] = .ok (t',some (v',proof)) ∧ t.hash framed = .ok (t',some R) ∧ v' = [4] ∧
      verifyKVPairProof ProofCodec.framed.ops ProofCodec.framed.unmarshal (some R) [3] [4]
        (ProofCodec.framed.marshal proof.innerNodes) = .ok true := by
  have hca := two_pow_lt_capacity
  obtain ⟨t,hrun,hpo⟩ := constructProof_verifies_iff framed_ideal ProofCodec.framed
    (fun _ => none) (some ⟨true,false⟩) 0 threeSets (by
      intro pre hp
      have hl := card_liveKeys_le (Op.edits pre)
      have hl' : (Op.edits pre).length ≤ pre.length := List.length_filterMap_le _ _
      have hln := hp.length_le
      simp only [threeSets,List.length_cons,List.length_nil] at hln
      omega)
  obtain ⟨t',v',proof,R,hc,hh,-,hv,hi⟩ := hpo t (.inl rfl) [3] [4] (by decide +kernel)
  have hr : (((new (fun _ => none) (some ⟨true,false⟩)).setBlockHeight 0).run framed threeSets).map (·.root.hash) =
      .ok none := by decide +kernel
  rw [hrun] at hr
  refine ⟨t,t',v',proof,R,hrun,hc,hh,hv (by simp),hi.mpr fun h ht => ?_⟩
  cases ht.symm.trans (Except.ok.inj hr)

/-- Two keys, saved at height 1 and reloaded; then one is removed. -/
def removeOne : List Op := [.edit (.set [1] [10]),.edit (.set [2] [20]),.saveReload 2,.edit (.remove [1])]

def leftoverHash : HashKey Bytes := ⟨genPrefixHashKey 0 1,LeafNode.hash framed ⟨[2],[20],0,1⟩⟩

lemma removeOne_root :
    (((new (fun _ => none) (some ⟨true,false⟩)).setBlockHeight 1).run framed removeOne).map
        root = .ok (.mk [2] [20] 0 1 (some leftoverHash) none .nil none .nil true) := by
  decide +kernel

/-- The proof for the remaining key does not verify. -/
theorem constructProof_removeOne : ∃ t t' proof R,
      ((new (fun _ => none) (some ⟨true,false⟩)).setBlockHeight 1).run framed removeOne = .ok t ∧
      (finalMap (Op.edits removeOne)).lookup [2] = some [20] ∧
      t.constructProof framed [2] = .ok (t',some ([20],proof)) ∧ t.hash framed = .ok (t',some R) ∧
      verifyKVPairProof ProofCodec.framed.ops ProofCodec.framed.unmarshal (some R) [2] [20]
        (ProofCodec.framed.marshal proof.innerNodes) = .ok false := by
  have hr := removeOne_root
  rcases hrun : ((new (fun _ => none) (some ⟨true,false⟩)).setBlockHeight 1).run framed
      removeOne with e | t
  · rw [hrun] at hr
    simp [Except.map] at hr
  rw [hrun] at hr
  obtain ⟨root,ndb,blockHeight,config⟩ := t
  cases hr
  obtain ⟨d,hd⟩ : ∃ d, maxDepth = d+1 := ⟨2^31-1,by norm_num [maxDepth]⟩
  refine ⟨_,_,⟨some leftoverHash,[],some leftoverHash⟩,leftoverHash,rfl,?_,?_,rfl,?_⟩
  · decide +kernel
  · simp only [constructProof,Node.hashNode,hd]
    rfl
  · rw [verifyKVPairProof_of_some ProofCodec.framed.ops
      (ProofCodec.framed.unmarshal_marshal []) fun _ => rfl]
    have hp : genPrefixHashKey 0 1 ≠ [] := by decide +kernel
    simp [ProofCodec.ops,leftoverHash,hp]

end Dpos.Mavl
