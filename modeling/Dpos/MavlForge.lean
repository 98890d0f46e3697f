import Dpos.MavlProof

/-! What a proof that verifies says about the tree, over byte strings. A leaf and an
inner node are encoded alike and the verifier does not look at the height of a
branch, so a leaf of the tree can pose as an inner node: its key or its value is
then taken for the hash of a child. Apart from that, a proof leads to a leaf of the
tree. -/
namespace Dpos.Mavl

open LeafTree List

def byteOps (c : Codec Bytes) : HashOps Bytes where
  isEmpty := isEmpty
  cut x := x.drop (x.length-32)
  leaf n := n.hash c
  inner n := c.sha256 (c.marshalInner n)

def HashKey.bytes (h : HashKey Bytes) : Bytes := h.pre ++ h.digest

/-- sha256 gives 32 bytes, and the two messages, of the same fields, are encoded alike and without
loss. -/
structure Codec.Plain (c : Codec Bytes) : Prop where
  sha256_length : ∀ b, (c.sha256 b).length = 32
  marshal_eq : ∀ a b height size,c.marshalLeaf ⟨a,b,height,size⟩ = c.marshalInner ⟨a,b,height,size⟩
  marshalInner_injective : Function.Injective c.marshalInner

variable {c : Codec Bytes}

/-- The message that a branch and the hash below it make. -/
def proofNode (child : Bytes) (branch : InnerNode Bytes) : InnerNode Bytes :=
  if branch.leftHash = [] then
    ⟨child.drop (child.length-32),branch.rightHash.drop (branch.rightHash.length-32),branch.height,branch.size⟩
  else
    ⟨branch.leftHash.drop (branch.leftHash.length-32),child.drop (child.length-32),branch.height,branch.size⟩

lemma innerNodeProofHash_eq (c : Codec Bytes) (ch : Bytes) (br : InnerNode Bytes) :
    innerNodeProofHash (byteOps c) ch br = c.sha256 (c.marshalInner (proofNode ch br)) := by
  unfold innerNodeProofHash proofNode
  by_cases h : br.leftHash = [] <;> simp [h,byteOps,HashOps.innerHash]

/-- The hash that the branches, from the top down, give above the leaf. -/
def chain (c : Codec Bytes) (key value : Bytes) : List (InnerNode Bytes) → Bytes
  | [] => LeafNode.hash c ⟨key,value,0,1⟩
  | branch :: below => innerNodeProofHash (byteOps c) (chain c key value below) branch

lemma chain_reverse (c : Codec Bytes) (key value : Bytes) (bs : List (InnerNode Bytes)) :
    chain c key value bs.reverse =
      bs.foldl (innerNodeProofHash (byteOps c)) ((byteOps c).leaf ⟨key,value,0,1⟩) := by
  induction bs using reverseRecOn with
  | nil => rfl
  | append_singleton bs br ih =>
    rw [reverse_append,foldl_append,reverse_singleton,singleton_append,chain,ih,foldl_cons,foldl_nil]

lemma chain_length (hc : c.Plain) (key value : Bytes) (top : List (InnerNode Bytes)) :
    (chain c key value top).length = 32 := by
  cases top with
  | nil => exact hc.sha256_length _
  | cons br be =>
    rw [chain,innerNodeProofHash_eq]
    exact hc.sha256_length _

lemma drop_chain (hc : c.Plain) (key value : Bytes) (top : List (InnerNode Bytes)) :
    (chain c key value top).drop ((chain c key value top).length-32) = chain c key value top := by
  rw [chain_length hc,Nat.sub_self,drop_zero]

def chainMessages (c : Codec Bytes) (key value : Bytes) : List (InnerNode Bytes) → List Bytes
  | [] => [c.marshalLeaf ⟨key,value,0,1⟩]
  | branch :: below => c.marshalInner (proofNode (chain c key value below) branch) ::
      chainMessages c key value below

def treeMessages (c : Codec Bytes) : Bindings → List Bytes
  | .leaf k v => [c.marshalLeaf ⟨k,v,0,1⟩]
  | .inner k l r => c.marshalInner ⟨digestOf c l,digestOf c r,int32 (inner k l r).height,
      int32 (inner k l r).size⟩ :: (treeMessages c l ++ treeMessages c r)

/-- No two messages of the tree and of the verifier collide. -/
def Apart (c : Codec Bytes) (b : Bindings) (key value : Bytes) (top : List (InnerNode Bytes)) : Prop :=
  ∀ x ∈ treeMessages c b, ∀ y ∈ chainMessages c key value top, c.sha256 x = c.sha256 y → x = y

/-- The branches, from the top down, follow the nodes of the tree to a leaf, and the
next branch has the fields of that leaf as its message. -/
def Poses (c : Codec Bytes) (key value : Bytes) : Bindings → List (InnerNode Bytes) → Prop
  | _, [] => False
  | .leaf k v, branch :: below => proofNode (chain c key value below) branch = ⟨k,v,0,1⟩
  | .inner k l r, branch :: below =>
    branch.height = int32 (inner k l r).height ∧
    branch.size = int32 (inner k l r).size ∧
    if branch.leftHash = [] then
      branch.rightHash.drop (branch.rightHash.length-32) = digestOf c r ∧ Poses c key value l below
    else branch.leftHash.drop (branch.leftHash.length-32) = digestOf c l ∧ Poses c key value r below

variable {value : Bytes} {b : Bindings} {key : Bytes} {top : List (InnerNode Bytes)} {k : Bytes} {l r : Bindings}

lemma Poses.chain_eq (hc : c.Plain) (h : Poses c key value b top) : chain c key value top = digestOf c b := by
  induction b generalizing top with
  | leaf k v =>
    cases top with
    | nil => exact h.elim
    | cons br be =>
      have hnode : proofNode (chain c key value be) br = ⟨k,v,0,1⟩ := h
      rw [chain,innerNodeProofHash_eq,hnode,← hc.marshal_eq]
      rfl
  | inner k l r ihl ihr =>
    cases top with
    | nil => exact h.elim
    | cons br be =>
      obtain ⟨hheight,hsz,hs⟩ := h
      rw [chain,innerNodeProofHash_eq,proofNode,hheight,hsz,drop_chain hc]
      by_cases hl : br.leftHash = []
      · rw [if_pos hl] at hs ⊢
        rw [ihl hs.2,hs.1]
        rfl
      · rw [if_neg hl] at hs ⊢
        rw [ihr hs.2,hs.1]
        rfl

lemma lookup_of_left (hb : (inner k l r).Ordered) (h : lookup key l = some value) :
    lookup key (inner k l r) = some value := by
  rw [lookup_eq_some hb,toList]
  exact mem_append_left _ ((lookup_eq_some hb.1 key value).mp h)

lemma lookup_of_right (hb : (inner k l r).Ordered) (h : lookup key r = some value) :
    lookup key (inner k l r) = some value := by
  rw [lookup_eq_some hb,toList]
  exact mem_append_right _ ((lookup_eq_some hb.2.1 key value).mp h)

/-- Branches that give the hash of the tree lead to a leaf: either it is the leaf of
the key and the value, or it poses as an inner node. -/
theorem poses_or_lookup (hc : c.Plain) (hb : b.Ordered) (hlt : b.height < 2^31) (ha : Apart c b key value top)
    (he : chain c key value top = digestOf c b) :
    Poses c key value b top ∨ LeafTree.lookup key b = some value := by
  induction b generalizing top with
  | leaf k v =>
    have hm := ha _ mem_cons_self
    cases top with
    | nil =>
      have heq := hm _ mem_cons_self he.symm
      rw [hc.marshal_eq,hc.marshal_eq] at heq
      have hf := hc.marshalInner_injective heq
      simp only [InnerNode.mk.injEq] at hf
      exact .inr (by rw [LeafTree.lookup,if_pos hf.1,hf.2.1])
    | cons br below =>
      rw [chain,innerNodeProofHash_eq] at he
      have heq := hm _ mem_cons_self he.symm
      rw [hc.marshal_eq] at heq
      exact .inl (hc.marshalInner_injective heq).symm
  | inner k l r ihl ihr =>
    have hh := height_left_lt k l r
    have hhr := height_right_lt k l r
    have hm := ha _ mem_cons_self
    cases top with
    | nil =>
      -- a leaf has height 0, the node has not
      have heq := hm _ mem_cons_self he.symm
      rw [hc.marshal_eq] at heq
      have hf := hc.marshalInner_injective heq
      simp only [InnerNode.mk.injEq] at hf
      exact absurd hf.2.2.1 (int32_height_ne_zero hlt)
    | cons br below =>
      rw [chain,innerNodeProofHash_eq] at he
      have hnode := (hc.marshalInner_injective (hm _ mem_cons_self he.symm)).symm
      have hbe : ∀ {b' : Bindings}, (∀ x ∈ treeMessages c b', x ∈ treeMessages c (.inner k l r)) →
          Apart c b' key value below := fun hs x hx y hy =>
        ha x (hs x hx) y (mem_cons_of_mem _ hy)
      rw [proofNode,drop_chain hc] at hnode
      by_cases hl : br.leftHash = []
      · rw [if_pos hl] at hnode
        simp only [InnerNode.mk.injEq] at hnode
        obtain ⟨hcd,hsb,hheight,hsz⟩ := hnode
        have hs : ∀ x ∈ treeMessages c l, x ∈ treeMessages c (.inner k l r) := fun x hx =>
          mem_cons_of_mem _ (mem_append_left _ hx)
        rcases ihl hb.1 (by omega) (hbe hs) hcd with hp | hv
        · exact .inl ⟨hheight,hsz,by rw [if_pos hl]; exact ⟨hsb,hp⟩⟩
        · exact .inr (lookup_of_left hb hv)
      · rw [if_neg hl] at hnode
        simp only [InnerNode.mk.injEq] at hnode
        obtain ⟨hsb,hcd,hheight,hsz⟩ := hnode
        have hs : ∀ x ∈ treeMessages c r, x ∈ treeMessages c (.inner k l r) := fun x hx =>
          mem_cons_of_mem _ (mem_append_right _ hx)
        rcases ihr hb.2.1 (by omega) (hbe hs) hcd with hp | hv
        · exact .inl ⟨hheight,hsz,by rw [if_neg hl]; exact ⟨hsb,hp⟩⟩
        · exact .inr (lookup_of_right hb hv)

lemma Rep.hash {co : Option TreeConfig} {db : HashKey Bytes → Option (StoreNode Bytes)}
    {t : Tree Bytes} {m : Option Bindings} (h : Rep (storeView c co db) t.root m) :
    ∃ t' R, t.hash c = .ok (t',R) ∧ R.map HashKey.digest = m.map (digestOf c) := by
  cases m with
  | none =>
    obtain h : t.root = .nil := h
    exact ⟨t,none,by simp only [Tree.hash,h,pure_eq_ok],rfl⟩
  | some b =>
    have hne := Holds.ne_nil h
    obtain ⟨n,hk,hn,_,_,hd,_⟩ := Holds.hashNode_store (t:=t) hne h
    refine ⟨{t with root := n},some hk,?_,by rw [Option.map_some,Option.map_some,hd]⟩
    cases hr : t.root with
    | nil => exact absurd hr hne
    | mk =>
      rw [hr] at hn
      simp only [Tree.hash,hr,hn,ok_bind,pure_eq_ok]

lemma Holds.height_lt {D : Type} {w : View D} {n : Node D} (h : Holds w b n) : b.height < 2^31 := by
  cases b with
  | leaf k v => simp [height]
  | inner k l r => exact h.1

/-- A hash of 32 bytes is the root hash only if that has no prefix. -/
theorem HashKey.bytes_eq_iff (hc : c.Plain) {hk : HashKey Bytes} (hd : hk.digest = digestOf c b)
    {x : Bytes} (hx : x.length = 32) : hk.bytes = x ↔ hk.pre = [] ∧ x = digestOf c b := by
  have hl : (digestOf c b).length = 32 := by cases b <;> exact hc.sha256_length _
  rw [HashKey.bytes,hd]
  constructor
  · intro he
    have hp : hk.pre = [] := by
      have hs := congrArg length he
      rw [length_append,hl,hx] at hs
      exact eq_nil_of_length_eq_zero (by omega)
    rw [hp,nil_append] at he
    exact ⟨hp,he.symm⟩
  · rintro ⟨hp,rfl⟩
    rw [hp,nil_append]

/-- Verification of a proof neither panics nor accepts a wrong pair exactly if the
proof can be read and, where the root hash has no prefix, no leaf of the tree poses
as an inner node for a pair that the tree does not have. -/
theorem verifyKVPairProof_sound_iff (hc : c.Plain) {config : Option TreeConfig}
    {db : HashKey Bytes → Option (StoreNode Bytes)} {t : Tree Bytes} {m : Option Bindings}
    (h : Rep (storeView c config db) t.root m) (hm : WellFormed m)
    (unmarshal : Bytes → Option (List (InnerNode Bytes))) (key value proof : Bytes)
    (ha : ∀ b branches, m = some b → unmarshal proof = some branches → Apart c b key value branches.reverse) :
    ∃ t' R, t.hash c = .ok (t',R) ∧
      ((∃ accepted, verifyKVPairProof (byteOps c) unmarshal (R.elim [] HashKey.bytes) key value proof =
            .ok accepted ∧ (accepted = true → m.bind (lookup key) = some value)) ↔
        ∃ branches, unmarshal proof = some branches ∧ ∀ b, m = some b → (∀ hk, R = some hk → hk.pre = []) →
            Poses c key value b branches.reverse → lookup key b = some value) := by
  obtain ⟨t',R,hh,hdi⟩ := h.hash
  refine ⟨t',R,hh,?_⟩
  cases hu : unmarshal proof with
  | none => simp [verifyKVPairProof_of_none (byteOps c) hu]
  | some branches =>
    have hcu : ∀ n, (byteOps c).cut ((byteOps c).leaf n) = (byteOps c).leaf n := by
      intro n
      have hl : ((byteOps c).leaf n).length = 32 := hc.sha256_length _
      simp only [byteOps] at hl ⊢
      rw [hl,Nat.sub_self,drop_zero]
    have hl := chain_length hc key value branches.reverse
    rw [verifyKVPairProof_of_some (byteOps c) hu hcu,← chain_reverse]
    simp only [Except.ok.injEq,exists_eq_left',decide_eq_true_eq,Option.some.injEq]
    cases m with
    | none =>
      obtain rfl : R = none := by simpa using hdi
      refine iff_of_true (fun he => ?_) (by simp)
      rw [← he] at hl
      simp at hl
    | some b =>
      obtain ⟨hk,rfl,hd⟩ : ∃ hk, R = some hk ∧ hk.digest = digestOf c b := by simpa using hdi
      simp only [Option.elim_some,HashKey.bytes_eq_iff hc hd hl,Option.bind_some,Option.some.injEq,forall_eq']
      constructor
      · intro hs hpr hpo
        exact hs ⟨hpr,hpo.chain_eq hc⟩
      · rintro hco ⟨hpr,he⟩
        rcases poses_or_lookup hc (hm b rfl).1 (Holds.height_lt h) (ha b branches rfl hu) he
          with hp | hv
        · exact hco hpr hp
        · exact hv

/-- Messages in frames, digests of the first 32 bytes. -/
def shortCodec : Codec Bytes where
  sha256 b := (b ++ replicate 32 0).take 32
  marshalLeaf n := message n.key n.value n.height n.size
  marshalInner n := message n.leftHash n.rightHash n.height n.size
  emptyRoot := replicate 32 0

lemma shortCodec_plain : shortCodec.Plain where
  sha256_length := by simp [shortCodec]
  marshal_eq := fun _ _ _ _ => rfl
  marshalInner_injective := by
    rintro ⟨l,r,h,s⟩ ⟨l',r',h',s'⟩ he
    obtain ⟨rfl,rfl,rfl,rfl⟩ := message_inj he
    rfl

def leafTree (k v : Bytes) : Tree Bytes := ⟨.new k v,none,0,none⟩

def pairTree : Tree Bytes := ⟨.mk [3] [] 1 2 none none (.new [1] [2]) none (.new [3] [4]) false,none,0,none⟩

def pairBindings : Bindings := .inner [3] (.leaf [1] [2]) (.leaf [3] [4])

/-- The branch from the first leaf of a pair. -/
def pairBranch : InnerNode Bytes := ⟨[],LeafNode.hash shortCodec ⟨[3],[4],0,1⟩,1,2⟩

/-- The proof of a leaf is accepted, and the leaf is in the tree. -/
theorem verifyKVPairProof_sound_iff_pair : ∃ t' R, pairTree.hash shortCodec = .ok (t',some R) ∧
    verifyKVPairProof (byteOps shortCodec) (fun _ => some [pairBranch]) R.bytes [1] [2] [] = .ok true ∧
    lookup [1] pairBindings = some [2] := by
  have hrep : Rep (storeView shortCodec none fun _ => none) pairTree.root (some pairBindings) :=
    (Fresh.split (Fresh.new _ [1] [2]).1 (Fresh.new _ [3] [4]).1).1
  have hwf : WellFormed (some pairBindings) := by
    rintro _ ⟨rfl⟩
    exact ⟨⟨trivial,trivial,by decide,rfl⟩,trivial,trivial,by decide,by decide⟩
  obtain ⟨t',R,hh,hi⟩ := verifyKVPairProof_sound_iff shortCodec_plain hrep hwf (fun _ => some [pairBranch]) [1] [2] [] (by
    rintro b branches ⟨rfl⟩ ⟨rfl⟩
    unfold Apart
    decide +kernel)
  have hr : (pairTree.hash shortCodec).map (·.2) = .ok (some ⟨[],digestOf shortCodec pairBindings⟩) := by decide +kernel
  rw [hh] at hr
  obtain rfl := Except.ok.inj hr
  have hv : verifyKVPairProof (byteOps shortCodec) (fun _ => some [pairBranch]) (digestOf shortCodec pairBindings)
      [1] [2] [] =
      .ok true := by decide +kernel
  obtain ⟨accepted,ha,hl⟩ := hi.mpr ⟨[pairBranch],rfl,by
    rintro b ⟨rfl⟩ - ⟨-,-,hp⟩
    simp [pairBranch,Poses] at hp⟩
  exact ⟨t',_,hh,hv,hl (Except.ok.inj (ha.symm.trans hv))⟩

/-- The hash of a leaf that no tree here has, used as a key. -/
def posingKey : Bytes := LeafNode.hash shortCodec ⟨[5],[6],0,1⟩

/-- A proof with a branch of height 0, and bytes that are no proof. -/
def forgedProof (data : Bytes) : Option (List (InnerNode Bytes)) :=
  if data = [255] then none else some [⟨[],[7],0,1⟩]

theorem verifyKVPairProof_forged : ∃ t' R, (leafTree posingKey [7]).hash shortCodec = .ok (t',some R) ∧
      Apart shortCodec (.leaf posingKey [7]) [5] [6] [⟨[],[7],0,1⟩] ∧
      verifyKVPairProof (byteOps shortCodec) forgedProof R.bytes [5] [6] [0] = .ok true ∧
      lookup [5] (.leaf posingKey [7] : Bindings) = none ∧
      verifyKVPairProof (byteOps shortCodec) forgedProof R.bytes [5] [6] [255] = .error .nilPointer := by
  refine ⟨⟨.mk posingKey [7] 0 1 (some ⟨[],LeafNode.hash shortCodec ⟨posingKey,[7],0,1⟩⟩) none .nil
    none .nil false,none,0,none⟩,⟨[],LeafNode.hash shortCodec ⟨posingKey,[7],0,1⟩⟩,?_,?_,?_,?_,?_⟩
  · simp [Tree.hash,leafTree,Node.new,Node.hashNode,hashKey]
  · unfold Apart
    decide +kernel
  · decide +kernel
  · decide +kernel
  · rfl

end Dpos.Mavl
