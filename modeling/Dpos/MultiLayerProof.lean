import Dpos.MerkleBranch
import Dpos.MerkleTitles

/-! Proofs of transactions over two layers: the branch of a transaction in its child chain,
and the branch of the child chain among the roots of all of them. -/
namespace Dpos.ParaTx

open List
open Merkle Crypto Transaction

structure TxProof where
  proofs : List Bytes
  index : ℕ
  rootHash : Bytes
  deriving DecidableEq, Repr

/-- The proofs lead from a hash to the root of a block, by way of the root of a child chain if
there are two of them. -/
def Reaches (c : Crypto) (leaf root : Bytes) : List TxProof → Prop
  | [p] => getMerkleRootFromBranch (getHashFromTwoHash c) p.proofs leaf p.index = root
  | [p,q] => getMerkleRootFromBranch (getHashFromTwoHash c) p.proofs leaf p.index = p.rootHash ∧
      getMerkleRootFromBranch (getHashFromTwoHash c) q.proofs p.rootHash q.index = root
  | _ => False

variable {txs : List Transaction} {root : Bytes} {chains : List ChildChain} {c : Crypto} {ncpu : ℕ} {tx : Transaction}

/-- Whoever makes up the proofs, they lead from a transaction to the root of a block only if it is in the block. -/
theorem reaches_sound (hc : c.Ideal) (hr : calcMultiLayerMerkleInfo c ncpu txs = some (root,chains)) (hne : txs ≠ [])
    (ha : ∀ tx ∈ txs, c.Apart tx) (ht : c.Apart tx) {proofs : List TxProof}
    (hb : ∀ p ∈ proofs, ∀ d ∈ p.proofs, ∃ x, c.sha256 x = d) (h : Reaches c (tx.fullHash c) root proofs) : tx ∈ txs := by
  obtain ⟨-,s,hs,hf⟩ := calcMultiLayerMerkleInfo_spans hc ncpu ha hr hne
  have hd : ∃ x, c.sha256 x = tx.fullHash c := ⟨_,rfl⟩
  obtain ⟨u,hus,hu⟩ : ∃ u ⊆ s, Spans (getHashFromTwoHash c) (TxLeaf c) (tx.fullHash c) u := by
    match proofs,h with
    | [p],h => exact (spans_of_branch (freePair hc) (hb p (by simp)) hd).2 s (h ▸ hs)
    | [p,q],⟨hi,ho⟩ =>
      obtain ⟨hm,hin⟩ := spans_of_branch (freePair hc) (hb p (by simp)) hd
      rw [hi] at hm hin
      obtain ⟨t,hts,ht⟩ := (spans_of_branch (freePair hc) (hb q (by simp)) hm).2 s (ho ▸ hs)
      exact (hin t ht).imp fun _ h => ⟨Subset.trans h.1 hts,h.2⟩
  obtain rfl := hu.unique (freePair hc) (.leaf ⟨tx,ht,rfl⟩)
  have hm := mem_firsts.mpr (hus mem_cons_self)
  rwa [hf,mem_firsts,mem_map_of_injective (fullHash_injective hc)] at hm

/-- A transaction of the main chain, two of one title and one of another. -/
def titled : List Transaction := [bareTx "coins",bareTx "user.p.a.x",bareTx "user.p.a.y",bareTx "user.p.b.x"]

/-- The branches of the second transaction of a block with three titles. -/
def twoLayers : List TxProof :=
  let hash := fun exec => (bareTx exec).fullHash framed
  let pair := getHashFromTwoHash framed
  [⟨[hash "user.p.a.y"],0,pair (hash "user.p.a.x") (hash "user.p.a.y")⟩,
    ⟨[hash "coins",pair (hash "user.p.b.x") (hash "user.p.b.x")],1,[]⟩]

theorem reaches_sound_titled : ∃ root chains, calcMultiLayerMerkleInfo framed 1 titled = some (root,chains) ∧
    Reaches framed ((bareTx "user.p.a.x").fullHash framed) root twoLayers ∧ bareTx "user.p.a.x" ∈ titled := by
  obtain ⟨⟨root,chains⟩,hi⟩ : ∃ r, calcMultiLayerMerkleInfo framed 1 titled = some r := ⟨_,rfl⟩
  have hd : ∀ p ∈ twoLayers, ∀ d ∈ p.proofs, ∃ x, framed.sha256 x = d := by
    simp only [twoLayers,forall_mem_cons,not_mem_nil,IsEmpty.forall_iff,implies_true,and_true]
    exact ⟨⟨_,rfl⟩,⟨_,rfl⟩,_,rfl⟩
  have hr : Reaches framed ((bareTx "user.p.a.x").fullHash framed) root twoLayers := by
    have hro : (calcMultiLayerMerkleInfo framed 1 titled).map Prod.fst = some (getMerkleRootFromBranch
      (getHashFromTwoHash framed) twoLayers[1].proofs twoLayers[0].rootHash 1) := rfl
    rw [hi] at hro
    exact ⟨by decide +kernel,(Option.some.inj hro).symm⟩
  exact ⟨root,chains,hi,hr,@reaches_sound titled _ _ framed 1 _ framed_ideal hi (by decide) (fun _ _ => framed_apart _)
    (framed_apart _) twoLayers hd hr⟩

end Dpos.ParaTx
