import Dpos.PairTree
import Dpos.Transaction
import Dpos.Word

/-! The merkle roots of `common/merkle`. A level of odd length is completed by its
last digest; long lists are cut into chunks that are hashed on their own, the last
one padded; and from the root-hash fork on there is one root per title under a
common root. All of them span the leaves in order, up to repetitions. -/
namespace Dpos.Merkle

open List

section
variable {D : Type} (pair : D → D → D)

/-- One pass of the loop of `getMerkleRoot`: an odd last digest meets its copy. -/
def pairUp : List D → List D
  | a :: b :: hashes => pair a b :: pairUp hashes
  | [a] => [pair a a]
  | [] => []

def rootLoop : ℕ → List D → Option D
  | _,[] => none
  | _,[a] => some a
  | 0,_ => none
  | fuel+1,hashes => rootLoop fuel (pairUp pair hashes)

def getMerkleRootSeq (hashes : List D) : Option D := rootLoop pair hashes.length hashes

def log2Loop : ℕ → ℕ → ℕ → ℕ
  | 0,_,level => level
  | fuel+1,data,level => if data/2 ≤ 1 then level else log2Loop fuel (data/2) (level+1)

def log2 (data : ℕ) : ℕ := if data = 0 then 0 else log2Loop data data 1

def calcLevelLoop : ℕ → ℕ → ℕ → ℕ
  | 0,_,level => level
  | fuel+1,n,level => if n ≤ 1 then level else calcLevelLoop fuel ((n+n%2)/2) (level+1)

def calcLevel (n : ℕ) : ℕ := if n = 1 then 1 else calcLevelLoop n n 0

/-- `getMerkleRootPad`: the root of a short chunk, raised to the level of `step`. -/
def getMerkleRootPad (hashes : List D) (step : ℕ) : Option D := do
  let root ← match hashes with
    | [a] => some (pair a a)
    | _ => getMerkleRootSeq pair hashes
  return (fun r => pair r r)^[log2 step-calcLevel hashes.length] root

def chunkRoot (step : ℕ) (child : List D) : Option D :=
  if child.length ≠ step then getMerkleRootPad pair child step else getMerkleRootSeq pair child

def chunkStep (ncpu n : ℕ) : ℕ := min (2^max (log2 (n/ncpu)) 1) 256

def chunkCount (step n : ℕ) : ℕ := if n%step ≠ 0 then n/step+1 else n/step

def chunks {α : Type} (step count : ℕ) (l : List α) : List (List α) :=
  (List.range count).map fun i => (l.drop (i*step)).take step

def getMerkleRoot (ncpu : ℕ) (hashes : List D) : Option D :=
  if hashes.length ≤ 80 ∨ ncpu ≤ 1 then getMerkleRootSeq pair hashes
  else do
    let step := chunkStep ncpu hashes.length
    let childlist ← (chunks step (chunkCount step hashes.length) hashes).mapM (chunkRoot pair step)
    getMerkleRootSeq pair childlist

/-! ### The leaves below a root -/

variable {pair} [DecidableEq D] {IsLeaf : D → Prop}

/-- A root over a list of digests: it spans their leaves, up to repetitions. -/
def RootOf (pair : D → D → D) (IsLeaf : D → Prop) (hashes : List D) (root : D) : Prop :=
  ∀ ss, List.Forall₂ (Spans pair IsLeaf) hashes ss →
    ∃ s, Spans pair IsLeaf root s ∧ firsts s = firsts ss.flatten

lemma RootOf.singleton (a : D) : RootOf pair IsLeaf [a] a := by
  intro ss h
  cases h with
  | cons ha h =>
    cases h with
    | nil => exact ⟨_,ha,by simp⟩

variable {hashes : List D}

lemma pairUp_spans {ss : List (List D)} (h : List.Forall₂ (Spans pair IsLeaf) hashes ss) :
    ∃ tt, List.Forall₂ (Spans pair IsLeaf) (pairUp pair hashes) tt ∧ firsts tt.flatten = firsts ss.flatten := by
  induction hashes using pairUp.induct generalizing ss with
  | case1 a b hashes ih =>
    cases h with
    | cons ha h =>
      cases h with
      | @cons _ t _ ss hb h =>
        obtain ⟨tt,ht,hf⟩ := ih h
        refine ⟨_ :: tt,.cons (.node ha hb) ht,?_⟩
        simpa using firsts_append_congr (rfl : firsts (_ ++ t) = _) hf
  | case2 a =>
    cases h with
    | @cons _ s _ _ ha h =>
      cases h with
      | nil =>
        refine ⟨[s ++ s],.cons (.node ha ha) .nil,?_⟩
        simpa using firsts_append_of_subset (List.Subset.refl s)
  | case3 =>
    cases h with
    | nil => exact ⟨[],.nil,rfl⟩

omit [DecidableEq D] in
lemma pairUp_length (hashes : List D) : (pairUp pair hashes).length = (hashes.length+1)/2 := by
  induction hashes using pairUp.induct with
  | case1 a b hashes ih => simp only [pairUp,length_cons,ih]; omega
  | case2 a => simp [pairUp]
  | case3 => simp [pairUp]

lemma rootLoop_spans {f : ℕ} (hne : hashes ≠ []) (hfu : hashes.length ≤ f+1) :
    ∃ root, rootLoop pair f hashes = some root ∧ RootOf pair IsLeaf hashes root := by
  induction f, hashes using rootLoop.induct pair with
  | case1 => exact absurd rfl hne
  | case2 f a => exact ⟨a,by simp [rootLoop],RootOf.singleton a⟩
  | case3 hashes hn ho =>
    match hashes,hn,ho with
    | [],hn,_ => exact absurd rfl hn
    | [a],_,ho => exact absurd rfl (ho a)
    | a :: b :: hashes,_,_ => simp at hfu
  | case4 f hashes hn ho ih =>
    have hl : (pairUp pair hashes).length = _ := pairUp_length hashes
    have htw : 2 ≤ hashes.length := by
      match hashes,hn,ho with
      | [],hn,_ => exact absurd rfl hn
      | [a],_,ho => exact absurd rfl (ho a)
      | a :: b :: hashes,_,_ => simp
    obtain ⟨root,hr,hsp⟩ := ih (ne_nil_of_length_pos (by omega)) (by omega)
    refine ⟨root,?_,?_⟩
    · rw [rootLoop]
      · exact hr
      · exact hn
      · exact ho
    · intro ss h
      obtain ⟨tt,ht,hf⟩ := pairUp_spans h
      obtain ⟨s,hs,he⟩ := hsp tt ht
      exact ⟨s,hs,he.trans hf⟩

lemma getMerkleRootSeq_rootOf (hne : hashes ≠ []) :
    ∃ root, getMerkleRootSeq pair hashes = some root ∧ RootOf pair IsLeaf hashes root :=
  rootLoop_spans hne (by omega)

variable {root : D} {α : Type} {step : ℕ}

lemma RootOf.double (h : RootOf pair IsLeaf hashes root) : RootOf pair IsLeaf hashes (pair root root) := by
  intro ss hss
  obtain ⟨s,hs,he⟩ := h ss hss
  exact ⟨s ++ s,.node hs hs,(firsts_append_of_subset (List.Subset.refl s)).trans he⟩

lemma RootOf.pad (h : RootOf pair IsLeaf hashes root) (n : ℕ) :
    RootOf pair IsLeaf hashes ((fun r => pair r r)^[n] root) := by
  induction n generalizing root with
  | zero => exact h
  | succ n ih => exact ih h.double

lemma getMerkleRootPad_rootOf (hne : hashes ≠ []) (step : ℕ) :
    ∃ root, getMerkleRootPad pair hashes step = some root ∧ RootOf pair IsLeaf hashes root := by
  match hashes,hne with
  | [a],_ => exact ⟨_,rfl,(RootOf.singleton a).double.pad _⟩
  | a :: b :: hashes,hne =>
    obtain ⟨root,hr,hs⟩ := getMerkleRootSeq_rootOf hne
    refine ⟨_,?_,hs.pad (log2 step-calcLevel (a :: b :: hashes).length)⟩
    simp [getMerkleRootPad,hr]

lemma chunkRoot_rootOf {ch : List D} (hne : ch ≠ []) (step : ℕ) :
    ∃ root, chunkRoot pair step ch = some root ∧ RootOf pair IsLeaf ch root := by
  unfold chunkRoot
  split_ifs
  · exact getMerkleRootPad_rootOf hne step
  · exact getMerkleRootSeq_rootOf hne

lemma RootOf.trans {gs : List (List D)} {rs : List D}
    (hg : List.Forall₂ (RootOf pair IsLeaf) gs rs) (h : RootOf pair IsLeaf rs root) :
    RootOf pair IsLeaf gs.flatten root := by
  intro ss hss
  have hro : ∃ tt, List.Forall₂ (Spans pair IsLeaf) rs tt ∧
      firsts tt.flatten = firsts ss.flatten := by
    clear h
    induction hg generalizing ss with
    | nil =>
      cases hss with
      | nil => exact ⟨[],.nil,rfl⟩
    | @cons group r gs rs hr _ ih =>
      obtain ⟨t,ht,he⟩ := hr _ (forall₂_take_append ss group gs.flatten hss.flip).flip
      obtain ⟨tt,htt,hf⟩ := ih _ (forall₂_drop_append ss group gs.flatten hss.flip).flip
      refine ⟨t :: tt,.cons ht htt,?_⟩
      rw [flatten_cons,firsts_append_congr he hf,← flatten_append,take_append_drop]
  obtain ⟨tt,htt,hf⟩ := hro
  obtain ⟨s,hs,he⟩ := h tt htt
  exact ⟨s,hs,he.trans hf⟩

lemma mapM_forall₂ {β : Type} {f : α → Option β} {P : α → β → Prop} {l : List α}
    (h : ∀ a ∈ l, ∃ b, f a = some b ∧ P a b) : ∃ bs, l.mapM f = some bs ∧ List.Forall₂ P l bs := by
  induction l with
  | nil => exact ⟨[],rfl,.nil⟩
  | cons a l ih =>
    obtain ⟨b,hb,hP⟩ := h a (by simp)
    obtain ⟨bs,hbs,hPs⟩ := ih fun a ha => h a (by simp [ha])
    exact ⟨b :: bs,by simp [mapM_cons,hb,hbs],.cons hP hPs⟩

lemma chunks_flatten (step co : ℕ) (l : List α) : (chunks step co l).flatten = l.take (co*step) := by
  induction co with
  | zero => simp [chunks]
  | succ co ih =>
    rw [chunks] at ih ⊢
    rw [range_succ,map_append,flatten_append,ih,Nat.succ_mul,take_add]
    simp

lemma chunkStep_pos (ncpu n : ℕ) : 0 < chunkStep ncpu n := by simp [chunkStep]

lemma chunkCount_mul_ge (hs : 0 < step) (n : ℕ) : n ≤ chunkCount step n*step := by
  have hd := Nat.div_add_mod n step
  have hm := Nat.mod_lt n hs
  unfold chunkCount
  split_ifs with h
  · rw [Nat.add_mul,mul_comm]; omega
  · rw [mul_comm]; omega

lemma mul_lt_of_lt_chunkCount {i n : ℕ} (hs : 0 < step) (hi : i < chunkCount step n) : i*step < n := by
  have hd := Nat.div_add_mod n step
  have hl : i*step ≤ n/step*step := by
    apply Nat.mul_le_mul_right
    unfold chunkCount at hi
    split_ifs at hi <;> omega
  unfold chunkCount at hi
  rw [mul_comm] at hd
  split_ifs at hi with h
  · omega
  · have hlt : i*step < n/step*step := Nat.mul_lt_mul_of_pos_right hi hs
    omega

/-- Whatever the number of processors, the result is a root over all digests. -/
theorem getMerkleRoot_rootOf (ncpu : ℕ) (hne : hashes ≠ []) :
    ∃ root, getMerkleRoot pair ncpu hashes = some root ∧ RootOf pair IsLeaf hashes root := by
  unfold getMerkleRoot
  split_ifs with h
  · exact getMerkleRootSeq_rootOf hne
  · have hs := chunkStep_pos ncpu hashes.length
    generalize chunkStep ncpu hashes.length = step at hs ⊢
    have hc : ∀ ch ∈ chunks step (chunkCount step hashes.length) hashes,
        ∃ root, chunkRoot pair step ch = some root ∧ RootOf pair IsLeaf ch root := by
      intro ch hm
      obtain ⟨i,hi,rfl⟩ := mem_map.mp hm
      have hlt := mul_lt_of_lt_chunkCount hs (mem_range.mp hi)
      exact chunkRoot_rootOf (ne_nil_of_length_pos (by simp; omega)) step
    obtain ⟨rs,hr,ha⟩ := mapM_forall₂ hc
    have hf : (chunks step (chunkCount step hashes.length) hashes).flatten = hashes := by
      rw [chunks_flatten,take_of_length_le (chunkCount_mul_ge hs _)]
    have hrn : rs ≠ [] := by
      rintro rfl
      rw [forall₂_nil_right_iff] at ha
      rw [ha] at hf
      exact hne hf.symm
    obtain ⟨root,hro,hsp⟩ := getMerkleRootSeq_rootOf hrn
    exact ⟨root,by simp [hr,hro],hf ▸ hsp.trans ha⟩

end

variable {txs : List Transaction}

section
variable (c : Crypto) (ncpu : ℕ)

def getHashFromTwoHash (left right : Bytes) : Bytes := c.sha256 (c.sha256 (left ++ right))

def rootOfHashes (hashes : List Bytes) : Option Bytes :=
  if hashes = [] then some zeroHash else getMerkleRoot (getHashFromTwoHash c) ncpu hashes

/-- `CalcMerkleRootCache`, over the hashes. A result of none stands for the panic on
a nil root. -/
def calcMerkleRootCache (txs : List Transaction) : Option Bytes :=
  rootOfHashes c ncpu (txs.map (Transaction.hash c))

def calcSingleLayerMerkleRoot (txs : List Transaction) : Option Bytes :=
  rootOfHashes c ncpu (txs.map (Transaction.fullHash c))

/-- The index and the count are of type `int32`. -/
structure ChildChain where
  title : Bytes
  startIndex : ℤ
  childHash : Bytes
  txCount : ℤ
  deriving DecidableEq, Repr

/-- The first loop of `calcMultiLayerMerkleInfo`: titles and starts of the child chains from index
`i` on, `fristParaTitle` being the last title of a para chain. -/
def childStarts : ℕ → Bytes → List Transaction → List (Bytes × ℕ)
  | _,_,[] => []
  | i,fristParaTitle,tx :: txs =>
    match getParaExecTitleName tx.execer with
    | none =>
      if i = 0 then (mainChainName,0) :: childStarts (i+1) fristParaTitle txs
      else childStarts (i+1) fristParaTitle txs
    | some paraTitle =>
      if fristParaTitle = [] ∨ paraTitle ≠ fristParaTitle then
        (paraTitle,i) :: childStarts (i+1) paraTitle txs
      else childStarts (i+1) fristParaTitle txs

def childTxs (txs : List Transaction) : List (Bytes × ℕ) → List (List Transaction)
  | [] => []
  | [(_,start)] => [txs.drop start]
  | (_,start) :: (title,stop) :: chains =>
    (txs.drop start).take (stop-start) :: childTxs txs ((title,stop) :: chains)

/-- `calcMultiLayerMerkleInfo`. The slices are taken at the indices themselves, which fit `int32`
below `2^31` transactions. -/
def calcMultiLayerMerkleInfo (txs : List Transaction) : Option (Bytes × List ChildChain) :=
  if txs = [] then some (zeroHash,[])
  else
    match childStarts 0 [] txs with
    | [] => none
    | [(title,start)] => do
      let merkleRoot ← calcSingleLayerMerkleRoot c ncpu txs
      return (merkleRoot,[⟨title,Word.wrap 32 start,merkleRoot,Word.wrap 32 txs.length⟩])
    | chains => do
      let subtxs := childTxs txs chains
      let childlist ← subtxs.mapM (calcSingleLayerMerkleRoot c ncpu)
      let merkleroot ← getMerkleRoot (getHashFromTwoHash c) ncpu childlist
      return (merkleroot,(chains.zip (childlist.zip subtxs)).map fun (chain,hash,sub) =>
        ⟨chain.1,Word.wrap 32 chain.2,hash,Word.wrap 32 sub.length⟩)

def calcMerkleRoot (forkRootHash : Bool) (txs : List Transaction) : Option Bytes :=
  if !forkRootHash then calcMerkleRootCache c ncpu txs
  else (calcMultiLayerMerkleInfo c ncpu txs).map Prod.fst

lemma childStarts_bounds (i : ℕ) (ti : Bytes) (txs : List Transaction) :
    ∀ ch ∈ childStarts i ti txs, i ≤ ch.2 ∧ ch.2 < i+txs.length := by
  induction txs generalizing i ti with
  | nil => simp [childStarts]
  | cons tx txs ih =>
    have ht : ∀ t, ∀ ch ∈ childStarts (i+1) t txs,
        i ≤ ch.2 ∧ ch.2 < i+(tx :: txs).length := by
      intro t ch hchain
      have := ih (i+1) t ch hchain
      simp only [length_cons]
      omega
    intro ch hchain
    unfold childStarts at hchain
    split at hchain <;> split_ifs at hchain with h
    · rcases mem_cons.mp hchain with rfl | hchain
      · simp [h]
      · exact ht _ ch hchain
    · exact ht _ ch hchain
    · rcases mem_cons.mp hchain with rfl | hchain
      · simp
      · exact ht _ ch hchain
    · exact ht _ ch hchain

lemma childStarts_sorted (i : ℕ) (ti : Bytes) (txs : List Transaction) :
    (childStarts i ti txs).Pairwise (fun a b => a.2 < b.2) := by
  induction txs generalizing i ti with
  | nil => simp [childStarts]
  | cons tx txs ih =>
    have hc : ∀ t t' (j : ℕ), j ≤ i →
        ((t,j) :: childStarts (i+1) t' txs).Pairwise (fun a b => a.2 < b.2) := by
      intro t t' j hj
      refine pairwise_cons.mpr ⟨fun ch hchain => ?_,ih _ _⟩
      have := (childStarts_bounds (i+1) t' txs ch hchain).1
      exact lt_of_le_of_lt hj this
    unfold childStarts
    split <;> split_ifs with h
    · exact hc _ _ _ (by omega)
    · exact ih _ _
    · exact hc _ _ _ le_rfl
    · exact ih _ _

lemma childStarts_zero (tx : Transaction) (txs : List Transaction) :
    ∃ t chains, childStarts 0 [] (tx :: txs) = (t,0) :: chains := by
  unfold childStarts
  split
  · exact ⟨_,_,rfl⟩
  · exact ⟨_,_,if_pos (.inl rfl)⟩

lemma childTxs_flatten (txs : List Transaction) (t : Bytes) (start : ℕ) (cs : List (Bytes × ℕ))
    (h : ((t,start) :: cs).Pairwise (fun a b => a.2 < b.2)) :
    (childTxs txs ((t,start) :: cs)).flatten = txs.drop start := by
  induction cs generalizing t start with
  | nil => simp [childTxs]
  | cons ch cs ih =>
    obtain ⟨t',stop⟩ := ch
    obtain ⟨hlt,hc⟩ := pairwise_cons.mp h
    have hs : start+(stop-start) = stop := by
      have := hlt (t',stop) (by simp)
      omega
    rw [childTxs,flatten_cons,ih t' stop hc]
    nth_rewrite 2 [← hs]
    rw [← drop_drop,take_append_drop]

lemma childTxs_ne_nil (txs : List Transaction) (cs : List (Bytes × ℕ))
    (h : cs.Pairwise (fun a b => a.2 < b.2)) (hlt : ∀ ch ∈ cs, ch.2 < txs.length) :
    ∀ sub ∈ childTxs txs cs, sub ≠ [] := by
  induction cs using childTxs.induct with
  | case1 => simp [childTxs]
  | case2 t s =>
    have := hlt (t,s) (by simp)
    simpa [childTxs] using this
  | case3 t s t' st cs ih =>
    obtain ⟨hlt',hc⟩ := pairwise_cons.mp h
    have hst := hlt (t,s) (by simp)
    have hsp := hlt' (t',st) (by simp)
    intro sub hs
    rw [childTxs] at hs
    rcases mem_cons.mp hs with rfl | hs
    · exact ne_nil_of_length_pos (by simp; omega)
    · exact ih hc (fun ch hchain => hlt ch (mem_cons_of_mem _ hchain)) sub hs

lemma calcSingleLayerMerkleRoot_rootOf (hne : txs ≠ []) (IsLeaf : Bytes → Prop) :
    ∃ root, calcSingleLayerMerkleRoot c ncpu txs = some root ∧
      RootOf (getHashFromTwoHash c) IsLeaf (txs.map (Transaction.fullHash c)) root := by
  have hh : txs.map (Transaction.fullHash c) ≠ [] := by simpa using hne
  rw [calcSingleLayerMerkleRoot,rootOfHashes,if_neg hh]
  exact getMerkleRoot_rootOf ncpu hh

lemma calcMultiLayerMerkleInfo_rootOf (hne : txs ≠ []) (IsLeaf : Bytes → Prop) :
    ∃ root cs, calcMultiLayerMerkleInfo c ncpu txs = some (root,cs) ∧
      RootOf (getHashFromTwoHash c) IsLeaf (txs.map (Transaction.fullHash c)) root := by
  obtain ⟨tx,rest,rfl⟩ := exists_cons_of_ne_nil hne
  obtain ⟨t,cs,hs⟩ := childStarts_zero tx rest
  have hso := hs ▸ childStarts_sorted 0 [] (tx :: rest)
  have hb := hs ▸ childStarts_bounds 0 [] (tx :: rest)
  rw [calcMultiLayerMerkleInfo,if_neg hne,hs]
  match cs with
  | [] =>
    obtain ⟨root,hr,hsp⟩ := calcSingleLayerMerkleRoot_rootOf c ncpu hne IsLeaf
    exact ⟨root,_,by simp only [hr]; rfl,hsp⟩
  | chain :: cs =>
    have hsu := childTxs_ne_nil (tx :: rest) _ hso fun chain hchain => by simpa using (hb chain hchain).2
    have hf := childTxs_flatten (tx :: rest) t 0 _ hso
    generalize hg : childTxs (tx :: rest) ((t,0) :: chain :: cs) = groups at hsu hf
    obtain ⟨rs,hro,ha⟩ := mapM_forall₂ (fun sub hm =>
      calcSingleLayerMerkleRoot_rootOf c ncpu (hsu sub hm) IsLeaf)
    have hrn : rs ≠ [] := by
      rintro rfl
      rw [forall₂_nil_right_iff] at ha
      simp [ha] at hf
    obtain ⟨root,hr,hsp⟩ :
        ∃ root, getMerkleRoot (getHashFromTwoHash c) ncpu rs = some root ∧
          RootOf (getHashFromTwoHash c) IsLeaf rs root := getMerkleRoot_rootOf ncpu hrn
    refine ⟨root,_,by simp only [hg,hro,Option.bind_eq_bind,Option.bind_some,hr]; rfl,?_⟩
    rw [drop_zero] at hf
    rw [← hf,map_flatten]
    exact hsp.trans (forall₂_map_left_iff.mpr ha)

end

section
variable {c : Crypto} {cs : List ChildChain} {root : Bytes}

/-- The full hashes that cannot be taken for the hash of a pair. -/
def TxLeaf (c : Crypto) (d : Bytes) : Prop := ∃ tx, c.Apart tx ∧ tx.fullHash c = d

lemma freePair (hc : c.Ideal) : FreePair (getHashFromTwoHash c) (TxLeaf c) (fun d => ∃ x, c.sha256 x = d) where
  leaf_digest := by
    rintro d ⟨tx,_,rfl⟩
    exact ⟨_,rfl⟩
  pair_digest := fun a b => ⟨_,rfl⟩
  injective := by
    rintro _ _ _ _ ⟨x,rfl⟩ ⟨y,rfl⟩ ⟨x',rfl⟩ ⟨y',rfl⟩ h
    exact hc.sha256_append _ _ _ _ (hc.sha256_injective (hc.sha256_injective h))
  apart := by
    rintro a b ⟨tx,ht,h⟩
    exact ht _ (hc.sha256_injective h)

lemma forall₂_leaves (h : ∀ tx ∈ txs, c.Apart tx) :
    List.Forall₂ (Spans (getHashFromTwoHash c) (TxLeaf c)) (txs.map (Transaction.fullHash c))
      ((txs.map (Transaction.fullHash c)).map fun d => [d]) := by
  rw [forall₂_map_right_iff,forall₂_same]
  intro d hd
  obtain ⟨tx,ht,rfl⟩ := mem_map.mp hd
  exact .leaf ⟨tx,h tx ht,rfl⟩

lemma calcMultiLayerMerkleInfo_spans (hc : c.Ideal) (ncpu : ℕ) (h : ∀ tx ∈ txs, c.Apart tx)
    (hr : calcMultiLayerMerkleInfo c ncpu txs = some (root,cs)) (hne : txs ≠ []) :
    root ≠ zeroHash ∧ ∃ s, Spans (getHashFromTwoHash c) (TxLeaf c) root s ∧
      firsts s = firsts (txs.map (Transaction.fullHash c)) := by
  obtain ⟨root',cs',hr',hsp⟩ := calcMultiLayerMerkleInfo_rootOf c ncpu hne (TxLeaf c)
  cases hr.symm.trans hr'
  obtain ⟨s,hs,he⟩ := hsp _ (forall₂_leaves h)
  refine ⟨?_,s,hs,?_⟩
  · obtain ⟨x,rfl⟩ := hs.isDigest (freePair hc)
    exact hc.sha256_ne_zeroHash x
  · rw [he,← flatMap_def,flatMap_singleton']

lemma calcMultiLayerMerkleInfo_binds (hc : c.Ideal) {ncpu ncpu' : ℕ} {txs' : List Transaction}
    (h : ∀ tx ∈ txs, c.Apart tx) (h' : ∀ tx ∈ txs', c.Apart tx)
    {cs' : List ChildChain} (hr : calcMultiLayerMerkleInfo c ncpu txs = some (root,cs))
    (hr' : calcMultiLayerMerkleInfo c ncpu' txs' = some (root,cs')) :
    firsts (txs.map (Transaction.fullHash c)) = firsts (txs'.map (Transaction.fullHash c)) := by
  by_cases hne : txs = [] <;> by_cases hne' : txs' = []
  · rw [hne,hne']
  · subst hne
    cases hr
    exact absurd rfl (calcMultiLayerMerkleInfo_spans hc ncpu' h' hr' hne').1
  · subst hne'
    cases hr'
    exact absurd rfl (calcMultiLayerMerkleInfo_spans hc ncpu h hr hne).1
  · obtain ⟨_,s,hs,he⟩ := calcMultiLayerMerkleInfo_spans hc ncpu h hr hne
    obtain ⟨_,s',hs',he'⟩ := calcMultiLayerMerkleInfo_spans hc ncpu' h' hr' hne'
    rw [← he,← he',hs.unique (freePair hc) hs']

-- Repetitions are lost: a last transaction given twice has the root of the list without it.
example (txs : Fin 3 → Transaction) :
    calcSingleLayerMerkleRoot c 1 [txs 0,txs 1,txs 2] =
      calcSingleLayerMerkleRoot c 1 [txs 0,txs 1,txs 2,txs 2] := rfl

end
end Dpos.Merkle
