import Dpos.BlockStore

/-! What `push.go` sends to a subscriber: from a start sequence on, blocks, headers or the
receipts of subscribed contracts, as many as fit, and the sequence up to which it has come. -/
namespace Dpos.Push

open BlockStore List

variable {su : Setup} {maxSize : ℤ} {contract : Bytes → Bool}

inductive PushError
  | store (text : String)
  | panic
  deriving DecidableEq, Repr

structure BlockSeq (D : Type) where
  num : ℤ
  seq : BlockSequence
  detail : D

structure PerBlk where
  tx : List Transaction
  receiptData : List ReceiptData
  height : ℤ
  blockHash : Bytes
  parentHash : Bytes
  previousHash : Bytes
  addDelType : ℤ
  seqNum : ℤ
  deriving DecidableEq, Repr

/-- The sequence store, the block hash and the sizes of the messages. -/
structure Setup where
  getBlockSequence : ℤ → Except PushError BlockSequence
  loadBlockBySequence : ℤ → Except PushError (BlockDetail × ℤ)
  getBlockHeaderByHash : Bytes → Except PushError (Header × ℤ)
  hash : Block → Bytes
  size : PerBlk → ℤ

section
variable (su : Setup) (maxSize : ℤ)

def getBlockDataBySeq (seq : ℤ) : Except PushError (BlockSeq BlockDetail × ℤ) := do
  let seqdata ← su.getBlockSequence seq
  let (detail,blockSize) ← su.loadBlockBySequence seq
  return (⟨seq,seqdata,detail⟩,blockSize)

def getHeaderDataBySeq (seq : ℤ) : Except PushError (BlockSeq Header × ℤ) := do
  let seqdata ← su.getBlockSequence seq
  let (header,size) ← su.getBlockHeaderByHash seqdata.hash
  return (⟨seq,seqdata,header⟩,size)

/-- The loop of the two getters below; the first entry is taken whatever its size. -/
def seqsFrom {α : Type} (load : ℤ → Except PushError (α × ℤ)) : ℕ → ℤ → ℤ → Except PushError (List α)
  | 0,_,_ => return []
  | n+1,seq,totalSize => do
    let (x,size) ← load seq
    if totalSize = 0 ∨ totalSize+size < maxSize then
      return x :: (← seqsFrom load n (seq+1) (totalSize+size))
    else return []

/-- The entries, and the sequence of the last one; without an entry the first one's number is missing. -/
def getSeqs {α : Type} (load : ℤ → Except PushError (α × ℤ)) (seq seqCount : ℤ) :
    Except PushError (List α × ℤ) := do
  let seqs ← seqsFrom maxSize load seqCount.toNat seq 0
  if seqs = [] then throw .panic
  return (seqs,seq+seqs.length-1)

def getBlockSeqs := getSeqs maxSize (getBlockDataBySeq su)

def getHeaderSeqs := getSeqs maxSize (getHeaderDataBySeq su)

/-- The subscribed transactions of a block, each with the receipt at its index. -/
def filterTxs (contract : Bytes → Bool) (detail : BlockDetail) :
    Except PushError (List (Transaction × ReceiptData)) :=
  ((detail.block.txs.zipIdx).filter fun e => contract e.1.execer).mapM fun e =>
    match detail.receipts[e.2]? with
    | none => .error .panic
    | some receipt => .ok (e.1,receipt)

/-- What is pushed of the block at a sequence; nothing is filled in without a transaction. -/
def perBlk (contract : Bytes → Bool) (i : ℤ) : Except PushError PerBlk := do
  let seqdata ← su.getBlockSequence i
  let (detail,_) ← su.loadBlockBySequence i
  let txs ← filterTxs contract detail
  if txs = [] then return ⟨[],[],0,[],[],[],0,0⟩
  return ⟨txs.map Prod.fst,txs.map Prod.snd,detail.block.height,su.hash detail.block,detail.block.parentHash,[],
    (match seqdata.type with | .addBlock => 1 | .delBlock => 2),i⟩

/-- The loop of `getTxReceipts`: what is pushed, and how many sequences are done. -/
def txReceiptsFrom (contract : Bytes → Bool) : ℕ → ℤ → ℤ → Except PushError (List PerBlk × ℕ)
  | 0,_,_ => return ([],0)
  | n+1,i,totalSize => do
    let blk ← perBlk su contract i
    let size := su.size blk
    if blk.tx ≠ [] ∧ totalSize+size < maxSize then
      let r ← txReceiptsFrom contract n (i+1) (totalSize+size)
      return (blk :: r.1,r.2+1)
    else if totalSize+size > maxSize then return ([],0)
    else
      let r ← txReceiptsFrom contract n (i+1) totalSize
      return (r.1,r.2+1)

def getTxReceipts (contract : Bytes → Bool) (startSeq seqCount : ℤ) : Except PushError (List PerBlk × ℤ) := do
  let r ← txReceiptsFrom su maxSize contract seqCount.toNat startSeq 0
  return (r.1,startSeq+r.2-1)

end

section
def blocks (su : Setup) (contract : Bytes → Bool) : ℕ → ℤ → Except PushError (List PerBlk)
  | 0,_ => return []
  | n+1,i => do
    let blk ← perBlk su contract i
    let rest ← blocks su contract n (i+1)
    return if blk.tx = [] then rest else blk :: rest

/-- No block brings the total size to the maximum exactly. -/
def NoExactFit (su : Setup) (maxSize : ℤ) : ℤ → List PerBlk → Prop
  | _,[] => True
  | totalSize,blk :: rest => totalSize+su.size blk ≠ maxSize ∧ NoExactFit su maxSize (totalSize+su.size blk) rest

/-- A block that fits exactly is passed over. -/
theorem txReceiptsFrom_spec {n : ℕ} {i ts : ℤ} {r : List PerBlk × ℕ}
    (h : txReceiptsFrom su maxSize contract n i ts = .ok r) :
    ∃ bs, blocks su contract r.2 i = .ok bs ∧ r.1.length ≤ bs.length ∧
      (r.1 = bs ↔ NoExactFit su maxSize ts bs) := by
  induction n generalizing i ts r with
  | zero =>
    cases h
    exact ⟨[],rfl,le_rfl,by simp [NoExactFit]⟩
  | succ n ih =>
    obtain ⟨blk,hbk,h⟩ := bind_eq_ok.mp h
    dsimp only at h
    split_ifs at h with hf ho
    · obtain ⟨r',hr,h⟩ := bind_eq_ok.mp h
      cases h
      obtain ⟨bs,hb,hl,hi⟩ := ih hr
      refine ⟨blk :: bs,by simp [blocks,hbk,hb,hf.1],Nat.succ_le_succ hl,?_⟩
      simp [NoExactFit,hi,hf.2.ne]
    · cases h
      exact ⟨[],rfl,le_rfl,by simp [NoExactFit]⟩
    · obtain ⟨r',hr,h⟩ := bind_eq_ok.mp h
      cases h
      obtain ⟨bs,hb,hl,hi⟩ := ih hr
      by_cases ht : blk.tx = []
      · exact ⟨bs,by simp [blocks,hbk,hb,ht],hl,hi⟩
      · refine ⟨blk :: bs,by simp [blocks,hbk,hb,ht],hl.trans (Nat.le_succ _),?_⟩
        have he : ts+su.size blk = maxSize := by
          have hnt : ¬ts+su.size blk < maxSize := fun hlt => hf ⟨ht,hlt⟩
          omega
        refine ⟨fun heq => ?_,fun hn => absurd he hn.1⟩
        rw [heq] at hl
        simp at hl

lemma blocks_append {n m : ℕ} {i : ℤ} {as bs : List PerBlk} (ha : blocks su contract n i = .ok as)
    (hb : blocks su contract m (i+n) = .ok bs) : blocks su contract (n+m) i = .ok (as ++ bs) := by
  induction n generalizing i as with
  | zero =>
    cases ha
    simpa using hb
  | succ n ih =>
    obtain ⟨blk,hbk,ha⟩ := bind_eq_ok.mp ha
    obtain ⟨rest,hr,ha⟩ := bind_eq_ok.mp ha
    have hal := ih hr (by rwa [Nat.cast_succ,← add_assoc,add_right_comm] at hb)
    rw [Nat.succ_add,blocks]
    cases ha
    simp only [hbk,hal,ok_bind]
    split_ifs <;> rfl

/-- Pushes one after the other, each from the sequence after the last one. -/
def pushes (su : Setup) (maxSize : ℤ) (contract : Bytes → Bool) :
    List ℤ → ℤ → Except PushError (List (List PerBlk) × ℤ)
  | [],seq0 => return ([],seq0-1)
  | seqCount :: counts,seq0 => do
    let (receipts,updateSeq) ← getTxReceipts su maxSize contract seq0 seqCount
    let r ← pushes su maxSize contract counts (updateSeq+1)
    return (receipts :: r.1,r.2)

/-- Each part has the blocks of the sequences that its own push covers. -/
def PartsOf (su : Setup) (maxSize : ℤ) (contract : Bytes → Bool) : List ℤ → ℤ → List (List PerBlk) → Prop
  | [],_,[] => True
  | seqCount :: counts,seq0,part :: parts => ∃ receipts updateSeq,
      getTxReceipts su maxSize contract seq0 seqCount = .ok (receipts,updateSeq) ∧
      blocks su contract (updateSeq+1-seq0).toNat seq0 = .ok part ∧ PartsOf su maxSize contract counts (updateSeq+1) parts
  | _,_,_ => False

/-- Consecutive pushes cover the sequences without a gap, and each has exactly the blocks of its part
unless one of them fits exactly. -/
theorem pushes_exact_iff {counts : List ℤ} {seq0 last : ℤ} {received : List (List PerBlk)}
    (h : pushes su maxSize contract counts seq0 = .ok (received,last)) :
    seq0 ≤ last+1 ∧ ∃ parts : List (List PerBlk), parts.length = counts.length ∧
      PartsOf su maxSize contract counts seq0 parts ∧ blocks su contract (last+1-seq0).toNat seq0 = .ok parts.flatten ∧
      (received = parts ↔ ∀ part ∈ parts, NoExactFit su maxSize 0 part) := by
  induction counts generalizing seq0 last received with
  | nil =>
    cases h
    simp [blocks,PartsOf]
  | cons seqCount counts ih =>
    obtain ⟨⟨receipts,updateSeq⟩,hg,h⟩ := bind_eq_ok.mp h
    obtain ⟨⟨rest,u⟩,hr,h⟩ := bind_eq_ok.mp h
    cases h
    have hg₀ := hg
    obtain ⟨⟨l,count⟩,hl,hg⟩ := bind_eq_ok.mp hg
    cases hg
    obtain ⟨blks,hb,-,hi⟩ := txReceiptsFrom_spec hl
    rw [sub_add_cancel] at hr
    obtain ⟨hle,parts,hln,hpa,hp,ha⟩ := ih hr
    refine ⟨by omega,blks :: parts,by simp [hln],⟨l,_,hg₀,?_,by rwa [sub_add_cancel]⟩,?_,by simp [hi,ha]⟩
    · rwa [sub_add_cancel,add_sub_cancel_left,Int.toNat_natCast]
    have hs : (u+1-seq0).toNat = count+(u+1-(seq0+count)).toNat := by omega
    rw [hs,flatten_cons]
    exact blocks_append hb hp

end

section
variable {seq : ℤ} {α : Type} {n : ℕ}

lemma seqsFrom_ok {l : ℤ → Except PushError (α × ℤ)} (ts : ℤ)
    (h : ∀ i, seq ≤ i → i < seq+n → ∃ x, l i = .ok x) : ∃ seqs, seqsFrom maxSize l n seq ts = .ok seqs := by
  induction n generalizing seq ts with
  | zero => exact ⟨[],rfl⟩
  | succ n ih =>
    obtain ⟨⟨x,s⟩,hx⟩ := h seq le_rfl (by omega)
    obtain ⟨seqs,hs⟩ := ih (ts+s) fun i (hl : seq+1 ≤ i) hlt => h i (by omega) (by omega)
    rw [seqsFrom,hx,ok_bind]
    dsimp only
    split_ifs
    · exact ⟨x :: seqs,by simp [hs]⟩
    · exact ⟨[],rfl⟩

lemma getSeqs_advances {load : ℤ → Except PushError (α × ℤ)} {sc : ℤ} (hp : 0 < sc)
    (h : ∀ i, seq ≤ i → i < seq+sc → ∃ x, load i = .ok x) :
    ∃ seqs updateSeq, getSeqs maxSize load seq sc = .ok (seqs,updateSeq) ∧ seq ≤ updateSeq := by
  obtain ⟨n,rfl⟩ : ∃ n : ℕ, sc = n+1 := ⟨(sc-1).toNat,by omega⟩
  obtain ⟨⟨x,size⟩,hx⟩ := h seq le_rfl (by omega)
  obtain ⟨seqs,hs⟩ : ∃ seqs, seqsFrom maxSize load n (seq+1) size = .ok seqs :=
    seqsFrom_ok size fun i hl hlt => h i (by omega) (by omega)
  refine ⟨x :: seqs,seq+(x :: seqs).length-1,?_,by simp⟩
  have ht : seqsFrom maxSize load (n+1) seq 0 = .ok (x :: seqs) := by simp [seqsFrom,hx,hs]
  rw [getSeqs,show ((n : ℤ)+1).toNat = n+1 by omega,ht]
  rfl

lemma txReceiptsFrom_ok (ts : ℤ)
    (h : ∀ i, seq ≤ i → i < seq+n → ∃ blk, perBlk su contract i = .ok blk) :
    ∃ r, txReceiptsFrom su maxSize contract n seq ts = .ok r := by
  induction n generalizing seq ts with
  | zero => exact ⟨_,rfl⟩
  | succ n ih =>
    obtain ⟨blk,hb⟩ := h seq le_rfl (by omega)
    have hre := fun t => ih t fun i (hl : seq+1 ≤ i) hlt => h i (by omega) (by omega)
    obtain ⟨r,hr⟩ := hre (ts+su.size blk)
    obtain ⟨r',hr'⟩ := hre ts
    rw [txReceiptsFrom,hb,ok_bind]
    dsimp only
    split_ifs
    · exact ⟨_,by rw [hr,ok_bind]; rfl⟩
    · exact ⟨_,rfl⟩
    · exact ⟨_,by rw [hr',ok_bind]; rfl⟩

/-- Blocks and headers always advance; receipts do unless the first block alone is too large. -/
theorem getters_advance (su : Setup) (maxSize : ℤ) (contract : Bytes → Bool) {seq0 seqCount : ℤ} (hp : 0 < seqCount) :
    ((∀ i, seq0 ≤ i → i < seq0+seqCount → ∃ x, getBlockDataBySeq su i = .ok x) →
      ∃ seqs updateSeq, getBlockSeqs su maxSize seq0 seqCount = .ok (seqs,updateSeq) ∧ seq0 ≤ updateSeq) ∧
    ((∀ i, seq0 ≤ i → i < seq0+seqCount → ∃ x, getHeaderDataBySeq su i = .ok x) →
      ∃ seqs updateSeq, getHeaderSeqs su maxSize seq0 seqCount = .ok (seqs,updateSeq) ∧ seq0 ≤ updateSeq) ∧
    ((∀ i, seq0 ≤ i → i < seq0+seqCount → ∃ blk, perBlk su contract i = .ok blk) →
      ∃ receipts updateSeq, getTxReceipts su maxSize contract seq0 seqCount = .ok (receipts,updateSeq) ∧
        (seq0 ≤ updateSeq ↔ ∀ blk, perBlk su contract seq0 = .ok blk → su.size blk ≤ maxSize)) := by
  refine ⟨getSeqs_advances hp,getSeqs_advances hp,fun h => ?_⟩
  obtain ⟨n,rfl⟩ : ∃ n : ℕ, seqCount = n+1 := ⟨(seqCount-1).toNat,by omega⟩
  obtain ⟨blk,hb⟩ := h seq0 le_rfl (by omega)
  obtain ⟨r,hr⟩ : ∃ r, txReceiptsFrom su maxSize contract (n+1) seq0 0 = .ok r :=
    txReceiptsFrom_ok 0 fun i hl hlt => h i hl (by simpa using hlt)
  refine ⟨r.1,seq0+r.2-1,?_,?_⟩
  · rw [getTxReceipts,show ((n : ℤ)+1).toNat = n+1 by omega,hr]
    rfl
  · have ha : 0 < r.2 ↔ su.size blk ≤ maxSize := by
      rw [txReceiptsFrom,hb,ok_bind] at hr
      dsimp only at hr
      rw [zero_add] at hr
      split_ifs at hr with hf ho
      · obtain ⟨r',-,hr⟩ := bind_eq_ok.mp hr
        cases hr
        simp [hf.2.le]
      · cases hr
        simp [ho]
      · obtain ⟨r',-,hr⟩ := bind_eq_ok.mp hr
        cases hr
        simp [not_lt.mp ho]
    simp only [hb,Except.ok.injEq,forall_eq',← ha]
    omega

end

def oneSetup (size : ℤ) : Setup where
  getBlockSequence _ := .ok ⟨[],.addBlock⟩
  loadBlockBySequence i := .ok (⟨⟨0,[],[],[],i,0,0,[],0,none,[⟨[],[],none,0,0,0,[],0,[],[]⟩]⟩,[⟨2,[]⟩],[],[]⟩,1)
  getBlockHeaderByHash _ := .ok (⟨0,[],[],[],0,0,0,0⟩,1)
  hash _ := []
  size _ := size

/-- Two pushes of two blocks and one. -/
theorem pushes_exact_three : ∃ received, pushes (oneSetup 5) 20 (fun _ => true) [2,1] 0 = .ok (received,2) ∧
    (0 : ℤ) ≤ 2+1 ∧ ∃ parts : List (List PerBlk), parts.length = 2 ∧
      PartsOf (oneSetup 5) 20 (fun _ => true) [2,1] 0 parts ∧ blocks (oneSetup 5) (fun _ => true) 3 0 = .ok parts.flatten ∧
      (received = parts ↔ ∀ part ∈ parts, NoExactFit (oneSetup 5) 20 0 part) :=
  ⟨_,rfl,@pushes_exact_iff (oneSetup 5) 20 (fun _ => true) [2,1] 0 2 _ rfl⟩

/-- A block of exactly the maximum size is passed over and never pushed. -/
theorem getTxReceipts_drops : getTxReceipts (oneSetup 1048576) 1048576 (fun _ => true) 0 1 = .ok ([],0) ∧
      ∃ blk, blocks (oneSetup 1048576) (fun _ => true) 1 0 = .ok [blk] :=
  ⟨rfl,_,rfl⟩

theorem getters_advance_small : ∃ receipts updateSeq,
    getTxReceipts (oneSetup 5) 20 (fun _ => true) 3 2 = .ok (receipts,updateSeq) ∧
      (3 ≤ updateSeq ↔ ∀ blk, perBlk (oneSetup 5) (fun _ => true) 3 = .ok blk → (oneSetup 5).size blk ≤ 20) :=
  (getters_advance (oneSetup 5) 20 (fun _ => true) (by decide : (0 : ℤ) < 2)).2.2 fun i _ _ => ⟨_,rfl⟩

/-- A larger one is never passed: every push is empty and ends before it. -/
theorem getTxReceipts_stuck : ∃ blk, perBlk (oneSetup 1048577) (fun _ => true) 7 = .ok blk ∧
    getTxReceipts (oneSetup 1048577) 1048576 (fun _ => true) 7 100 = .ok ([],6) :=
  ⟨_,rfl,rfl⟩

end Dpos.Push
