import Dpos.TxCache

/-! Runs of a node that connects and disconnects blocks and is started anew, and what its
transaction cache holds of the main chain along them. -/
namespace Dpos.TxCache

open List

variable {height : ℤ}

namespace Cache

/-- The cache holds just these entries, the newest first. -/
structure Holds (c : Cache) (entries : List (ℤ × List Bytes)) : Prop where
  data : c.data = entries.reverse
  cacheTxs : ∀ h, h ∈ c.cacheTxs ↔ ∃ entry ∈ entries, h ∈ entry.2

/-- Each of the entries stays apart from those in the window that follow it. -/
def Spread (window : ℕ) : List (ℤ × List Bytes) → Prop
  | [] => True
  | entry :: rest => (∀ old ∈ rest.take window, entry.2.Disjoint old.2) ∧ Spread window rest

variable {window : ℕ}

lemma Spread.take : ∀ {entries : List (ℤ × List Bytes)},
    Spread window entries → ∀ n, Spread window (entries.take n)
  | [], _, n => by simp [Spread]
  | entry :: rest, h, 0 => by simp [Spread]
  | entry :: rest, h, n+1 => by
    refine ⟨fun old hold => h.1 old ?_,h.2.take n⟩
    rw [take_take] at hold
    exact take_subset_take_left _ (min_le_left _ _) hold

/-- The last entry stays apart from all the others if these fit into the window. -/
theorem Spread.last {o : ℤ × List Bytes} {i : List (ℤ × List Bytes)}
    (h : Spread window (i ++ [o])) (hf : i.length ≤ window) :
    ∀ old ∈ i, old.2.Disjoint o.2 := by
  induction i with
  | nil => simp
  | cons entry rest ih =>
    rw [length_cons] at hf
    intro old hold
    rcases mem_cons.mp hold with rfl | hold
    · exact h.1 o (by rw [take_of_length_le (by simpa using hf)]; simp)
    · exact ih h.2 (by omega) old hold

lemma holds_new (ca : ℕ) : Holds ⟨ca,[],[]⟩ [] := ⟨rfl,by simp⟩

@[simp] lemma capacity_del (c : Cache) (height : ℤ) : (c.del height).capacity = c.capacity := by
  unfold del
  split <;> rfl

@[simp] lemma capacity_removeOldest (c : Cache) : c.removeOldest.capacity = c.capacity := by
  unfold removeOldest
  split_ifs
  · split <;> rfl
  · rfl

@[simp] lemma capacity_add (c : Cache) (height : ℤ) (ths : List Bytes) :
    (c.add height ths).capacity = c.capacity := by
  simp [add]

namespace Holds
variable {c : Cache} {entries : List (ℤ × List Bytes)}

lemma del_of_fresh (h : Holds c entries) (hfr : ∀ entry ∈ entries, entry.1 ≠ height) : c.del height = c := by
  have hn : c.data.find? (·.1 = height) = none := by
    rw [List.find?_eq_none,h.data]
    intro entry hm
    simpa using hfr entry (mem_reverse.mp hm)
  rw [Cache.del,hn]

variable {entry : ℤ × List Bytes}

/-- What is removed from the cache is what only the removed entry names. -/
theorem forget {rest : List (ℤ × List Bytes)}
    (h : ∀ hash, hash ∈ c.cacheTxs ↔ hash ∈ entry.2 ∨ ∃ old ∈ rest, hash ∈ old.2)
    (hd : ∀ old ∈ rest, entry.2.Disjoint old.2) (hash : Bytes) :
    hash ∈ (c.forget entry.2).cacheTxs ↔ ∃ old ∈ rest, hash ∈ old.2 := by
  simp only [Cache.forget,mem_filter,decide_eq_true_eq,h hash]
  constructor
  · rintro ⟨hin | hin,ho⟩
    · exact absurd hin ho
    · exact hin
  · rintro ⟨old,hold,hm⟩
    exact ⟨.inr ⟨old,hold,hm⟩,fun hin => hd old hold hin hm⟩

lemma del (h : Holds c (entry :: entries))
    (hfr : ∀ old ∈ entries, old.1 ≠ entry.1) (hd : ∀ old ∈ entries, entry.2.Disjoint old.2) :
    Holds (c.del entry.1) entries := by
  have hold : ∀ old ∈ entries.reverse, old.1 ≠ entry.1 := fun old hm => hfr old (mem_reverse.mp hm)
  have hfi : c.data.find? (·.1 = entry.1) = some entry := by
    have hn : entries.reverse.find? (fun old => decide (old.1 = entry.1)) = none := by
      rw [List.find?_eq_none]
      intro old hm
      simpa using hold old hm
    rw [h.data,reverse_cons,List.find?_append,hn]
    simp
  have hk : c.data.filter (·.1 ≠ entry.1) = entries.reverse := by
    rw [h.data,reverse_cons,filter_append,filter_eq_self.mpr]
    · simp
    · intro old hm
      simpa using hold old hm
  rw [Cache.del,hfi]
  constructor
  · exact hk
  · apply forget
    · intro hash
      rw [h.cacheTxs]
      simp
    · exact hd

section
variable (h : Holds c entries) (hc : c.capacity = window+1) (hf : entries.length ≤ window+1) (hs : Spread window entries)
include h hc hf hs

lemma removeOldest :
    Holds c.removeOldest (entries.take window) := by
  have hl : c.data.length = entries.length := by rw [h.data,length_reverse]
  rw [Cache.removeOldest,hc,hl]
  by_cases hfu : window+1 ≤ entries.length
  · rw [if_pos hfu]
    obtain ⟨i,o,rfl⟩ : ∃ i o, entries = i ++ [o] := by
      rcases eq_nil_or_concat entries with rfl | ⟨i,o,rfl⟩
      · simp at hfu
      · exact ⟨i,o,concat_eq_append⟩
    have hii : i.length = window := by
      rw [length_append,length_singleton] at hfu hf
      omega
    have hd : c.data = o :: i.reverse := by rw [h.data]; simp
    rw [hd,take_append_of_le_length hii.ge,take_of_length_le hii.le]
    constructor
    · rfl
    · apply forget
      · intro hash
        rw [h.cacheTxs]
        simp [or_comm,or_and_right,exists_or]
      · exact fun old hold => (hs.last hii.le old hold).symm
  · rw [if_neg hfu,take_of_length_le (by omega)]
    exact h

lemma add (hfr : ∀ entry ∈ entries, entry.1 ≠ height)
    (ths : List Bytes) :
    Holds (c.add height ths) ((height,ths) :: entries.take window) := by
  have hold := h.removeOldest hc hf hs
  rw [Cache.add,h.del_of_fresh hfr]
  constructor
  · simp [hold.data]
  · intro hash
    simp [hold.cacheTxs hash]

end

end Holds
end Cache

section Node
variable (c : Crypto) (ncpu : ℕ) (su : Setup)

/-- The main chain, tip first, and the transaction cache. -/
structure Node where
  blocks : List Block
  cache : Cache

def entry (block : Block) : ℤ × List Bytes := (block.height,block.txs.map (Transaction.hash c))

def newTxCache : Cache := ⟨su.highAllowPackHeight+su.lowAllowPackHeight+1,[],[]⟩

def addBlock (cache : Cache) (block : Block) : Cache := cache.add (entry c block).1 (entry c block).2

/-- `InitCache`: the blocks are read again from the store, the oldest first. -/
def initCache (blocks : List Block) : Cache :=
  (blocks.take (su.defCacheSize+1)).reverse.foldl (addBlock c) (newTxCache su)

/-- What a call of `connectBlock` meets. The executor fails expired transactions. -/
structure Attempt where
  block : Block
  errReturn : Bool
  sync : Bool
  mem : Mempool c
  stored : Bytes → Except String Bool
  services : Services
  failsExpired : ∀ list receipts, services.execTxList list = .ok receipts →
    0 < list.height → 0 < list.blockTime → ∀ result ∈ receipts.zip list.txs,
      isExpire su result.2 list.height list.blockTime = true → result.1.ty = execErr

/-- The duplicate check asks the chain itself. -/
def Attempt.asking (a : Attempt c su) (cache : Cache) : Services :=
  {a.services with
    txHashList := fun hashes expire count =>
      match getDuplicateTxHashList su cache a.stored hashes (some expire) count with
      | some dupTxs => .ok dupTxs
      | none => .error (.service "ErrInvalidParam")}

inductive Op
  | connect (a : Attempt c su)
  | disconnect
  | restart

def Follows (blocks : List Block) (block : Block) : Prop :=
  block.height = blocks.length ∧
    ∀ tip ∈ blocks.head?, block.parentHash = tip.hash c su.toConfig

instance (blocks : List Block) (block : Block) : Decidable (Follows c su blocks block) :=
  inferInstanceAs (Decidable (_ ∧ ∀ _ ∈ blocks.head?, _))

/-- `connectBlock`: a block that is refused leaves everything as it was. -/
def connect (node : Node) (a : Attempt c su) : Node :=
  if Follows c su node.blocks a.block then
    let prevStateHash := (node.blocks.head?.map (·.stateHash)).getD []
    match preExecBlock c ncpu su.toConfig a.mem (a.asking c su node.cache) prevStateHash a.block
      a.errReturn a.sync true with
    | .ok (detail,_) => ⟨detail.block :: node.blocks,addBlock c node.cache detail.block⟩
    | .error _ => node
  else node

def disconnect (node : Node) : Node :=
  match node.blocks with
  | [] => node
  | tip :: rest => ⟨rest,node.cache.del tip.height⟩

def restart (node : Node) : Node :=
  ⟨node.blocks,if su.enableTxHeight then initCache c su node.blocks else newTxCache su⟩

def step (node : Node) : Op c su → Node
  | .connect a => connect c ncpu su node a
  | .disconnect => disconnect node
  | .restart => restart c su node

def run (ops : List (Op c su)) : Node := ops.foldl (step c ncpu su) ⟨[],newTxCache su⟩

/-- The blocks in which a transaction that is not expired yet may stand. -/
def window : ℕ := su.highAllowPackHeight+su.lowAllowPackHeight

def nextHeight (node : Node) : ℤ := node.blocks.length

/-- The cache knows the transactions with a height in the last blocks, and so each one of the main
chain that was packed in time and is still in time. -/
structure Guarded (node : Node) : Prop where
  cached : ∀ block ∈ node.blocks.take (window su), ∀ tx ∈ block.txs,
    0 < getTxHeight su tx.expire (nextHeight node) → node.cache.hasCacheTx (tx.hash c) = true
  known : ∀ block ∈ node.blocks, 0 < block.height → 0 < block.blockTime → ∀ tx ∈ block.txs,
    0 < getTxHeight su tx.expire block.height →
    ∀ blocktime, isExpire su tx (nextHeight node) blocktime = false →
    ∀ stored, hasTx node.cache stored (tx.hash c) true = .ok true

/-- The condition on a step: no block leaves the chain unless the cache is full or holds
the whole chain, and a start reads enough blocks again. -/
def Permits (node : Node) : Op c su → Prop
  | .connect _ => True
  | .disconnect => su.enableTxHeight = true →
      node.cache.data.length = node.cache.capacity ∨ node.cache.data.length = node.blocks.length
  | .restart => su.enableTxHeight = true → min (window su) node.blocks.length ≤ su.defCacheSize+1

def Meets : Node → List (Op c su) → Prop
  | _, [] => True
  | node, op :: ops => Permits c su node op ∧ Meets (step c ncpu su node op) ops

/-- The heights count up from 0. -/
def Numbered : List Block → Prop
  | [] => True
  | block :: rest => block.height = rest.length ∧ Numbered rest

structure Invariant (node : Node) : Prop where
  numbered : Numbered node.blocks
  inTime : ∀ block ∈ node.blocks, 0 < block.height → 0 < block.blockTime → ∀ tx ∈ block.txs,
    isExpire su tx block.height block.blockTime = false
  capacity : node.cache.capacity = window su+1
  spread : Cache.Spread (window su) (node.blocks.map (entry c))
  holds : ∃ n ≤ window su+1, min (window su) node.blocks.length ≤ n ∧
    node.cache.Holds ((node.blocks.map (entry c)).take n)

end Node

section Run
variable {c : Crypto} {ncpu : ℕ} {su : Setup}

variable {blocks rest : List Block} {n : ℕ} {block tip : Block} {cache : Cache} {cfg : Config}
variable {services : Services} {prevStateRoot : Bytes} {errReturn : Bool} {ops : List (Op c su)}

lemma Numbered.lt (h : Numbered blocks) : ∀ block ∈ blocks, block.height < blocks.length := by
  induction blocks with
  | nil => simp
  | cons tip rest ih =>
    intro block hm
    rw [length_cons]
    rcases mem_cons.mp hm with rfl | hm
    · have := h.1
      omega
    · have := ih h.2 block hm
      omega

lemma Numbered.mem_take (h : Numbered blocks)
    (hm : block ∈ blocks) (hl : (blocks.length : ℤ) ≤ block.height+n) :
    block ∈ blocks.take n := by
  induction blocks generalizing n with
  | nil => simp at hm
  | cons tip rest ih =>
    rw [length_cons] at hl
    obtain ⟨n,rfl⟩ : ∃ k, n = k+1 := by
      have hlt := h.lt block hm
      rw [length_cons] at hlt
      exact ⟨n-1,by omega⟩
    rw [take_succ_cons]
    rcases mem_cons.mp hm with rfl | hm
    · exact mem_cons_self
    · exact mem_cons_of_mem _ (ih h.2 hm (by omega))

lemma Numbered.fresh (h : Numbered (tip :: rest)) (n : ℕ) :
    ∀ old ∈ (rest.map (entry c)).take n, old.1 ≠ tip.height := by
  intro old hold
  obtain ⟨block,hm,rfl⟩ := mem_map.mp (mem_of_mem_take hold)
  have := h.2.lt block hm
  have := h.1
  simp only [entry]
  omega

lemma holds_addBlock (hnu : Numbered (tip :: rest)) (hc : cache.capacity = window su+1)
    (hn : n ≤ window su+1) (hs : Cache.Spread (window su) (rest.map (entry c)))
    (h : cache.Holds ((rest.map (entry c)).take n)) :
    (addBlock c cache tip).Holds
      (((tip :: rest).map (entry c)).take (min (n+1) (window su+1))) := by
  have hf : ((rest.map (entry c)).take n).length ≤ window su+1 := by
    rw [length_take]
    omega
  have ha := h.add hc hf (hs.take n) (hnu.fresh n) (entry c tip).2
  rw [take_take] at ha
  have hm : min (n+1) (window su+1) = min (window su) n+1 := by omega
  rw [hm,map_cons,take_succ_cons]
  exact ha

lemma holds_foldl (hn : Numbered blocks) (hs : Cache.Spread (window su) (blocks.map (entry c))) (k : ℕ) :
    ((blocks.take k).reverse.foldl (addBlock c) (newTxCache su)).capacity = window su+1 ∧
    ((blocks.take k).reverse.foldl (addBlock c) (newTxCache su)).Holds
      ((blocks.map (entry c)).take (min k (window su+1))) := by
  induction blocks generalizing k with
  | nil =>
    simp only [take_nil,reverse_nil,foldl_nil,map_nil]
    exact ⟨rfl,Cache.holds_new _⟩
  | cons tip rest ih =>
    cases k with
    | zero =>
      exact ⟨rfl,Cache.holds_new _⟩
    | succ k =>
      obtain ⟨hc,hh⟩ := ih hn.2 hs.2 k
      rw [take_succ_cons,reverse_cons,foldl_append,foldl_cons,foldl_nil]
      have hm : min (k+1) (window su+1) = min (min k (window su+1)+1) (window su+1) := by omega
      rw [hm]
      exact ⟨by rw [addBlock,Cache.capacity_add,hc],
        holds_addBlock hn hc (min_le_right _ _) hs.2 hh⟩

lemma dupAndExec_spec {block' : Block} {receipts : List Receipt}
    (h : dupAndExec c cfg services prevStateRoot block errReturn = .ok (block',receipts)) :
    ∃ cts, checkTxDup c cfg services block.txs block.height = .ok cts ∧
      block' = {block with txs := cts} ∧ execTx services prevStateRoot block' = .ok receipts := by
  obtain ⟨cts,hd,h⟩ := bind_eq_ok.mp h
  refine ⟨cts,hd,?_⟩
  by_cases hl : block.txs.length = cts.length
  · obtain rfl := (checkTxDup_spec hd).1.eq_of_length hl.symm
    rw [if_neg (not_not.mpr rfl)] at h
    obtain ⟨receipts',he,h⟩ := bind_eq_ok.mp h
    cases h
    exact ⟨rfl,he⟩
  · rw [if_pos hl,ite_error_eq_ok] at h
    obtain ⟨receipts',he,h⟩ := bind_eq_ok.mp h.2
    cases h
    exact ⟨rfl,he⟩

/-- The transactions that failed are dropped, the root and the state hash are filled in, and nothing
else of the block changes. -/
theorem preExecBlock_passed {mem : Mempool c} {s ch : Bool}
    {d : BlockDetail} {ds : List Transaction}
    (h : preExecBlock c ncpu cfg mem services prevStateRoot block errReturn s ch =
      .ok (d,ds)) :
    d.block.height = block.height ∧ d.block.blockTime = block.blockTime ∧
    ∃ cts rs, checkTxDup c cfg services block.txs block.height = .ok cts ∧
      execTx services prevStateRoot {block with txs := cts} = .ok rs ∧
      ∀ tx ∈ d.block.txs, ∃ re, (re,tx) ∈ rs.zip cts ∧
        re.ty ≠ execErr := by
  obtain ⟨_,-,h⟩ := bind_eq_ok.mp h
  obtain ⟨⟨block1,rs⟩,he,h⟩ := bind_eq_ok.mp h
  obtain ⟨⟨block2,rd,k,ds'⟩,hk,h⟩ := bind_eq_ok.mp h
  obtain ⟨block3,hr,h⟩ := bind_eq_ok.mp h
  obtain ⟨block4,hst,h⟩ := bind_eq_ok.mp h
  obtain ⟨_,-,hdt⟩ := bind_eq_ok.mp h
  cases hdt
  obtain ⟨cts,hd,rfl,he⟩ := dupAndExec_spec he
  obtain ⟨-,hk⟩ := ite_error_eq_ok.mp hk
  cases hk
  obtain ⟨txHash,rfl⟩ : ∃ txHash, block3 = {block with
      txs := ((rs.zip cts).filter fun r => r.1.ty ≠ execErr).map Prod.snd,
      txHash := txHash} := by
    rw [checkTxHash] at hr
    split at hr
    · cases hr
    · obtain ⟨-,hr⟩ := ite_error_eq_ok.mp hr
      exact ⟨_,(Except.ok.inj hr).symm⟩
  obtain ⟨sh,-,hst⟩ := bind_eq_ok.mp hst
  obtain ⟨-,hst⟩ := ite_error_eq_ok.mp hst
  cases hst
  refine ⟨rfl,rfl,cts,rs,hd,he,?_⟩
  intro tx ht
  obtain ⟨⟨re,tx⟩,hm,rfl⟩ := mem_map.mp ht
  obtain ⟨hz,hty⟩ := mem_filter.mp hm
  exact ⟨re,hz,by simpa using hty⟩

lemma checkTxDup_asking {a : Attempt c su} {txs cacheTxs : List Transaction}
    (h : checkTxDup c su.toConfig (a.asking c su cache) txs height = .ok cacheTxs) :
    ∀ tx ∈ cacheTxs, tx.hash c ∉ cache.cacheTxs := by
  obtain ⟨dupTxs,hd,h⟩ := bind_eq_ok.mp h
  cases h
  generalize (if su.isFork height .checkTxDup then delDupTx c txs else txs) = asked at *
  intro tx ht hcd
  obtain ⟨ha,hne⟩ := mem_filter.mp ht
  have hr : dupTxs = reported su cache a.stored
      (asked.map fun tx => (tx.hash c,tx.expire)) height := by
    simp only [Attempt.asking] at hd
    rw [reported,map_map,map_map]
    split at hd
    · rename_i found hfo
      cases hd
      exact (congrArg (Option.getD · []) hfo).symm
    · cases hd
  have hm : tx.hash c ∈ dupTxs := by
    rw [hr,mem_reported]
    refine .inl ⟨?_,decide_eq_true hcd⟩
    rw [map_map]
    exact mem_map_of_mem ha
  exact (of_decide_eq_true hne) hm

/-- A connected block brings nothing that is cached or expired. -/
theorem connect_cases (node : Node) (a : Attempt c su) : connect c ncpu su node a = node ∨
    ∃ block : Block, connect c ncpu su node a = ⟨block :: node.blocks,addBlock c node.cache block⟩ ∧
      block.height = node.blocks.length ∧
      (∀ tx ∈ block.txs, tx.hash c ∉ node.cache.cacheTxs) ∧
      (0 < block.height → 0 < block.blockTime → ∀ tx ∈ block.txs,
        isExpire su tx block.height block.blockTime = false) := by
  unfold connect
  by_cases hfo : Follows c su node.blocks a.block
  · rw [if_pos hfo]
    dsimp only
    split
    · rename_i detail deltxs he
      obtain ⟨hheight,ht,cts,rs,hd,hr,hk⟩ := preExecBlock_passed he
      refine .inr ⟨detail.block,rfl,hheight.trans hfo.1,?_,?_⟩
      · intro tx htx
        obtain ⟨r,hz,-⟩ := hk tx htx
        exact checkTxDup_asking hd tx (of_mem_zip hz).2
      · intro hp htp tx htx
        obtain ⟨r,hz,hty⟩ := hk tx htx
        rw [hheight] at hp ⊢
        rw [ht] at htp ⊢
        by_contra hep
        exact hty (a.failsExpired _ _ hr hp htp _ hz (by simpa using hep))
    · exact .inl rfl
  · exact .inl (if_neg hfo)

lemma Invariant.start : Invariant c su ⟨[],newTxCache su⟩ where
  numbered := trivial
  inTime := by simp
  capacity := rfl
  spread := trivial
  holds := ⟨0,Nat.zero_le _,by simp,Cache.holds_new _⟩

variable {node : Node}

section
variable (hi : Invariant c su node)
include hi

lemma Invariant.connect (a : Attempt c su) : Invariant c su (connect c ncpu su node a) := by
  rcases @connect_cases c ncpu su node a with hsa | ⟨block,hne,hheight,hfr,hint⟩
  · rw [hsa]
    exact hi
  rw [hne]
  obtain ⟨n,hn,hm,hh⟩ := hi.holds
  have hnu : Numbered (block :: node.blocks) := ⟨hheight,hi.numbered⟩
  -- the last blocks are all in the cache, so the new block stays apart from them
  have ha : ∀ old ∈ (node.blocks.map (entry c)).take (window su),
      (entry c block).2.Disjoint old.2 := by
    intro old hold hash hin ho
    obtain ⟨tx,ht,rfl⟩ := mem_map.mp hin
    refine hfr tx ht ((hh.cacheTxs _).mpr ⟨old,?_,ho⟩)
    rw [take_eq_take_min,length_map] at hold
    exact take_subset_take_left _ hm hold
  exact {
    numbered := hnu
    inTime := forall_mem_cons.mpr ⟨hint,hi.inTime⟩
    capacity := by rw [addBlock,Cache.capacity_add,hi.capacity]
    spread := ⟨ha,hi.spread⟩
    holds := by
      refine ⟨min (n+1) (window su+1),min_le_right _ _,?_,
        holds_addBlock hnu hi.capacity hn hi.spread hh⟩
      rw [length_cons]
      omega }

lemma Invariant.disconnect
    (hfu : node.cache.data.length = node.cache.capacity ∨ node.cache.data.length = node.blocks.length) :
    Invariant c su (disconnect node) := by
  obtain ⟨blocks,cache⟩ := node
  cases blocks with
  | nil => exact hi
  | cons tip rest =>
    obtain ⟨n,hn,hm,hh⟩ := hi.holds
    have hc := hi.capacity
    have hl : cache.data.length = min n (rest.length+1) := by
      rw [hh.data,length_reverse,length_take,length_map,length_cons]
    dsimp only at hfu hc hm
    rw [length_cons] at hfu hm
    obtain ⟨n,rfl⟩ : ∃ k, n = k+1 := ⟨n-1,by omega⟩
    rw [map_cons,take_succ_cons] at hh
    have hnu := hi.numbered
    exact {
      numbered := hnu.2
      inTime := fun b hb => hi.inTime b (mem_cons_of_mem _ hb)
      capacity := by rw [TxCache.disconnect,Cache.capacity_del,hc]
      spread := hi.spread.2
      holds := by
        refine ⟨n,by omega,?_,hh.del (hnu.fresh n) ?_⟩
        · simp only [TxCache.disconnect]
          omega
        · intro old hold
          exact hi.spread.1 old (take_subset_take_left _ (by omega) hold) }

lemma Invariant.restart (he : su.enableTxHeight = true)
    (hr : min (window su) node.blocks.length ≤ su.defCacheSize+1) :
    Invariant c su (restart c su node) := by
  have hca := holds_foldl hi.numbered hi.spread (su.defCacheSize+1)
  rw [TxCache.restart,if_pos he]
  exact {
    numbered := hi.numbered
    inTime := hi.inTime
    capacity := hca.1
    spread := hi.spread
    holds := ⟨_,min_le_right _ _,by simp only; omega,hca.2⟩ }

lemma Invariant.step (he : su.enableTxHeight = true)
    {op : Op c su} (ho : Permits c su node op) : Invariant c su (step c ncpu su node op) := by
  cases op with
  | connect a => exact hi.connect a
  | disconnect => exact hi.disconnect (ho he)
  | restart => exact hi.restart he (ho he)

lemma Invariant.foldl (he : su.enableTxHeight = true) (ho : Meets c ncpu su node ops) :
    Invariant c su (ops.foldl (TxCache.step c ncpu su) node) := by
  induction ops generalizing node with
  | nil => exact hi
  | cons op ops ih => exact ih (hi.step he ho.1) ho.2

end

lemma getTxHeight_pos {valid : ℤ} : 0 < getTxHeight su valid height ↔
      su.isPara = false ∧ isEnableFork su height = true ∧ txHeightFlag < valid := by
  unfold getTxHeight
  cases su.isPara with
  | true => simp
  | false =>
    simp only [Bool.false_eq_true,if_false,true_and]
    split_ifs with h
    · simp only [h,and_self,iff_true]
      omega
    · simp only [h,iff_false]
      omega

lemma isExpire_of_height {tx : Transaction} (h : 0 < getTxHeight su tx.expire height) (b : ℤ) :
    isExpire su tx height b = false ↔
      tx.expire-txHeightFlag-su.lowAllowPackHeight ≤ height ∧
        height ≤ tx.expire-txHeightFlag+su.highAllowPackHeight := by
  obtain ⟨hp,hfo,hfl⟩ := getTxHeight_pos.mp h
  have hb : expireBound < txHeightFlag := by decide
  have hz : 0 < expireBound := by decide
  have he : getTxHeight su tx.expire height = tx.expire-txHeightFlag := by
    rw [getTxHeight,hp,if_neg Bool.false_ne_true,if_pos ⟨hfo,hfl⟩]
  rw [isExpire,if_neg (by omega),if_neg (by omega)]
  simp only [he] at h ⊢
  rw [if_pos h]
  simp

lemma Invariant.guarded (hi : Invariant c su node) : Guarded c su node := by
  obtain ⟨n,hn,hm,hh⟩ := hi.holds
  have hcd : ∀ block ∈ node.blocks.take (window su), ∀ tx ∈ block.txs,
      node.cache.hasCacheTx (tx.hash c) = true := by
    intro block hb tx ht
    refine decide_eq_true ((hh.cacheTxs _).mpr ⟨entry c block,?_,mem_map_of_mem ht⟩)
    rw [← map_take]
    rw [take_eq_take_min] at hb
    exact mem_map_of_mem (take_subset_take_left _ hm hb)
  refine ⟨fun block hb tx ht _ => hcd block hb tx ht,?_⟩
  intro block hb hp htp tx ht hheight b he s
  have hlt := hi.numbered.lt block hb
  -- the fork that is active for the block is so for all that follow
  have hnext : 0 < getTxHeight su tx.expire (nextHeight node) := by
    obtain ⟨hpa,hfo,hfl⟩ := getTxHeight_pos.mp hheight
    refine getTxHeight_pos.mpr ⟨hpa,?_,hfl⟩
    simp only [isEnableFork,nextHeight,Bool.and_eq_true,Bool.or_eq_true,decide_eq_true_eq] at hfo ⊢
    exact ⟨hfo.1,.inr (decide_eq_true (by omega))⟩
  have hpc := (isExpire_of_height hheight _).mp (hi.inTime block hb hp htp tx ht)
  have hsi := (isExpire_of_height hnext b).mp he
  have hl : block ∈ node.blocks.take (window su) := by
    apply hi.numbered.mem_take hb
    rw [nextHeight] at hsi
    rw [window]
    omega
  rw [hasTx,if_pos (hcd block hl tx ht)]

lemma guarded_of_disabled (h : su.enableTxHeight = false) (node : Node) : Guarded c su node := by
  have hn : ∀ v height, ¬0 < getTxHeight su v height := by
    intro v height hp
    have := (getTxHeight_pos.mp hp).2.1
    simp [isEnableFork,h] at this
  exact ⟨fun _ _ _ _ hp => absurd hp (hn _ _),
    fun _ _ _ _ _ _ hp => absurd hp (hn _ _)⟩

lemma Meets.of_isPrefix {ops' : List (Op c su)} (hp : ops' <+: ops)
    (h : Meets c ncpu su node ops) : Meets c ncpu su node ops' := by
  induction ops' generalizing node ops with
  | nil => trivial
  | cons op ops' ih =>
    obtain ⟨rest,rfl⟩ := hp
    exact ⟨h.1,ih ⟨rest,rfl⟩ h.2⟩

/-- **The cache knows every transaction that could be packed again**, in each state of a
run in which no block leaves the chain unless the cache is full or holds the whole chain,
and in which every start reads enough blocks again. -/
theorem run_guarded (c : Crypto) (ncpu : ℕ) (su : Setup) (ops : List (Op c su))
    (ho : Meets c ncpu su ⟨[],newTxCache su⟩ ops) :
    ∀ ops', ops' <+: ops → Guarded c su (run c ncpu su ops') := by
  intro ops' hp
  by_cases he : su.enableTxHeight = true
  · exact (Invariant.start.foldl he (ho.of_isPrefix hp)).guarded
  · exact guarded_of_disabled (by simpa using he) _

end Run

/-- Hashes that can be read: a transaction is its payload, a block its height. -/
def readable : Crypto where
  sha256 := id
  encodeTx tx := tx.payload
  encodeHeader header := [header.height.toNat.toUInt8]
  checkSign _ _ _ := true

/-- An executor that only looks at the expiry. -/
def timekeeper : Services where
  execTxList list := .ok (list.txs.map fun tx =>
    ⟨if isExpire narrow tx list.height list.blockTime then execErr else 2,[],[]⟩)
  txHashList _ _ _ := .ok []
  storeMemSet _ _ _ _ := .ok []
  checkBlock _ := .ok ()
  one_receipt_each := by
    intro list receipts h
    rw [← Except.ok.inj h,length_map]

def mine (height : ℕ) (txs : List Transaction) : Op readable narrow :=
  .connect {
    block := ⟨0,[(height-1).toUInt8],[],[],height,1,0,[],0,none,txs⟩
    errReturn := false
    sync := false
    mem := ⟨true,[],by simp⟩
    stored := fun _ => .ok false
    services := timekeeper
    failsExpired := by
      intro list receipts h _ _ result hm hep
      cases h
      rw [← map_prod_right_eq_zip] at hm
      obtain ⟨tx,-,rfl⟩ := mem_map.mp hm
      exact if_pos hep }

def atTwo : Transaction := ⟨[],[7],none,0,txHeightFlag+2,0,[],0,[],[]⟩

def reorganised : List (Op readable narrow) :=
  [mine 0 [],mine 1 [atTwo],mine 2 [],mine 3 [],mine 4 [],.disconnect,.disconnect]

/-- The cache has forgotten the block at height 1, the second to last one. -/
theorem run_forgets : let node := run readable 1 narrow reorganised
    ∃ block ∈ node.blocks.take (window narrow), ∃ tx ∈ block.txs,
      0 < getTxHeight narrow tx.expire (nextHeight node) ∧
      isExpire narrow tx (nextHeight node) 1 = false ∧
      node.cache.hasCacheTx (tx.hash readable) = false := by
  decide +kernel

/-- One block leaves the chain while the cache is full, and the node is started anew. -/
theorem run_guarded_restart : Meets readable 1 narrow ⟨[],newTxCache narrow⟩
      [mine 0 [],mine 1 [atTwo],mine 2 [],.disconnect,.restart] ∧
    Guarded readable narrow (run readable 1 narrow
      [mine 0 [],mine 1 [atTwo],mine 2 [],.disconnect,.restart]) := by
  have hm : Meets readable 1 narrow ⟨[],newTxCache narrow⟩
      [mine 0 [],mine 1 [atTwo],mine 2 [],.disconnect,.restart] := by
    refine ⟨trivial,trivial,trivial,fun _ => .inl ?_,fun _ => ?_,trivial⟩ <;> decide +kernel
  exact ⟨hm,run_guarded _ _ _ _ hm _ (prefix_refl _)⟩

end Dpos.TxCache
