import Dpos.TxPoolCheck

/-! The mempool in a reorganisation. The blockchain sends a connected block on the high
channel of the queue and a disconnected one on the low channel; the subscriber moves the
notes of both into the channel that the mempool reads. -/
namespace Dpos.TxPool

open List Option AccountTxIndex

variable {ca : Cache} {env : ReorgEnv}

/-- `Env` with the encoding of groups and the test for the action of a miner. -/
structure ReorgEnv extends Env where
  encode : List Transaction → Bytes
  isMiner : Transaction → Bool

section
variable (env : ReorgEnv)

/-- The loop of `delBlock`: groups are packed, and the members behind the first one skipped. -/
def unitsFrom : ℕ → List Transaction → List Transaction
  | _,[] => []
  | skip+1,_ :: txs => unitsFrom skip txs
  | 0,tx :: txs =>
    if 1 < tx.groupCount ∧ tx.groupCount ≤ txs.length+1 then
      ((TxGroup.tx env.encode ((tx :: txs).take tx.groupCount.toNat)).getD tx) :: unitsFrom (tx.groupCount.toNat-1) txs
    else tx :: unitsFrom 0 txs

/-- What `delBlock` puts back from a block: all but the action of the miner in front. -/
def units (block : Block) : List Transaction :=
  match block.txs with
  | [] => []
  | tx :: txs => if env.isMiner tx then unitsFrom env 0 txs else unitsFrom env 0 (tx :: txs)

def passes (header : Header) (now : ℤ) (tx : Transaction) : Bool :=
  check env.toEnv header.height tx = .ok () ∧ checkExpireValid env.toEnv header now tx

def delBlock (header : Header) (now : ℤ) (cache : Cache) (block : Block) : Cache :=
  (units env block).foldl (fun cache tx =>
    if passes env header now tx then (cache.push env.c env.pubKeyToAddr now tx).2 else cache) cache

def removeTxsOfBlock (cache : Cache) (block : Block) : Cache :=
  block.txs.foldl (fun cache tx =>
    if cache.exist (tx.hash env.c) then cache.remove env.c env.pubKeyToAddr (tx.hash env.c) else cache) cache

/-- A header goes up only. -/
def eventAddBlock (pool : Pool) (block : Block) : Pool where
  header :=
    if height pool < block.height ∨ (block.height = 0 ∧ height pool = 0) then
      some ⟨0,[],[],block.stateHash,block.height,block.blockTime,0,0⟩
    else pool.header
  cache := removeTxsOfBlock env pool.cache block

/-- A block of another height than the header is ignored. The new header is the last one of the chain. -/
def eventDelBlock (lastHeader : Header) (now : ℤ) (pool : Pool) (block : Block) : Pool :=
  if block.height ≠ (pool.header.map Header.height).getD 0 then pool
  else ⟨delBlock env lastHeader now pool.cache block,some lastHeader⟩

end

inductive Note
  | add (block : Block)
  | del (block : Block)

/-- The chain has its tip in front; `gone` are the blocks that were disconnected. `idle` says
that the subscriber found nothing in the high channel and waits for both. -/
structure Net where
  chain : List Block
  gone : List Block
  high : List Note
  low : List Note
  recv : List Note
  idle : Bool
  pool : Pool

inductive NetOp
  | connect (block : Block)
  | disconnect
  | takeHigh | look | takeLow
  | handle (now : ℤ)

section
variable (env : ReorgEnv)

def Note.handle (lastHeader : Header) (now : ℤ) (pool : Pool) : Note → Pool
  | .add block => eventAddBlock env pool block
  | .del block => eventDelBlock env lastHeader now pool block

def netStep (s : Net) : NetOp → Option Net
  | .connect block =>
    match s.chain with
    | [] => none
    | tip :: chain =>
      if block.parentHash = tip.hash env.c env.su.toConfig ∧ block.height = tip.height+1 then
        some {s with chain := block :: tip :: chain, high := s.high ++ [.add block]}
      else none
  | .disconnect =>
    match s.chain with
    | block :: parent :: chain =>
      some {s with chain := parent :: chain, gone := block :: s.gone, low := s.low ++ [.del block]}
    | _ => none
  | .takeHigh =>
    match s.high with
    | [] => none
    | note :: high => some {s with high := high, recv := s.recv ++ [note], idle := false}
  | .look => if s.high.isEmpty && !s.idle then some {s with idle := true} else none
  | .takeLow =>
    match s.low with
    | [] => none
    | note :: low => if s.idle then some {s with low := low, recv := s.recv ++ [note], idle := false} else none
  | .handle now =>
    match s.recv,s.chain with
    | note :: recv,tip :: _ => some {s with recv := recv, pool := note.handle env tip.getHeaderHashNew now s.pool}
    | _,_ => none

def netRun (s : Net) (ops : List NetOp) : Option Net := ops.foldlM (netStep env) s

def Net.Quiet (s : Net) : Prop := s.high = [] ∧ s.low = [] ∧ s.recv = []

/-- No deleted block is on its way. -/
def Net.Adding (s : Net) : Prop := ∀ note ∈ s.recv ++ s.high ++ s.low, ∃ block, note = .add block

def onChain (chain : List Block) (hash : Bytes) : Prop :=
  ∃ block ∈ chain, ∃ tx ∈ block.txs, tx.hash env.c = hash

/-- A header that the mempool has for a block. -/
def Heads (pool : Pool) (block : Block) : Prop :=
  ∃ header, pool.header = some header ∧ header.height = block.height ∧ header.blockTime = block.blockTime ∧
    header.stateHash = block.stateHash

/-- The header is the tip, and what was disconnected, is not on the chain and passes the checks is held. -/
def Settled (s : Net) : Prop :=
  ∃ tip chain, s.chain = tip :: chain ∧ Heads s.pool tip ∧
    ∀ block ∈ s.gone, ∀ tx ∈ units env block, ¬onChain env s.chain (tx.hash env.c) →
      ∀ now, passes env tip.getHeaderHashNew now tx = true → s.pool.cache.exist (tx.hash env.c) = true

/-- There is room for the transactions, in the pool and in the lists of their senders. -/
def Room (cache : Cache) (txs : List Transaction) : Prop :=
  (cache.qcache.txList.size : ℤ)+txs.length ≤ cache.qcache.poolCacheSize ∧
    ∀ addr, (cache.index.txNumOfAccount addr : ℤ)+(txs.filter fun tx => fromAddr env.pubKeyToAddr tx = addr).length ≤
      cache.index.maxperaccount

/-- No block is added while a deleted one is on its way, and none is deleted before all notifications are
processed. When a block is put back, all that it puts back passes the checks and finds room, and it has no transaction of
an earlier block that it does not put back. -/
def StepCalm (s : Net) : NetOp → Prop
  | .connect _ => s.Adding
  | .disconnect => s.Quiet
  | .handle now =>
    match s.recv,s.chain with
    | .del block :: _,tip :: _ =>
      (∀ tx ∈ units env block, passes env tip.getHeaderHashNew now tx = true) ∧ Room env s.pool.cache (units env block) ∧
        ∀ earlier ∈ s.gone, ∀ tx ∈ units env earlier, ∀ tx' ∈ block.txs, tx'.hash env.c = tx.hash env.c →
          ∃ unit ∈ units env block, unit.hash env.c = tx.hash env.c
    | _,_ => True
  | _ => True

def RunCalm (s : Net) : List NetOp → Prop
  | [] => True
  | op :: ops => StepCalm env s op ∧ ∀ s', netStep env s op = some s' → RunCalm s' ops

end

variable {key : Bytes} {block : Block}

namespace Cache
variable {c : Crypto} {pkta : Bytes → Bytes}

namespace Inv
variable (h : ca.Inv c pkta)
include h

lemma exist_iff : ca.exist key = true ↔ ∃ tx ∈ ca.held, tx.hash c = key := by
  rw [exist,SimpleQueue.exist,h.queue.exist_iff,isSome_iff_exists]
  constructor
  · rintro ⟨i,hg⟩
    have ha : ca.txAt key = some i.value := by rw [txAt,SimpleQueue.getItem,hg]; rfl
    have hk := h.keyed key i.value ha
    exact ⟨i.value,h.mem_held.mpr (hk.symm ▸ ha),hk⟩
  · rintro ⟨tx,hh,rfl⟩
    obtain ⟨i,hg,-⟩ := map_eq_some_iff.mp (h.mem_held.mp hh)
    exact ⟨i,hg⟩

lemma size_eq_length : ca.qcache.txList.size = ca.held.length := by rw [h.queue.size_eq,held,length_map]

lemma txNumOfAccount_eq (a : Bytes) :
    ca.index.txNumOfAccount a = (ca.held.filter fun tx => fromAddr pkta tx = a).length := by
  rw [← (h.getAccTxs_perm a).length_eq]
  unfold txNumOfAccount getAccTxs
  cases ha : ca.index.accMap a with
  | none => rfl
  | some lm => exact (h.index a lm ha).1.size_eq

lemma held_push (now : ℤ) (tx : Transaction) :
    (ca.push c pkta now tx).2 = ca ∨ (ca.push c pkta now tx).2.held = ca.held ++ [tx] := by
  rcases h.push_cases now tx with he | ⟨hn,-,i',-,he⟩
  · exact .inl he
  · refine .inr ?_
    rw [he]
    simp [held,h.queue.values_push (map_eq_none_iff.mp hn)]

lemma exist_push (hk : ca.exist key = true) (now : ℤ) (tx : Transaction) :
    (ca.push c pkta now tx).2.exist key = true := by
  rcases h.held_push now tx with he | hh
  · rwa [he]
  · obtain ⟨t,ht,hha⟩ := h.exist_iff.mp hk
    exact (h.push now tx).exist_iff.mpr ⟨t,hh ▸ mem_append_left _ ht,hha⟩

lemma exist_push_self (now : ℤ) {tx : Transaction} (hs : (ca.qcache.txList.size : ℤ) < ca.qcache.poolCacheSize)
    (ha : (ca.index.txNumOfAccount (fromAddr pkta tx) : ℤ) < ca.index.maxperaccount) :
    (ca.push c pkta now tx).2.exist (tx.hash c) = true := by
  by_cases he : ca.exist (tx.hash c) = true
  · exact h.exist_push he now tx
  · have hc : ca.index.canPush pkta tx = true := by
      unfold canPush
      unfold txNumOfAccount at ha
      cases hl : ca.index.accMap (fromAddr pkta tx) with
      | none => rfl
      | some lm =>
        rw [hl] at ha
        simpa using ha
    have hn : ca.txAt (tx.hash c) = none := by
      simpa [txAt,exist,SimpleQueue.exist,SimpleQueue.getItem,h.queue.exist_iff] using he
    obtain ⟨i',hp,-⟩ := push_spec h.index h.account hc (h.item_eq_none hn _)
    have hq : ca.qcache.push c ⟨tx,tx.fee,now⟩ = .ok ⟨ca.qcache.txList.push (tx.hash c) ⟨tx,tx.fee,now⟩,
        ca.qcache.poolCacheSize,Word.wrap 64 (ca.qcache.cacheBytes+tx.size)⟩ := by
      exact (if_neg he).trans (if_neg (not_le.mpr hs))
    refine (h.push now tx).exist_iff.mpr ⟨tx,?_,rfl⟩
    have heq : (ca.push c pkta now tx).2.qcache.txList = ca.qcache.txList.push (tx.hash c) ⟨tx,tx.fee,now⟩ := by
      unfold Cache.push
      simp only [if_pos hc,hq,hp]
    rw [held,heq,h.queue.values_push (map_eq_none_iff.mp hn)]
    simp

lemma exist_remove {hash : Bytes} (hk : ca.exist key = true) (hne : key ≠ hash) :
    (ca.remove c pkta hash).exist key = true := by
  obtain ⟨tx,hh,rfl⟩ := h.exist_iff.mp hk
  exact (h.remove hash).exist_iff.mpr ⟨tx,(h.mem_held_remove hash tx).mpr ⟨hh,hne⟩,rfl⟩

end Inv

end Cache

section
section
variable (h : ca.Inv env.c env.pubKeyToAddr)
include h

lemma Room.push {tx : Transaction} {txs : List Transaction}
    (hr : Room env ca (tx :: txs)) (now : ℤ) : Room env (ca.push env.c env.pubKeyToAddr now tx).2 txs := by
  have hi := h.push now tx
  have hl := Cache.limits_push env.c env.pubKeyToAddr ca now tx
  simp only [Cache.limits,Prod.mk.injEq] at hl
  obtain ⟨hm,-,-,hc⟩ := hl
  unfold Room at hr ⊢
  rw [hm,hc,hi.size_eq_length]
  rw [h.size_eq_length] at hr
  simp only [hi.txNumOfAccount_eq]
  simp only [h.txNumOfAccount_eq,length_cons] at hr
  obtain ⟨hs,ha⟩ := hr
  rcases h.held_push now tx with he | hh
  · rw [he]
    refine ⟨by push_cast at hs; omega,fun a => (ha a).trans' ?_⟩
    have hle : (txs.filter fun tx => fromAddr env.pubKeyToAddr tx = a).length ≤
        ((tx :: txs).filter fun tx => fromAddr env.pubKeyToAddr tx = a).length :=
      ((sublist_cons_self tx txs).filter _).length_le
    omega
  · rw [hh]
    refine ⟨by push_cast at hs ⊢; simp; omega,fun a => (ha a).trans' ?_⟩
    rw [filter_append,length_append,filter_cons (x:=tx)]
    by_cases had : fromAddr env.pubKeyToAddr tx = a
    · simp [had]
      omega
    · simp [had]

lemma inv_delBlock (header : Header) (now : ℤ) (block : Block) :
    (delBlock env header now ca block).Inv env.c env.pubKeyToAddr := by
  refine foldlRecOn (units env block) _ h fun _ h tx _ => ?_
  split_ifs
  · exact h.push now tx
  · exact h

lemma exist_delBlock {header : Header} {now : ℤ}
    (hp : ∀ tx ∈ units env block, passes env header now tx = true) (hr : Room env ca (units env block))
    (hk : ca.exist key = true ∨ ∃ tx ∈ units env block, tx.hash env.c = key) :
    (delBlock env header now ca block).exist key = true := by
  unfold delBlock
  generalize units env block = txs at hp hr hk
  induction txs generalizing ca with
  | nil => simpa using hk
  | cons tx txs ih =>
    rw [foldl_cons,if_pos (hp tx mem_cons_self)]
    refine ih (h.push now tx) (fun t ht => hp t (mem_cons_of_mem _ ht)) (hr.push h now) ?_
    rcases hk with hk | ⟨t,ht,rfl⟩
    · exact .inl (h.exist_push hk now tx)
    · rcases mem_cons.mp ht with rfl | ht
      · refine .inl (h.exist_push_self now ?_ ?_)
        · have := hr.1
          simp only [length_cons] at this
          omega
        · have := hr.2 (fromAddr env.pubKeyToAddr t)
          rw [filter_cons_of_pos (by simp),length_cons] at this
          omega
      · exact .inr ⟨t,ht,rfl⟩

lemma inv_removeTxsOfBlock (block : Block) : (removeTxsOfBlock env ca block).Inv env.c env.pubKeyToAddr := by
  refine foldlRecOn block.txs _ h fun _ h tx _ => ?_
  split_ifs
  · exact h.remove _
  · exact h

lemma exist_removeTxsOfBlock (hk : ca.exist key = true) (hne : ∀ tx ∈ block.txs, tx.hash env.c ≠ key) :
    (removeTxsOfBlock env ca block).exist key = true := by
  refine (foldlRecOn (motive := fun ca : Cache => ca.Inv env.c env.pubKeyToAddr ∧ ca.exist key = true) block.txs _ ⟨h,hk⟩
    fun ca hi tx ht => ?_).2
  obtain ⟨h,hk⟩ := hi
  split_ifs
  · exact ⟨h.remove _,h.exist_remove hk (hne tx ht).symm⟩
  · exact ⟨h,hk⟩

end

lemma heads_eventAddBlock {p : Pool} {tip : Block} (h : Heads p tip)
    (hheight : block.height = tip.height+1) : Heads (eventAddBlock env p block) block := by
  obtain ⟨header,hhe,hh,-⟩ := h
  have hlt : height p < block.height := by
    simp only [height,hhe,map_some,getD_some]
    omega
  exact ⟨_,if_pos (.inl hlt),rfl,rfl,rfl⟩

lemma eventDelBlock_eq {p : Pool} (h : Heads p block) (lh : Header) (now : ℤ) :
    eventDelBlock env lh now p block = ⟨delBlock env lh now p.cache block,some lh⟩ := by
  obtain ⟨header,hhe,hh,-⟩ := h
  refine if_neg ?_
  rw [hhe,map_some,getD_some,hh]
  exact not_not.mpr rfl

end

/-! ### Runs -/

section
/-- What is not on a chain is held. -/
def Covered (env : ReorgEnv) (chain gone : List Block) (cache : Cache) : Prop :=
  ∀ block ∈ gone, ∀ tx ∈ units env block, ¬onChain env chain (tx.hash env.c) → cache.exist (tx.hash env.c) = true

/-- Added blocks are on their way, or one deleted block, and the pool is up to date but for them. -/
inductive Calm (env : ReorgEnv) (s : Net) : Prop
  | adds (pend : List Block) (tip : Block) (chain : List Block) (hchain : s.chain = pend.reverse ++ tip :: chain)
      (hheight : (tip :: pend).IsChain fun a b => b.height = a.height+1) (hnotes : s.recv ++ s.high = pend.map .add)
      (hlow : s.low = []) (heads : Heads s.pool tip) (covered : Covered env s.chain s.gone s.pool.cache)
  | del (block tip : Block) (chain gone : List Block) (hchain : s.chain = tip :: chain) (hgone : s.gone = block :: gone)
      (hnotes : s.recv ++ s.high ++ s.low = [.del block])
      (heads : Heads s.pool block) (covered : Covered env (block :: s.chain) gone s.pool.cache)

variable {s : Net} {chain : List Block} {s' : Net} {tip : Block} {op : NetOp} {mid : Net} {ops : List NetOp}

lemma Calm.moved (h : Calm env s) (hchain : s'.chain = s.chain) (hgone : s'.gone = s.gone) (hp : s'.pool = s.pool)
    (hnotes : s'.recv ++ s'.high = s.recv ++ s.high) (hlow : s'.low = s.low) : Calm env s' := by
  cases h with
  | adds pend tip chain hc hheight hn hl heads co =>
    exact .adds pend tip chain (hchain ▸ hc) hheight (hnotes.trans hn) (hlow.trans hl) (hp ▸ heads)
      (by rw [hchain,hgone,hp]; exact co)
  | del block tip chain g hc hg hn heads co =>
    exact .del block tip chain g (hchain ▸ hc) (hgone ▸ hg) (by rw [hnotes,hlow]; exact hn) (hp ▸ heads)
      (by rw [hchain,hp]; exact co)

lemma Calm.takeLow (h : Calm env s) {n : Note} {low : List Note} (hlow : s.low = n :: low) :
    Calm env {s with low := low, recv := s.recv ++ [n], idle := false} := by
  cases h with
  | adds _ _ _ _ _ _ hl => cases hlow.symm.trans hl
  | del block tip chain g hc hg hn heads co =>
    rw [hlow] at hn
    obtain ⟨hrh,hnt⟩ := append_eq_singleton_iff.mp hn |>.resolve_right (by simp)
    obtain ⟨hr,hh⟩ := append_eq_nil_iff.mp hrh
    obtain ⟨rfl,rfl⟩ := cons.inj hnt
    exact .del block tip chain g hc hg (by simp [hr,hh]) heads co

lemma Calm.connect (h : Calm env s) (hq : s.Adding)
    (hchain : s.chain = tip :: chain) (hheight : block.height = tip.height+1) :
    Calm env {s with chain := block :: tip :: chain, high := s.high ++ [.add block]} := by
  cases h with
  | adds pend tip' chain' hc hh hn hl heads co =>
    -- the tip is the block added last
    have hlast : (tip' :: pend).getLast? = some tip := by
      have he : (tip' :: pend).reverse ++ chain' = tip :: chain := by
        rw [reverse_cons,append_assoc,singleton_append,← hc,hchain]
      rw [← head?_reverse]
      cases hr : (tip' :: pend).reverse with
      | nil => simp at hr
      | cons b l =>
        rw [hr] at he
        exact congrArg some (cons.inj he).1
    refine .adds (pend ++ [block]) tip' chain' ?_ ?_ ?_ hl heads fun b hb tx ht hno => ?_
    · rw [reverse_append,reverse_singleton,singleton_append,cons_append,← hc,hchain]
    · rw [← cons_append,isChain_append]
      refine ⟨hh,isChain_singleton _,fun a ha b hb => ?_⟩
      obtain rfl := Option.some.inj (hlast.symm.trans ha)
      obtain rfl := Option.some.inj hb
      exact hheight
    · rw [← append_assoc,hn,map_append,map_singleton]
    · refine co b hb tx ht fun ⟨b',hb',ho⟩ => hno ⟨b',?_,ho⟩
      exact mem_cons_of_mem _ (hchain ▸ hb')
  | del b _ _ _ _ _ hn =>
    obtain ⟨_,he⟩ := hq (.del b) (hn ▸ mem_singleton_self _)
    cases he

lemma Calm.disconnect (h : Calm env s) (hq : s.Quiet) {p : Block} (hchain : s.chain = block :: p :: chain) :
    Calm env {s with chain := p :: chain, gone := block :: s.gone, low := s.low ++ [.del block]} := by
  obtain ⟨hh,hl,hr⟩ := hq
  cases h with
  | adds pend tip' chain' hc _ hn _ heads co =>
    rw [hr,hh] at hn
    obtain rfl := map_eq_nil_iff.mp hn.symm
    obtain ⟨rfl,-⟩ := cons.inj (hchain.symm.trans hc)
    exact .del block p chain s.gone rfl rfl (by simp [hh,hl,hr]) heads (hchain ▸ co)
  | del _ _ _ _ _ _ hn => simp [hh,hl,hr] at hn

lemma Calm.handle (h : Calm env s) (hi : s.pool.cache.Inv env.c env.pubKeyToAddr) {n : Note}
    {recv : List Note} (hr : s.recv = n :: recv)
    (hchain : s.chain = tip :: chain) (now : ℤ) (hcl : StepCalm env s (.handle now)) :
    Calm env {s with recv := recv, pool := n.handle env tip.getHeaderHashNew now s.pool} := by
  cases h with
  | adds pend tip' chain' hc hheight hn hl heads co =>
    rw [hr,cons_append] at hn
    cases pend with
    | nil => cases hn
    | cons block pend =>
      obtain ⟨rfl,hrest⟩ := cons.inj hn
      rw [isChain_cons_cons] at hheight
      rw [reverse_cons,append_assoc,singleton_append] at hc
      refine .adds pend block (tip' :: chain') hc hheight.2 hrest hl (heads_eventAddBlock heads hheight.1)
        fun b hb tx htx hno => ?_
      refine exist_removeTxsOfBlock hi (co b hb tx htx hno) fun t ht he => hno ⟨block,?_,t,ht,he⟩
      exact hc ▸ mem_append_right _ mem_cons_self
  | del block tip' chain' g hc hg hn heads co =>
    rw [hr,cons_append,cons_append] at hn
    obtain ⟨rfl,hrest⟩ := cons.inj hn
    obtain ⟨hrs,hl⟩ := append_eq_nil_iff.mp hrest
    simp only [StepCalm,hr,hchain] at hcl
    obtain ⟨hp,hro,hs⟩ := hcl
    have he : Note.handle env tip.getHeaderHashNew now s.pool (.del block) = _ :=
      eventDelBlock_eq heads tip.getHeaderHashNew now
    rw [he]
    refine .adds [] tip chain hchain (isChain_singleton _) hrs hl ⟨_,rfl,rfl,rfl,rfl⟩ fun b hb tx htx hno => ?_
    refine exist_delBlock hi hp hro ?_
    by_cases ho : ∃ t ∈ block.txs, t.hash env.c = tx.hash env.c
    · obtain ⟨t,ht,hh⟩ := ho
      exact .inr (hs b hb tx htx t ht hh)
    · rw [hg] at hb
      rcases mem_cons.mp hb with rfl | hb
      · exact .inr ⟨tx,htx,rfl⟩
      · refine .inl (co b hb tx htx ?_)
        rintro ⟨b',hb',t,ht,hh⟩
        rcases mem_cons.mp hb' with rfl | hb'
        · exact ho ⟨t,ht,hh⟩
        · exact hno ⟨b',hb',t,ht,hh⟩

lemma netStep_calm (hs : netStep env s op = some s') (h : Calm env s)
    (hi : s.pool.cache.Inv env.c env.pubKeyToAddr) (hc : StepCalm env s op) :
    Calm env s' ∧ s'.pool.cache.Inv env.c env.pubKeyToAddr := by
  cases op with
  | connect block =>
    simp only [netStep] at hs
    split at hs
    · cases hs
    · rename_i tip chain hchain
      split_ifs at hs with hp
      cases hs
      exact ⟨h.connect hc hchain hp.2,hi⟩
  | disconnect =>
    simp only [netStep] at hs
    split at hs
    · rename_i block parent chain hchain
      cases hs
      exact ⟨h.disconnect hc hchain,hi⟩
    · cases hs
  | takeHigh =>
    simp only [netStep] at hs
    split at hs
    · cases hs
    · rename_i n high hh
      cases hs
      refine ⟨h.moved rfl rfl rfl ?_ rfl,hi⟩
      rw [hh,append_assoc,singleton_append]
  | look =>
    simp only [netStep] at hs
    split_ifs at hs
    cases hs
    exact ⟨h.moved rfl rfl rfl rfl rfl,hi⟩
  | takeLow =>
    simp only [netStep] at hs
    split at hs
    · cases hs
    · rename_i n low hl
      split_ifs at hs
      cases hs
      exact ⟨h.takeLow hl,hi⟩
  | handle now =>
    simp only [netStep] at hs
    split at hs
    · rename_i n recv tip chain hr hchain
      cases hs
      refine ⟨h.handle hi hr hchain now hc,?_⟩
      cases n with
      | add block => exact inv_removeTxsOfBlock hi block
      | del block =>
        simp only [Note.handle,eventDelBlock]
        split_ifs
        · exact hi
        · exact inv_delBlock hi _ now block
    · cases hs

lemma netRun_cons (hs : netStep env s op = some mid) (hr : netRun env mid ops = some s') :
    netRun env s (op :: ops) = some s' :=
  bind_eq_some_iff.mpr ⟨mid,hs,hr⟩

lemma netStep_connect (hchain : s.chain = tip :: chain)
    (hp : block.parentHash = tip.hash env.c env.su.toConfig) (hheight : block.height = tip.height+1) :
    netStep env s (.connect block) = some {s with chain := block :: tip :: chain, high := s.high ++ [.add block]} := by
  simp only [netStep,hchain,if_pos (And.intro hp hheight)]

lemma runCalm_cons (hs : netStep env s op = some mid) (hc : StepCalm env s op) (hr : RunCalm env mid ops) :
    RunCalm env s (op :: ops) :=
  ⟨hc,fun _ h => Option.some.inj (hs.symm.trans h) ▸ hr⟩

lemma netRun_calm (hrun : netRun env s ops = some s')
    (h : Calm env s) (hi : s.pool.cache.Inv env.c env.pubKeyToAddr) (hc : RunCalm env s ops) : Calm env s' := by
  induction ops generalizing s with
  | nil =>
    cases hrun
    exact h
  | cons op ops ih =>
    obtain ⟨mid,hs,hr⟩ := bind_eq_some_iff.mp hrun
    obtain ⟨hm,hi'⟩ := netStep_calm hs h hi hc.1
    exact ih hr hm hi' (hc.2 mid hs)

lemma Calm.settled (h : Calm env s) (hq : s.Quiet) : Settled env s := by
  obtain ⟨hh,hl,hr⟩ := hq
  cases h with
  | adds pend tip chain hchain _ hn _ heads co =>
    rw [hr,hh] at hn
    obtain rfl := map_eq_nil_iff.mp hn.symm
    exact ⟨tip,chain,hchain,heads,fun block hb tx ht hno _ _ => co block hb tx ht hno⟩
  | del _ _ _ _ _ _ hn => simp [hh,hl,hr] at hn

/-- In a calm run from a pool that is up to date, the pool is up to date whenever all notifications are processed. -/
theorem netRun_settled {s s' : Net} {tip : Block} {chain : List Block} (hchain : s.chain = tip :: chain)
    (hgone : s.gone = [])
    (hq : s.Quiet) (hh : Heads s.pool tip) {maxTxPerAccount sizeLast poolCacheSize queueSize : ℤ}
    (hm : 0 < maxTxPerAccount) {before : List Op}
    (hc : s.pool.cache = run env.su env.decode env.c env.pubKeyToAddr
      (newCache maxTxPerAccount sizeLast poolCacheSize queueSize) before)
    {ops : List NetOp} (hcl : RunCalm env s ops) (hrun : netRun env s ops = some s') (hq' : s'.Quiet) :
    Settled env s' := by
  have hi : s.pool.cache.Inv env.c env.pubKeyToAddr :=
    hc ▸ (Cache.inv_newCache env.c env.pubKeyToAddr hm _ _ _).run env.su env.decode before
  obtain ⟨hhi,hl,hr⟩ := hq
  refine (netRun_calm hrun (.adds [] tip chain hchain (isChain_singleton _) (by simp [hhi,hr]) hl hh ?_) hi hcl).settled hq'
  simp [Covered,hgone]

end

def reorgEnv : ReorgEnv := {plainEnv with encode := fun _ => [1], isMiner := fun _ => false}

def Block.next (parent : Block) (stateHash : Bytes) (txs : List Transaction) : Block :=
  ⟨0,parent.hash Crypto.framed TxCache.narrow.toConfig,[],stateHash,parent.height+1,0,0,[],0,none,txs⟩

def genesisBlock : Block := ⟨0,[],[],[],0,0,0,[],0,none,[]⟩

def sideA : Block := Block.next genesisBlock [1] [paidCall 0]

def sideB : Block := Block.next genesisBlock [2] []

def sideB2 : Block := Block.next sideB [3] []

/-- The chain ends in `sideA`, and the pool knows. -/
def onSideA : Net := ⟨[sideA,genesisBlock],[],[],[],[],false,newCache 10 10 10 10,some sideA.getHeaderHashNew⟩

/-- The two added blocks come before the deleted one, which is then ignored. -/
theorem netRun_unsettled :
    ∃ s', netRun reorgEnv onSideA [.disconnect,.connect sideB,.connect sideB2,.takeHigh,.takeHigh,.look,.takeLow,
        .handle 0,.handle 0,.handle 0] = some s' ∧ s'.Quiet ∧ ¬Settled reorgEnv s' := by
  refine ⟨_,netRun_cons rfl <| netRun_cons (netStep_connect rfl rfl rfl) <|
    netRun_cons (netStep_connect rfl rfl rfl) <| netRun_cons rfl <|
    netRun_cons rfl <| netRun_cons rfl <| netRun_cons rfl <| netRun_cons rfl <| netRun_cons rfl <| netRun_cons rfl rfl,
    ⟨rfl,rfl,rfl⟩,?_⟩
  rintro ⟨tip,chain,hchain,-,hh⟩
  obtain rfl : sideB2 = tip := (cons.inj hchain).1
  have hm : paidCall 0 ∈ units reorgEnv sideA := by decide +kernel
  refine absurd (hh sideA (mem_singleton.mpr rfl) (paidCall 0) hm ?_ 0 (by decide +kernel)) (by decide +kernel)
  rintro ⟨block,hb,tx,ht,-⟩
  have he : ∀ block ∈ [sideB2,sideB,genesisBlock], block.txs = [] := by
    simp [sideB2,sideB,genesisBlock,Block.next]
  rw [he block hb] at ht
  exact not_mem_nil ht

/-- The deleted block is processed before the chain moves on, by two blocks. -/
def calmOps : List NetOp :=
  [.disconnect,.look,.takeLow,.handle 0,.connect sideB,.connect sideB2,.takeHigh,.takeHigh,.handle 0,.handle 0]

theorem netRun_settled_calm : ∃ s', netRun reorgEnv onSideA calmOps = some s' ∧ s'.Quiet ∧ Settled reorgEnv s' := by
  have hrun : netRun reorgEnv onSideA calmOps = some _ :=
    netRun_cons rfl <| netRun_cons rfl <| netRun_cons rfl <| netRun_cons rfl <| netRun_cons (netStep_connect rfl rfl rfl) <|
      netRun_cons (netStep_connect rfl rfl rfl) <| netRun_cons rfl <| netRun_cons rfl <| netRun_cons rfl <|
        netRun_cons rfl rfl
  have hu : units reorgEnv sideA = [paidCall 0] := by decide +kernel
  have hc : RunCalm reorgEnv onSideA calmOps := by
    refine runCalm_cons rfl ⟨rfl,rfl,rfl⟩ <| runCalm_cons rfl trivial <| runCalm_cons rfl trivial <|
      runCalm_cons rfl ⟨?_,?_,?_⟩ <| runCalm_cons (netStep_connect rfl rfl rfl) (fun _ h => by cases h) <|
      runCalm_cons (netStep_connect rfl rfl rfl) ?_ <| runCalm_cons rfl trivial <| runCalm_cons rfl trivial <|
      runCalm_cons rfl trivial <| runCalm_cons rfl trivial trivial
    · rw [hu]
      decide +kernel
    · rw [hu]
      refine ⟨by decide,fun addr => ?_⟩
      have hl : ([paidCall 0].filter fun tx => fromAddr reorgEnv.pubKeyToAddr tx = addr).length ≤ 1 := length_filter_le _ _
      have hn : onSideA.pool.cache.index.txNumOfAccount addr = 0 := rfl
      have hm : onSideA.pool.cache.index.maxperaccount = 10 := rfl
      rw [hn,hm]
      omega
    · intro earlier he tx ht _ _ _
      obtain rfl := mem_singleton.mp he
      exact ⟨tx,ht,rfl⟩
    · exact fun note hn => ⟨sideB,mem_singleton.mp hn⟩
  refine ⟨_,hrun,⟨rfl,rfl,rfl⟩,?_⟩
  have hca : onSideA.pool.cache =
      run reorgEnv.su reorgEnv.decode reorgEnv.c reorgEnv.pubKeyToAddr (newCache 10 10 10 10) [] := rfl
  exact netRun_settled rfl rfl ⟨rfl,rfl,rfl⟩ ⟨_,rfl,rfl,rfl,rfl⟩ (by decide) hca hc hrun ⟨rfl,rfl,rfl⟩

end Dpos.TxPool
