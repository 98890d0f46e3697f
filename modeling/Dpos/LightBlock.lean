import Dpos.Broadcast
import Dpos.TxPoolRun

/-! A light block names the transactions of a block by their short hashes, and a peer rebuilds the
block from its mempool, where a group is one packed transaction. -/
namespace Dpos

def TxPool.Cache.getTxListByHash (cache : Cache) (hashes : List Bytes) : List (Option Transaction) :=
  hashes.map cache.shash.getSHashTxCache

namespace Broadcast
open TxPool List

variable (env : Env)

def Env.ltHeader (block : Block) : LtHeader :=
  ⟨block.getHeaderHashNew,block.hash env.crypto env.cfg,block.signature⟩

/-- What `sendBlock` sends: a light block for a large block, with a panic if it has no transaction. -/
def sendBlock (minLtBlockSize : ℤ) (block : Block) : Option (LightBlock ⊕ Block) :=
  if Word.wrap 32 (minLtBlockSize*1024) ≤ env.size ⟨block,block.txs.map some⟩ then
    match block.txs with
    | [] => none
    | miner :: txs => some (.inl ⟨some (env.ltHeader block),some miner,txs.map (shortHash env.crypto)⟩)
  else some (.inr block)

/-- The transactions that are needed for a list, one for a transaction on its own and a packed one for a group, and the
members of the groups that come after their heads. -/
inductive Arranged : List Transaction → List Transaction → List Transaction → Prop
  | nil : Arranged [] [] []
  | single {tx : Transaction} {needs others txs : List Transaction} (hc : tx.groupCount ≤ 0)
      (ht : Arranged needs others txs) : Arranged (tx :: needs) others (tx :: txs)
  | group {head : Transaction} {rest needs others txs : List Transaction} {header : Bytes}
      (hd : env.decodeTxs header = some (head :: rest)) (hc : 2 ≤ head.groupCount) (hle : head.groupCount ≤ 20)
      (ht : Arranged needs others txs) :
      Arranged ({head with header := header} :: needs) (rest ++ others) (head :: rest ++ txs)

variable {env} {needs others txs : List Transaction}

lemma fill_skip (l rest : List (Option Transaction)) (i : ℤ) (missing : List ℤ) (acc : List (Option Transaction)) :
    fill env (l ++ rest) l.length i missing acc = fill env rest 0 (i+l.length) missing acc := by
  induction l generalizing i with
  | nil => simp
  | cons o l ih =>
    rw [cons_append,length_cons,fill,ih]
    push_cast
    rw [add_assoc,add_comm (1 : ℤ)]

lemma fill_none {l : List (Option Transaction)} (hl : ∀ o ∈ l, o = none) (rest : List (Option Transaction)) (i : ℤ)
    (missing : List ℤ) (acc : List (Option Transaction)) : ∃ i' more acc',
      fill env (l ++ rest) 0 i missing acc = fill env rest 0 i' (missing ++ more) acc' := by
  induction l generalizing i missing acc with
  | nil => exact ⟨i,[],acc,by simp⟩
  | cons o l ih =>
    obtain ⟨rfl,hr⟩ := forall_mem_cons.mp hl
    obtain ⟨i',more,acc',h⟩ := ih hr (i+1) (missing ++ [i]) (acc ++ [some emptyTx])
    exact ⟨i',i :: more,acc',by rw [cons_append,fill,h,append_assoc,singleton_append]⟩

lemma missing_cons {f : Transaction → Option Transaction} {tx o : Transaction} {missing : List ℤ} (ht : f tx = some o)
    (hm : missing ≠ [] ∨ ∃ t ∈ tx :: needs, f t = none) : missing ≠ [] ∨ ∃ t ∈ needs, f t = none := by
  refine hm.imp_right ?_
  rintro ⟨t,hmem,hn⟩
  obtain rfl | hmem := mem_cons.mp hmem
  · cases ht.symm.trans hn
  · exact ⟨t,hmem,hn⟩

section
variable {f : Transaction → Option Transaction} (h : Arranged env needs others txs)
  (hh : ∀ tx header, f {tx with header := header} = f tx)
include h hh

/-- After a packed group the loop passes over the places of the other members. -/
theorem Arranged.fill (hf : ∀ tx ∈ needs, f tx = some tx) (i : ℤ) (acc : List (Option Transaction)) :
    fill env (txs.map f) 0 i [] acc = ([],acc ++ txs.map some) := by
  induction h generalizing i acc with
  | nil => simp [Broadcast.fill]
  | single hc ht ih =>
    obtain ⟨htx,hf⟩ := forall_mem_cons.mp hf
    rw [map_cons,htx,Broadcast.fill,if_neg (by omega),ih hf,map_cons,append_assoc,singleton_append]
  | @group head rest needs others txs header hd hc hle ht ih =>
    obtain ⟨hp,hf⟩ := forall_mem_cons.mp hf
    rw [cons_append,map_cons,(hh head header).symm.trans hp,Broadcast.fill,if_pos (by dsimp only; omega)]
    simp only [TxGroup.getTxGroup_packed (e:=fun _ => header) hd hc hle,length_cons,Nat.add_sub_cancel,map_append]
    have hs := @fill_skip env (rest.map f)
    rw [length_map] at hs
    rw [hs,ih hf,append_assoc,← map_append,cons_append,map_cons,map_append]

/-- What has no entry is missing in the end. -/
theorem Arranged.fill_missing (hf : ∀ tx ∈ needs, f tx = none ∨ f tx = some tx) (ho : ∀ tx ∈ others, f tx = none)
    {missing : List ℤ} (hm : missing ≠ [] ∨ ∃ tx ∈ needs, f tx = none) (i : ℤ) (acc : List (Option Transaction)) :
    (Broadcast.fill env (txs.map f) 0 i missing acc).1 ≠ [] := by
  induction h generalizing i missing acc with
  | nil => simpa [Broadcast.fill] using hm
  | @single tx needs others txs hc ht ih =>
    obtain ⟨htx,hf⟩ := forall_mem_cons.mp hf
    rw [map_cons]
    rcases htx with htx | htx <;> rw [htx,Broadcast.fill]
    · exact ih hf ho (.inl (by simp)) _ _
    · rw [if_neg (by omega)]
      exact ih hf ho (missing_cons htx hm) _ _
  | @group head rest needs others txs header hd hc hle ht ih =>
    obtain ⟨hp,hf⟩ := forall_mem_cons.mp hf
    obtain ⟨hr,ho⟩ := forall_mem_append.mp ho
    rw [cons_append,map_cons,map_append]
    rcases hp with hp | hp <;> rw [hh] at hp <;> rw [hp,Broadcast.fill]
    · obtain ⟨i',more,acc',hn⟩ := @fill_none env (rest.map f) (by simpa using hr) (txs.map f) (i+1) (missing ++ [i])
        (acc ++ [some emptyTx])
      rw [hn]
      exact ih hf ho (.inl (by simp)) _ _
    · rw [if_pos (by dsimp only; omega)]
      simp only [TxGroup.getTxGroup_packed (e:=fun _ => header) hd hc hle,length_cons,Nat.add_sub_cancel]
      have hs := @fill_skip env (rest.map f)
      rw [length_map] at hs
      rw [hs]
      exact ih hf ho (missing_cons ((hh _ _).trans hp) hm) _ _

end

variable {block : Block} {cache : Cache}

lemma check_ltHeader (hr : env.root block = some block.txHash) (fails : Plan) :
    check env ⟨(env.ltHeader block).block,block.txs.map some⟩ fails =
      .post {block with mainHash := [], mainHeight := 0} :=
  @check_map_some env (env.ltHeader block).block block.txs hr fails

section
variable {miner : Transaction} (ha : Arranged env needs others txs) {h : Option LtHeader}
include ha

lemma rebuild_posts (hb : block.txs = miner :: txs) (hr : env.root block = some block.txHash)
    (hf : ∀ tx ∈ needs, cache.shash.getSHashTxCache (shortHash env.crypto tx) = some tx) :
    rebuild env (env.ltHeader block) ⟨h,some miner,txs.map (shortHash env.crypto)⟩
      (.ok (some (cache.getTxListByHash (txs.map (shortHash env.crypto))))) =
      .post {block with mainHash := [], mainHeight := 0} := by
  have hl := ha.fill (fun _ _ => rfl) hf 1 [some miner]
  rw [singleton_append,← map_cons,← hb] at hl
  by_cases ht : txs = []
  · subst ht
    rw [← check_ltHeader hr,hb]
    rfl
  · simp only [rebuild,map_eq_nil_iff,if_neg ht,Option.getD_some,Cache.getTxListByHash,map_map,Function.comp_def,hl]
    exact check_ltHeader hr _

lemma rebuild_asks (hs : ∀ tx ∈ needs, ∀ tx', cache.shash.getSHashTxCache (shortHash env.crypto tx) = some tx' → tx' = tx)
    (ho : ∀ tx ∈ others, cache.shash.getSHashTxCache (shortHash env.crypto tx) = none)
    (hn : ∃ tx ∈ needs, cache.shash.getSHashTxCache (shortHash env.crypto tx) = none) :
    ∃ d, rebuild env (env.ltHeader block) ⟨h,some miner,txs.map (shortHash env.crypto)⟩
      (.ok (some (cache.getTxListByHash (txs.map (shortHash env.crypto))))) = .ask d := by
  have hm := ha.fill_missing (f := fun tx => cache.shash.getSHashTxCache (shortHash env.crypto tx)) (fun _ _ => rfl)
    (fun tx ht => by
      cases hg : cache.shash.getSHashTxCache (shortHash env.crypto tx) with
      | none => exact .inl rfl
      | some tx' => rw [hs tx ht tx' hg]; exact .inr rfl) ho (.inr hn : ([] : List ℤ) ≠ [] ∨ _) 1 [some miner]
  have ht : txs ≠ [] := by
    rintro rfl
    exact hm rfl
  simp only [rebuild,map_eq_nil_iff,if_neg ht,Option.getD_some,Cache.getTxListByHash,map_map,Function.comp_def,if_neg hm]
  exact ⟨_,rfl⟩

end

/-- A peer posts the block of a light block, and asks for nothing, exactly if its map of short hashes has what is needed
after the first transaction. -/
theorem recvLtBlock_posts_iff (hr : env.root block = some block.txHash) (ha : Arranged env needs others block.txs.tail)
    (hs : ∀ tx ∈ needs, ∀ tx', cache.shash.getSHashTxCache (shortHash env.crypto tx) = some tx' → tx' = tx)
    (ho : ∀ tx ∈ others, cache.shash.getSHashTxCache (shortHash env.crypto tx) = none)
    {minLtBlockSize : ℤ} {lt : LightBlock} (hlt : sendBlock env minLtBlockSize block = some (.inl lt)) {s : Node}
    (hk : env.key block ∉ s.filter) (post send : Bool) :
    (∃ block', recvLtBlock env s lt (.ok (some (cache.getTxListByHash lt.sTxHashes))) post send =
        some ⟨s.mark env (env.key block),env.key block,.post block',post,send⟩ ∧
      block'.txs = block.txs ∧ block'.hash env.crypto env.cfg = block.hash env.crypto env.cfg) ↔
      ∀ tx ∈ needs, cache.shash.getSHashTxCache (shortHash env.crypto tx) = some tx := by
  have hk' : hexEncode (env.ltHeader block).hash ∉ s.filter := hk
  rw [sendBlock] at hlt
  split at hlt
  swap
  · simp at hlt
  cases hb : block.txs with
  | nil => simp [hb] at hlt
  | cons miner txs =>
    simp only [hb,Option.some.injEq,Sum.inl.injEq] at hlt
    subst hlt
    rw [hb,tail_cons] at ha
    simp only [recvLtBlock,if_neg hk',Option.some.injEq]
    constructor
    · rintro ⟨block',hp,-⟩ tx ht
      cases hg : cache.shash.getSHashTxCache (shortHash env.crypto tx) with
      | none =>
        rw [(rebuild_asks ha hs ho ⟨tx,ht,hg⟩).choose_spec] at hp
        cases congrArg Action.plan hp
      | some tx' => rw [hs tx ht tx' hg]
    · intro hf
      exact ⟨{block with mainHash := [], mainHeight := 0},by rw [rebuild_posts ha hb hr hf]; rfl,hb,rfl⟩

def member (execer : UInt8) : Transaction := ⟨[execer],[],none,0,0,0,[],2,[],[]⟩

def pooled : List Transaction := [paidCall 0,{member 2 with header := [1]}]

/-- Digests start with the name of the executor. -/
def lightEnv : Env :=
  {smallEnv with
    crypto := {Crypto.framed with sha256 := id, encodeTx := fun tx => tx.execer ++ Crypto.framed.encodeTx tx},
    decodeTxs := fun _ => some [member 2,member 3]}

def lightPool (poolCacheSize : ℤ) : Cache :=
  TxPool.run TxCache.narrow lightEnv.decodeTxs lightEnv.crypto id (newCache 10 10 poolCacheSize 2) (pooled.map (.push 0))

def lateBlock : Block :=
  let txs := [paidCall 1,member 2,member 3,paidCall 0]
  .ofTxs ((lightEnv.root (.ofTxs [] txs)).getD []) txs

lemma root_lateBlock : lightEnv.root lateBlock = some lateBlock.txHash := by decide +kernel

lemma arranged_lateBlock : Arranged lightEnv [{member 2 with header := [1]},paidCall 0] [member 3] lateBlock.txs.tail :=
  @Arranged.group lightEnv (member 2) [member 3] [paidCall 0] [] [paidCall 0] [1] rfl (by decide) (by decide)
    (.single (by decide) .nil)

lemma distinct_pooled : ∀ tx ∈ pooled ++ [member 3], ∀ tx' ∈ pooled ++ [member 3],
    shortHash lightEnv.crypto tx' = shortHash lightEnv.crypto tx → tx' = tx := by
  decide +kernel

/-- Both transactions are held, the group has no entry, and the peer is asked for the block. -/
theorem recvLtBlock_asks : (lightPool 1).held = pooled ∧ lightEnv.root lateBlock = some lateBlock.txHash ∧
    Arranged lightEnv pooled.reverse [member 3] lateBlock.txs.tail ∧
      (∀ tx ∈ pooled ++ [member 3], ∀ tx' ∈ pooled ++ [member 3],
      shortHash lightEnv.crypto tx' = shortHash lightEnv.crypto tx → tx' = tx) ∧
    ∃ lt d, sendBlock lightEnv 0 lateBlock = some (.inl lt) ∧ (recvLtBlock lightEnv ⟨[],[],[]⟩ lt
      (.ok (some ((lightPool 1).getTxListByHash lt.sTxHashes))) true true).map Action.plan = some (.ask d) :=
  ⟨by decide +kernel,root_lateBlock,arranged_lateBlock,distinct_pooled,_,_,rfl,rfl⟩

/-- With room for both transactions in the map the block is posted. -/
theorem recvLtBlock_posts_group : ∃ lt block', sendBlock lightEnv 0 lateBlock = some (.inl lt) ∧
    (recvLtBlock lightEnv ⟨[],[],[]⟩ lt (.ok (some ((lightPool 2).getTxListByHash lt.sTxHashes))) true true).map
      Action.plan = some (.post block') ∧ block'.txs = lateBlock.txs := by
  obtain ⟨lt,hlt⟩ : ∃ lt, sendBlock lightEnv 0 lateBlock = some (.inl lt) := ⟨_,rfl⟩
  have hf : ∀ tx ∈ pooled.reverse, (lightPool 2).shash.getSHashTxCache (shortHash lightEnv.crypto tx) = some tx := by
    decide +kernel
  obtain ⟨block',hb,ht,-⟩ := (@recvLtBlock_posts_iff lightEnv _ _ lateBlock (lightPool 2) root_lateBlock arranged_lateBlock
    (fun tx htx tx' hg => Option.some.inj (hg.symm.trans (hf tx htx))) (by decide +kernel) 0 lt hlt ⟨[],[],[]⟩ not_mem_nil
    true true).mpr hf
  exact ⟨lt,block',hlt,by rw [hb]; rfl,ht⟩

end Broadcast
end Dpos
