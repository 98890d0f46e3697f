import Dpos.PreExec
import Dpos.TxGroup

/-! Blocks that peers send: a hash is marked in the block filter as soon as a message names
it, before the block is rebuilt and checked. A block that cannot be rebuilt yet waits in the
cache of light blocks for the reply to a query. -/
namespace Dpos
open List
namespace Broadcast

def hexDigit (n : UInt8) : UInt8 := if n < 10 then 48+n else 87+n

def hexEncode (bs : Bytes) : Bytes := bs.flatMap fun b => [hexDigit (b/16),hexDigit (b%16)]

structure LtHeader extends Header where
  hash : Bytes
  signature : Option Signature

/-- `types.LightBlock`, with nil for what a message may leave out. -/
structure LightBlock where
  header : Option LtHeader
  minerTx : Option Transaction
  sTxHashes : List Bytes

/-- A block that is being rebuilt. Its transactions are pointers, the first perhaps nil. -/
structure Draft where
  block : Block
  txs : List (Option Transaction)

def Draft.built (d : Draft) : Option Block := (d.txs.mapM id).map fun txs => {d.block with txs := txs}

/-- The configuration, the size of an encoded block, and the limits of the caches. -/
structure Env where
  crypto : Crypto
  ncpu : ℕ
  cfg : Config
  decodeTxs : Bytes → Option (List Transaction)
  size : Draft → ℕ
  blockRecvFilterCacheNum : ℕ
  ltBlockCacheNum : ℕ
  ltBlockCacheSize : ℕ

/-- The block filter and the cache of light blocks, the oldest entry first. `posted` has no
counterpart: it records what was posted to the blockchain module. -/
structure Node where
  filter : List Bytes
  cache : List (Bytes × Draft)
  posted : List (Bytes × Block)

section Broadcast
variable (env : Env)

def Env.key (block : Block) : Bytes := hexEncode (block.hash env.crypto env.cfg)

def Env.root (block : Block) : Option Bytes :=
  Merkle.calcMerkleRoot env.crypto env.ncpu (env.cfg.isFork block.height .rootHash) block.txs

/-- `AddWithCheckAtomic` on a key that the filter does not have. -/
def Node.mark (s : Node) (key : Bytes) : Node :=
  let filter := s.filter ++ [key]
  {s with filter := if env.blockRecvFilterCacheNum < filter.length then filter.tail else filter}

def total (cache : List (Bytes × Draft)) : ℕ := (cache.map fun e => env.size e.2).sum

/-- The oldest entries go until there is room for `size` more. -/
def trim (size : ℕ) : List (Bytes × Draft) → List (Bytes × Draft)
  | [] => []
  | old :: rest =>
    if env.ltBlockCacheSize < size+total env (old :: rest) ∨
        env.ltBlockCacheNum ≤ (old :: rest).length then trim size rest
    else old :: rest

def without (key : Bytes) (cache : List (Bytes × Draft)) : List (Bytes × Draft) :=
  cache.filter fun e => e.1 ≠ key

def addCache (key : Bytes) (d : Draft) (cache : List (Bytes × Draft)) : List (Bytes × Draft) :=
  if env.ltBlockCacheSize < env.size d then without key cache
  else trim env (env.size d) (without key cache) ++ [(key,d)]

/-- What is done with a block: nothing, after an error or a panic; it is posted; or it is kept and
the peer is asked for transactions. -/
inductive Plan
  | stop
  | post (block : Block)
  | ask (d : Draft)

/-- The check of the root, which panics on a nil transaction. -/
def check (d : Draft) (fails : Plan) : Plan :=
  match d.built with
  | none => .stop
  | some block =>
    match env.root block with
    | none => .stop
    | some root => if block.txHash = root then .post block else fails

def emptyTx : Transaction := ⟨[],[],none,0,0,0,[],0,[],[]⟩

/-- The loop over the reply of the mempool: the missing indices and the transactions, a group taking
the places of its members. -/
def fill : List (Option Transaction) → ℕ → ℤ → List ℤ → List (Option Transaction) →
    List ℤ × List (Option Transaction)
  | [], _, _, missing, txs => (missing,txs)
  | _ :: rest, skip+1, i, missing, txs => fill rest skip (i+1) missing txs
  | none :: rest, 0, i, missing, txs => fill rest 0 (i+1) (missing ++ [i]) (txs ++ [some emptyTx])
  | some tx :: rest, 0, i, missing, txs =>
    if 0 < tx.groupCount then
      match TxGroup.getTxGroup env.decodeTxs tx with
      | .ok (some group) => fill rest (group.length-1) (i+1) missing (txs ++ group.map some)
      | _ => ([],txs)
    else fill rest 0 (i+1) missing (txs ++ [some tx])

def LtHeader.block (h : LtHeader) : Block :=
  ⟨h.version,h.parentHash,h.txHash,h.stateHash,h.height,h.blockTime,h.difficulty,[],0,h.signature,[]⟩

/-- The block of a light block. The mempool answers with an error, with no list, or with a list. -/
def rebuild (h : LtHeader) (lt : LightBlock)
    (mempool : Except Unit (Option (List (Option Transaction)))) : Plan :=
  match if lt.sTxHashes = [] then .ok none else mempool with
  | .error _ => .stop
  | .ok reply =>
    let (missing,txs) := fill env (reply.getD []) 0 1 [] [lt.minerTx]
    let d : Draft := ⟨h.block,txs⟩
    if missing = [] then check env d (.ask d) else .ask d

/-- The transactions of a reply put in their places; an index out of range panics. -/
def place : List (Option Transaction) → List ℤ → List Transaction → Option (List (Option Transaction))
  | txs, [], _ => some txs
  | _, _ :: _, [] => none
  | txs, i :: indices, tx :: new =>
    if 0 ≤ i ∧ i < txs.length then place (txs.set i.toNat (some tx)) indices new else none

/-- A reply without indices brings all transactions, and there is no second query after it. -/
def complete (d : Draft) (indices : List ℤ) (new : List Transaction) : Plan :=
  if indices = [] then check env {d with txs := new.map some} .stop
  else
    match place d.txs indices new with
    | none => .stop
    | some txs => check env {d with txs := txs} (.ask {d with txs := []})

/-- A message, with whether posting to the blockchain and sending to the peer succeed. -/
inductive Msg
  | block (block : Option Block) (post : Bool)
  | ltBlock (lt : LightBlock) (mempool : Except Unit (Option (List (Option Transaction))))
      (post send : Bool)
  | query
  | reply (blockHash : Bytes) (indices : List ℤ) (txs : List Transaction) (post send : Bool)

/-- What a message comes to: the state it leaves so far, and what is to be done. -/
structure Action where
  node : Node
  key : Bytes
  plan : Plan
  post : Bool
  send : Bool

def recvBlock (s : Node) (block : Option Block) (post : Bool) : Option Action :=
  match block with
  | none => none
  | some block =>
    if env.key block ∈ s.filter then none
    else some ⟨s.mark env (env.key block),env.key block,.post block,post,true⟩

def recvLtBlock (s : Node) (lt : LightBlock)
    (mempool : Except Unit (Option (List (Option Transaction)))) (post send : Bool) : Option Action :=
  match lt.header with
  | none => none
  | some h =>
    if hexEncode h.hash ∈ s.filter then none
    else some ⟨s.mark env (hexEncode h.hash),hexEncode h.hash,rebuild env h lt mempool,post,send⟩

def recvQueryReply (s : Node) (blockHash : Bytes) (indices : List ℤ) (txs : List Transaction)
    (post send : Bool) : Option Action :=
  match s.cache.find? fun e => e.1 = blockHash with
  | none => none
  | some e => some ⟨{s with cache := without blockHash s.cache},blockHash,complete env e.2 indices txs,
      post,send⟩

/-- A query is answered from the blockchain and leaves filter and cache alone. -/
def handleReceive (s : Node) : Msg → Option Action
  | .block block post => recvBlock env s block post
  | .ltBlock lt mempool post send => recvLtBlock env s lt mempool post send
  | .query => none
  | .reply blockHash indices txs post send => recvQueryReply env s blockHash indices txs post send

/-- Only where the query cannot be sent is the mark taken back. -/
def Action.result (a : Action) : Node :=
  match a.plan with
  | .stop => a.node
  | .post block => if a.post then {a.node with posted := a.node.posted ++ [(a.key,block)]} else a.node
  | .ask d =>
    let cache := addCache env a.key d a.node.cache
    if a.send then {a.node with cache := cache}
    else {a.node with cache := without a.key cache, filter := a.node.filter.filter (· ≠ a.key)}

def step (s : Node) (msg : Msg) : Node := ((handleReceive env s msg).map (Action.result env)).getD s

def run (s : Node) (msgs : List Msg) : Node := msgs.foldl (step env) s

/-- A block of this hash, with its transactions, has been posted. -/
def Posted (s : Node) (key : Bytes) : Prop :=
  ∃ block, (key,block) ∈ s.posted ∧ env.key block = key ∧ env.root block = some block.txHash

def Justified (s : Node) (key : Bytes) : Prop := Posted env s key ∨ ∃ d, (key,d) ∈ s.cache

def Sound (s : Node) : Prop := ∀ key ∈ s.filter, Justified env s key

/-- With `n` transactions the block has this hash, which counts them. -/
def Names (block : Block) (n : ℕ) (key : Bytes) : Prop :=
  ∀ txs : List Transaction, txs.length = n → env.key {block with txs := txs} = key

/-- The groups in a reply of the mempool have places for all their members. -/
def Fits : List (Option Transaction) → ℕ → Prop
  | [], skip => skip = 0
  | _ :: rest, skip+1 => Fits rest skip
  | none :: rest, 0 => Fits rest 0
  | some tx :: rest, 0 =>
    if 0 < tx.groupCount then
      ∃ head group, TxGroup.getTxGroup env.decodeTxs tx = .ok (some (head :: group)) ∧ Fits rest group.length
    else Fits rest 0

/-- What is asked of a message. A block has its TxHash as root. The hash in a light block is that of its header with as
many transactions as are named, the first one is there, the mempool answers, and the block is of at most the size `m`.
A reply without indices brings the transactions of the pending block, and one with indices a transaction for each, which
is a place in the block. -/
def Msg.Honest (m : ℕ) (s : Node) : Msg → Prop
  | .block bl post => ∀ b ∈ bl, post = true ∧ env.root b = some b.txHash
  | .ltBlock lt mempool post _ => ∀ h ∈ lt.header, post = true ∧ lt.minerTx ≠ none ∧
      Names env h.block (lt.sTxHashes.length+1) (hexEncode h.hash) ∧ ∃ txs, (lt.sTxHashes ≠ [] → mempool = .ok (some txs)) ∧
        txs.length = lt.sTxHashes.length ∧ Fits env txs 0 ∧ env.size ⟨h.block,(fill env txs 0 1 [] [lt.minerTx]).2⟩ ≤ m
  | .query => True
  | .reply blockHash indices txs post _ => ∀ d, (blockHash,d) ∈ s.cache → post = true ∧
      if indices = [] then env.key {d.block with txs := txs} = blockHash ∧
        env.root {d.block with txs := txs} = some d.block.txHash
      else indices.length ≤ txs.length ∧ ∀ i ∈ indices, 0 ≤ i ∧ i < d.txs.length

/-- The cache of light blocks has room for one more, if none is larger than `m`. -/
def Room (m : ℕ) (s : Node) : Prop :=
  s.cache.length < env.ltBlockCacheNum ∧ m*(s.cache.length+1) ≤ env.ltBlockCacheSize

def RunHonest (m : ℕ) : Node → List Msg → Prop
  | _, [] => True
  | s, msg :: msgs => msg.Honest env m s ∧ Room env m s ∧ RunHonest m (step env s msg) msgs

/-- A draft without nil transactions, which has the hash once its transactions are right. -/
structure Pends (m : ℕ) (key : Bytes) (d : Draft) : Prop where
  none_notMem : none ∉ d.txs
  names : d.txs = [] ∨ Names env d.block d.txs.length key
  size_le : env.size d ≤ m

structure Inv (m : ℕ) (s : Node) : Prop where
  sound : Sound env s
  pends : ∀ e ∈ s.cache, Pends env m e.1 e.2

def Plan.Good (m : ℕ) (key : Bytes) : Plan → Prop
  | .stop => False
  | .post block => env.key block = key ∧ env.root block = some block.txHash
  | .ask d => Pends env m key d

variable {env} {s : Node} {key : Bytes} {m : ℕ}

lemma mapM_id_map_some (l : List Transaction) : (l.map some).mapM id = some l := by
  induction l with
  | nil => rfl
  | cons tx l ih => simp [mapM_cons,ih]

lemma exists_map_some {l : List (Option Transaction)} (h : none ∉ l) : ∃ txs : List Transaction, txs.map some = l := by
  induction l with
  | nil => exact ⟨[],rfl⟩
  | cons o l ih =>
    obtain ⟨ho,hl⟩ := not_or.mp (mem_cons.not.mp h)
    obtain ⟨tx,rfl⟩ := Option.ne_none_iff_exists.mp (Ne.symm ho)
    obtain ⟨txs,rfl⟩ := ih hl
    exact ⟨tx :: txs,rfl⟩

lemma exists_root (block : Block) : ∃ root, env.root block = some root := by
  unfold Env.root Merkle.calcMerkleRoot
  by_cases hn : block.txs = []
  · rw [hn]
    split_ifs <;> exact ⟨_,rfl⟩
  · split_ifs
    · rw [Merkle.calcMerkleRootCache,Merkle.rootOfHashes,if_neg (by simpa using hn)]
      have hh : block.txs.map (Transaction.hash env.crypto) ≠ [] := by simpa using hn
      exact (@Merkle.getMerkleRoot_rootOf _ _ _ (fun _ => True) _ env.ncpu hh).imp fun _ h => h.1
    · obtain ⟨root,cs,hr,-⟩ := Merkle.calcMultiLayerMerkleInfo_rootOf env.crypto env.ncpu hn fun _ => True
      exact ⟨root,by rw [hr]; rfl⟩

/-- Whatever passes the check of the root has the hash. -/
lemma check_good {d : Draft} (hn : none ∉ d.txs) (hk : Names env d.block d.txs.length key) {fails : Plan}
    (hf : fails.Good env m key) : (check env d fails).Good env m key := by
  obtain ⟨block,l⟩ := d
  obtain ⟨l,rfl⟩ := exists_map_some hn
  obtain ⟨root,hr⟩ := @exists_root env {block with txs := l}
  rw [check,Draft.built,mapM_id_map_some,Option.map_some]
  dsimp only
  rw [hr]
  dsimp only
  split_ifs with he
  · exact ⟨hk l (length_map _).symm,by rw [hr,← he]⟩
  · exact hf

/-- The loop leaves a transaction for every place. -/
lemma fill_fits {l : List (Option Transaction)} {skip : ℕ} (h : Fits env l skip) (i : ℤ) (missing : List ℤ)
    (acc : List (Option Transaction)) (hn : none ∉ acc) : none ∉ (fill env l skip i missing acc).2 ∧
      (fill env l skip i missing acc).2.length+skip = acc.length+l.length := by
  induction l generalizing skip i missing acc with
  | nil =>
    obtain rfl : skip = 0 := h
    exact ⟨hn,rfl⟩
  | cons o rest ih =>
    cases skip with
    | succ skip =>
      obtain ⟨h1,h2⟩ := ih h (i+1) missing acc hn
      exact ⟨h1,by rw [fill,length_cons]; omega⟩
    | zero =>
      cases o with
      | none =>
        obtain ⟨h1,h2⟩ := ih h (i+1) (missing ++ [i]) (acc ++ [some emptyTx]) (by simpa using hn)
        exact ⟨h1,by rw [fill,length_cons]; simp at h2; omega⟩
      | some tx =>
        rw [Fits] at h
        rw [fill]
        split_ifs at h ⊢ with hg
        · obtain ⟨head,group,hgr,hfi⟩ := h
          simp only [hgr]
          obtain ⟨h1,h2⟩ := ih hfi (i+1) missing (acc ++ (head :: group).map some) (by simpa using hn)
          exact ⟨h1,by simp at h2 ⊢; omega⟩
        · obtain ⟨h1,h2⟩ := ih h (i+1) missing (acc ++ [some tx]) (by simpa using hn)
          exact ⟨h1,by simp at h2 ⊢; omega⟩

lemma rebuild_good {h : LtHeader} {lt : LightBlock} {mempool : Except Unit (Option (List (Option Transaction)))}
    {txs : List (Option Transaction)} (hm : lt.minerTx ≠ none) (hk : Names env h.block (lt.sTxHashes.length+1) key)
    (hp : lt.sTxHashes ≠ [] → mempool = .ok (some txs)) (hl : txs.length = lt.sTxHashes.length) (hfi : Fits env txs 0)
    (hs : env.size ⟨h.block,(fill env txs 0 1 [] [lt.minerTx]).2⟩ ≤ m) : (rebuild env h lt mempool).Good env m key := by
  obtain ⟨reply,hr,rfl⟩ : ∃ reply, (if lt.sTxHashes = [] then .ok none else mempool) = .ok reply ∧ reply.getD [] = txs := by
    split_ifs with he
    · exact ⟨none,rfl,(length_eq_zero_iff.mp (by rw [hl,he]; rfl)).symm⟩
    · exact ⟨some txs,hp he,rfl⟩
  obtain ⟨hn,hlen⟩ := fill_fits hfi 1 [] [lt.minerTx] (by simpa using hm.symm)
  rw [rebuild,hr]
  dsimp only
  generalize fill env (reply.getD []) 0 1 [] [lt.minerTx] = r at hn hlen hs
  have hk : Names env h.block r.2.length key := by
    have : r.2.length = lt.sTxHashes.length+1 := by rw [length_singleton] at hlen; omega
    rwa [this]
  have hpe : Pends env m key ⟨h.block,r.2⟩ := ⟨hn,.inr hk,hs⟩
  split_ifs
  · exact check_good hn hk hpe
  · exact hpe

lemma place_isSome {txs : List (Option Transaction)} {indices : List ℤ} {new : List Transaction} (hn : none ∉ txs)
    (hl : indices.length ≤ new.length) (hi : ∀ i ∈ indices, 0 ≤ i ∧ i < txs.length) :
    ∃ txs', place txs indices new = some txs' ∧ none ∉ txs' ∧ txs'.length = txs.length := by
  induction indices generalizing txs new with
  | nil => exact ⟨txs,by rw [place],hn,rfl⟩
  | cons i indices ih =>
    cases new with
    | nil => simp at hl
    | cons tx new =>
      obtain ⟨hi0,hi⟩ := forall_mem_cons.mp hi
      rw [place,if_pos hi0]
      obtain ⟨txs',hp,hn',hl'⟩ := @ih (txs.set i.toNat (some tx)) new
        (fun hm => (mem_or_eq_of_mem_set hm).elim hn (by simp)) (by simpa using hl) (by simpa using hi)
      exact ⟨txs',hp,hn',by simpa using hl'⟩

lemma check_map_some {block : Block} {txs : List Transaction} (h : env.root {block with txs := txs} = some block.txHash)
    (fails : Plan) : check env ⟨block,txs.map some⟩ fails = .post {block with txs := txs} := by
  rw [check,Draft.built,mapM_id_map_some,Option.map_some]
  dsimp only
  rw [h]
  exact if_pos rfl

lemma complete_nil {d : Draft} {new : List Transaction} (h : env.root {d.block with txs := new} = some d.block.txHash) :
    complete env d [] new = .post {d.block with txs := new} := by rw [complete,if_pos rfl,check_map_some h]

variable {cache : List (Bytes × Draft)}

lemma mem_without {e : Bytes × Draft} : e ∈ without key cache ↔ e ∈ cache ∧ e.1 ≠ key := by simp [without]

lemma addCache_of_room (hs : ∀ e ∈ s.cache, env.size e.2 ≤ m) (hr : Room env m s) {d : Draft} (hd : env.size d ≤ m) :
    addCache env key d s.cache = without key s.cache ++ [(key,d)] := by
  have hl : (without key s.cache).length ≤ s.cache.length := length_filter_le _ _
  have ht : total env (without key s.cache) ≤ m*s.cache.length := by
    refine (sum_le_card_nsmul _ m fun n hn => ?_).trans ?_
    · obtain ⟨e,he,rfl⟩ := mem_map.mp hn
      exact hs e (mem_without.mp he).1
    · rw [length_map,smul_eq_mul,Nat.mul_comm]
      exact Nat.mul_le_mul_left m hl
  obtain ⟨hn,hm⟩ := hr
  rw [Nat.mul_succ] at hm
  have htr : trim env (env.size d) (without key s.cache) = without key s.cache := by
    generalize without key s.cache = c at hl ht
    cases c with
    | nil => rfl
    | cons old rest => rw [trim,if_neg (by omega)]
  rw [addCache,if_neg (by omega),htr]

variable {a : Action} {msg : Msg}

lemma Action.inv (ho : ∀ key ∈ a.node.filter, key ≠ a.key → Justified env a.node key)
    (hc : ∀ e ∈ a.node.cache, Pends env m e.1 e.2) (hr : Room env m a.node) (hp : a.post = true)
    (hg : a.plan.Good env m a.key) : Inv env m (a.result env) := by
  obtain ⟨s,key,plan,post,send⟩ := a
  obtain rfl : post = true := hp
  have hs : ∀ {s' : Node}, s'.filter = s.filter → Justified env s' key →
      (∀ k ∈ s.filter, k ≠ key → Justified env s' k) → Sound env s' := by
    intro s' hf hky hre k hk
    by_cases heq : k = key
    · exact heq ▸ hky
    · exact hre k (hf ▸ hk) heq
  cases plan with
  | stop => cases hg
  | post bl =>
    refine ⟨hs rfl (.inl ⟨bl,mem_append_right _ (mem_singleton_self _),hg⟩) fun k hk hne => (ho k hk hne).imp_left ?_,hc⟩
    rintro ⟨b,hb,hg⟩
    exact ⟨b,mem_append_left _ hb,hg⟩
  | ask d =>
    have hadd : addCache env key d s.cache = without key s.cache ++ [(key,d)] :=
      addCache_of_room (fun e he => (hc e he).size_le) hr hg.size_le
    have hpe : ∀ e ∈ addCache env key d s.cache, Pends env m e.1 e.2 := by
      rw [hadd]
      exact forall_mem_append.mpr ⟨fun e he => hc e (mem_without.mp he).1,forall_mem_singleton.mpr hg⟩
    have hke : ∀ k ∈ s.filter, k ≠ key → ∀ {cache}, (∀ e ∈ without key s.cache, e ∈ cache) →
        ∀ f, Justified env ⟨f,cache,s.posted⟩ k := by
      intro k hk hne cache hsu f
      refine (ho k hk hne).imp_right ?_
      rintro ⟨e,he⟩
      exact ⟨e,hsu _ (mem_without.mpr ⟨he,hne⟩)⟩
    have hsub : ∀ e ∈ without key s.cache, e ∈ addCache env key d s.cache := by
      rw [hadd]
      exact fun e he => mem_append_left _ he
    cases send with
    | true =>
      refine ⟨hs rfl (.inr ⟨d,?_⟩) fun k hk hne => hke k hk hne hsub _,hpe⟩
      change (key,d) ∈ addCache env key d s.cache
      simp [hadd]
    | false =>
      refine ⟨fun k hk => ?_,fun e he => hpe e (mem_without.mp he).1⟩
      obtain ⟨hk,hne⟩ := mem_filter.mp hk
      exact hke k hk (of_decide_eq_true hne) (fun e he => mem_without.mpr ⟨hsub e he,(mem_without.mp he).2⟩) _

lemma mem_mark {k : Bytes} (hk : k ∈ (s.mark env key).filter) : k ∈ s.filter ∨ k = key := by
  unfold Node.mark at hk
  dsimp only at hk
  split_ifs at hk
  · simpa using mem_of_mem_tail hk
  · simpa using hk

section
-- a draft without its transactions is not larger
variable (hsi : ∀ d, env.size {d with txs := []} ≤ env.size d)
include hsi

lemma complete_good {d : Draft} {indices : List ℤ} {new : List Transaction} (hd : Pends env m key d)
    (h : if indices = [] then env.key {d.block with txs := new} = key ∧
        env.root {d.block with txs := new} = some d.block.txHash
      else indices.length ≤ new.length ∧ ∀ i ∈ indices, 0 ≤ i ∧ i < d.txs.length) :
    (complete env d indices new).Good env m key := by
  split_ifs at h with he
  · rw [he,complete_nil h.2]
    exact h
  · obtain ⟨txs,hp,hn,hl⟩ := place_isSome hd.none_notMem h.1 h.2
    have hne : d.txs ≠ [] := by
      rintro hd
      obtain ⟨i,hi⟩ := exists_mem_of_ne_nil _ he
      have := h.2 i hi
      rw [hd,length_nil] at this
      omega
    rw [complete,if_neg he,hp]
    exact check_good hn (hl ▸ hd.names.resolve_left hne) ⟨not_mem_nil,.inl rfl,(hsi d).trans hd.size_le⟩

/-- What an honest message comes to: the other keys stay justified, and the plan for its own key is good. -/
lemma handleReceive_honest (hs : Inv env m s) (h : msg.Honest env m s)
    (ha : handleReceive env s msg = some a) : (∀ key ∈ a.node.filter, key ≠ a.key → Justified env a.node key) ∧
      a.node.cache <+ s.cache ∧ a.post = true ∧ a.plan.Good env m a.key := by
  have hm : ∀ key, ∀ k ∈ (s.mark env key).filter, k ≠ key → Justified env (s.mark env key) k :=
    fun key k hk hne => hs.sound k ((mem_mark hk).resolve_right hne)
  cases msg with
  | block bl post =>
    simp only [handleReceive,recvBlock] at ha
    split at ha
    · cases ha
    · next b =>
      split_ifs at ha
      cases ha
      exact ⟨hm _,.refl _,(h b rfl).1,rfl,(h b rfl).2⟩
  | ltBlock lt mempool post send =>
    simp only [handleReceive,recvLtBlock] at ha
    split at ha
    · cases ha
    · next hd hh =>
      split_ifs at ha
      cases ha
      obtain ⟨hp,hmi,hn,txs,hre,hl,hfi,hsz⟩ := h hd hh
      exact ⟨hm _,.refl _,hp,rebuild_good hmi hn hre hl hfi hsz⟩
  | query => cases ha
  | reply blockHash indices txs post send =>
    simp only [handleReceive,recvQueryReply] at ha
    split at ha
    · cases ha
    · next e he =>
      cases ha
      have hme : e ∈ s.cache := mem_of_find?_eq_some he
      obtain rfl : e.1 = blockHash := by simpa using find?_some he
      obtain ⟨hp,hi⟩ := h e.2 hme
      refine ⟨fun k hk hne => (hs.sound k hk).imp_right ?_,filter_sublist,hp,complete_good hsi (hs.pends e hme) hi⟩
      rintro ⟨d,hd⟩
      exact ⟨d,mem_without.mpr ⟨hd,hne⟩⟩

lemma Inv.step (hs : Inv env m s) (h : msg.Honest env m s) (hr : Room env m s) : Inv env m (step env s msg) := by
  unfold Broadcast.step
  cases ha : handleReceive env s msg with
  | none => exact hs
  | some a =>
    obtain ⟨ho,hc,hp,hg⟩ := handleReceive_honest hsi hs h ha
    have hl := hc.length_le
    have hra : Room env m a.node := ⟨hl.trans_lt hr.1,(Nat.mul_le_mul_left m (by omega)).trans hr.2⟩
    exact Action.inv ho (fun e he => hs.pends e (hc.subset he)) hra hp hg

lemma Inv.run {msgs : List Msg} (hs : Inv env m s)
    (h : RunHonest env m s msgs) : ∀ msgs', msgs' <+: msgs → Inv env m (run env s msgs') := by
  induction msgs generalizing s with
  | nil =>
    intro msgs' hp
    rw [prefix_nil.mp hp]
    exact hs
  | cons msg msgs ih =>
    intro msgs' hp
    cases msgs' with
    | nil => exact hs
    | cons msg' msgs' =>
      obtain ⟨rfl,ht⟩ := cons_prefix_cons.mp hp
      exact ih (hs.step hsi h.1 h.2.1) h.2.2 msgs' ht

end

lemma Sound.posted (hs : Sound env s) {b : Block} (hr : env.root b = some b.txHash) (hn : ∀ d, (env.key b,d) ∉ s.cache) :
    Posted env (Broadcast.step env s (.block (some b) true)) (env.key b) := by
  by_cases hf : env.key b ∈ s.filter
  · have he : Broadcast.step env s (.block (some b) true) = s := by simp [Broadcast.step,handleReceive,recvBlock,hf]
    rw [he]
    exact (hs _ hf).resolve_right fun ⟨d,hd⟩ => hn d hd
  · refine ⟨b,?_,rfl,hr⟩
    simp [Broadcast.step,handleReceive,recvBlock,hf,Action.result]

end Broadcast

def smallEnv : Env := ⟨Crypto.framed,1,.allForks,fun _ => none,fun _ => 1,1024,1000,100⟩

def goodBlock : Block := .ofTxs ((signedCall [1]).fullHash Crypto.framed) [signedCall [1]]

lemma root_goodBlock : smallEnv.root goodBlock = some goodBlock.txHash := by decide +kernel

def call (n : UInt8) : Transaction := {emptyTx with execer := [n]}

/-- A block of two transactions and its light block. -/
def pairBlock : Block :=
  .ofTxs ((Merkle.calcMerkleRoot Crypto.framed 1 true [call 1,call 2]).getD []) [call 1,call 2]

def pairLtBlock : LightBlock :=
  ⟨some ⟨pairBlock.getHeaderHashNew,pairBlock.hash Crypto.framed .allForks,none⟩,some (call 1),[[1]]⟩

def offer : Msg := .ltBlock pairLtBlock (.ok (some [none])) true true

def answer : Msg := .reply (smallEnv.key pairBlock) [1] [call 2] true true

def asked : List Msg := [offer,answer,.block (some pairBlock) true]

end Broadcast
end Dpos
