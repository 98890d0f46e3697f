import Dpos.Merkle
import Dpos.Outcome

/-! `PreExecBlock` of `util`: the checks a block of a peer has to pass before it is
executed and stored. The modules behind the queue are parameters; of the mempool
it is promised that what it holds was checked on admission, of the executor that it
returns one receipt for each transaction. -/
namespace Dpos

open List Transaction Crypto

variable {c : Crypto}

inductive Fork
  | checkTxDup | blockHash | rootHash
  deriving DecidableEq, Repr

structure Config where
  isPara : Bool
  getFork : Fork → ℤ

def Config.isFork (cfg : Config) (height : ℤ) (fork : Fork) : Bool := height = -1 ∨ cfg.getFork fork ≤ height

structure Block where
  version : ℤ
  parentHash : Bytes
  txHash : Bytes
  stateHash : Bytes
  height : ℤ
  blockTime : ℤ
  difficulty : ℤ
  mainHash : Bytes
  mainHeight : ℤ
  signature : Option Signature
  txs : List Transaction
  deriving DecidableEq, Repr

namespace Block

def getHeaderHashOld (block : Block) : Header :=
  ⟨block.version,block.parentHash,block.txHash,[],block.height,block.blockTime,0,0⟩

def getHeaderHashNew (block : Block) : Header :=
  ⟨block.version,block.parentHash,block.txHash,block.stateHash,block.height,block.blockTime,
    block.txs.length,block.difficulty⟩

def hash (c : Crypto) (cfg : Config) (block : Block) : Bytes :=
  if cfg.isFork block.height .blockHash then c.sha256 (c.encodeHeader block.getHeaderHashNew)
  else c.sha256 (c.encodeHeader block.getHeaderHashOld)

def verifySignature (c : Crypto) (cfg : Config) (block : Block) : Bool :=
  match block.signature with
  | none => true
  | some sign => c.checkSign (block.hash c cfg) [] sign

end Block

def verifySignature (c : Crypto) (cfg : Config) (block : Block) (txs : List Transaction) : Bool :=
  block.verifySignature c cfg && txs.all (checkSign c)

/-- The mempool: whatever it holds passed the signature check on admission. -/
structure Mempool (c : Crypto) where
  sync : Bool
  cache : List Transaction
  admitted : ∀ tx ∈ cache, tx.checkSign c = true

namespace Mempool
def exist (mem : Mempool c) (hash : Bytes) : Bool := mem.cache.any fun tx => tx.hash c = hash

/-- `eventCheckTxsExist`: the flags are left out while the mempool is not in sync. -/
def checkTxsExist (mem : Mempool c) (hashes : List Bytes) : ℕ × List Bool :=
  if mem.sync then
    let existFlags := hashes.map mem.exist
    (existFlags.count true,existFlags)
  else (0,[])

end Mempool

structure KeyValue where
  key : Bytes
  value : Bytes
  deriving DecidableEq, Repr

structure Receipt where
  ty : ℤ
  kv : List KeyValue
  logs : List (ℤ × Bytes)
  deriving DecidableEq, Repr

structure ReceiptData where
  ty : ℤ
  logs : List (ℤ × Bytes)
  deriving DecidableEq, Repr

def execErr : ℤ := 0

structure ExecTxList where
  stateHash : Bytes
  parentHash : Bytes
  mainHash : Bytes
  mainHeight : ℤ
  txs : List Transaction
  blockTime : ℤ
  height : ℤ
  difficulty : ℤ

structure BlockDetail where
  block : Block
  receipts : List ReceiptData
  kv : List KeyValue
  prevStatusHash : Bytes
  deriving DecidableEq, Repr

inductive PreExecError
  | errSign | errTxDup | errBlockExec | errCheckTxHash | errCheckStateHash
  | service (text : String)
  | nilMerkleRoot
  deriving DecidableEq, Repr

/-- The replies of executor, blockchain, store and consensus. -/
structure Services where
  execTxList : ExecTxList → Except PreExecError (List Receipt)
  txHashList : List Bytes → List ℤ → ℤ → Except PreExecError (List Bytes)
  storeMemSet : Bytes → ℤ → List KeyValue → Bool → Except PreExecError Bytes
  checkBlock : BlockDetail → Except PreExecError Unit
  one_receipt_each : ∀ list receipts, execTxList list = .ok receipts → receipts.length = list.txs.length

section
variable (c : Crypto) (ncpu : ℕ) (cfg : Config)

/-- The transactions whose signature is still to be checked. -/
def unverifiedTxs (mem : Mempool c) (txs : List Transaction) : List Transaction :=
  let replyData := mem.checkTxsExist (txs.map (hash c))
  if 0 < replyData.1 then
    ((replyData.2.zip txs).filter fun (exist,_) => !exist).map Prod.snd
  else txs

def delDupTx : List Transaction → List Transaction
  | [] => []
  | tx :: txs =>
    if txs.any (fun tx' => tx'.hash c = tx.hash c) then delDupTx txs else tx :: delDupTx txs

def checkTxDup (services : Services) (txs : List Transaction) (height : ℤ) :
    Except PreExecError (List Transaction) := do
  let txs := if cfg.isFork height .checkTxDup then delDupTx c txs else txs
  let dupTxs ← services.txHashList (txs.map (hash c)) (txs.map (·.expire)) height
  return txs.filter fun tx => tx.hash c ∉ dupTxs

def execTx (services : Services) (prevStateRoot : Bytes) (block : Block) :
    Except PreExecError (List Receipt) :=
  services.execTxList ⟨prevStateRoot,block.parentHash,block.mainHash,block.mainHeight,block.txs,
    block.blockTime,block.height,block.difficulty⟩

/-- `DelDupKey`: the first position of a key, with its last value. -/
def delDupKey (kvs : List KeyValue) : List KeyValue :=
  kvs.foldl (fun kept kv =>
    if kept.any (·.key = kv.key) then kept.map fun old => if old.key = kv.key then kv else old
    else kept ++ [kv]) []

/-- The transaction root `PreExecBlock` computes. -/
def blockTxHash (block : Block) : Option Bytes :=
  let height := if cfg.isPara then block.mainHeight else block.height
  if !cfg.isFork height .rootHash then Merkle.calcMerkleRootCache c ncpu block.txs
  else Merkle.calcMerkleRoot c ncpu (cfg.isFork height .rootHash) (transactionSort block.txs)

def checkSigns (mem : Mempool c) (block : Block) (errReturn : Bool) : Except PreExecError Unit :=
  if errReturn && decide (0 < block.height) then
    if verifySignature c cfg block (unverifiedTxs c mem block.txs) then .ok ()
    else .error .errSign
  else .ok ()

/-- The duplicate check and the execution; the second execution is for a list that
got shorter. -/
def dupAndExec (services : Services) (prevStateRoot : Bytes) (block : Block) (errReturn : Bool) :
    Except PreExecError (Block × List Receipt) := do
  let cacheTxs ← checkTxDup c cfg services block.txs block.height
  if block.txs.length ≠ cacheTxs.length then
    if errReturn then .error .errTxDup
    else
      let block := {block with txs := cacheTxs}
      return (block,← execTx services prevStateRoot block)
  else return (block,← execTx services prevStateRoot block)

/-- The loop over the receipts: failed transactions are dropped, or end the
execution. -/
def keepTxs (block : Block) (receipts : List Receipt) (errReturn : Bool) :
    Except PreExecError (Block × List ReceiptData × List KeyValue × List Transaction) :=
  if errReturn && receipts.any (·.ty = execErr) then .error .errBlockExec
  else
    let results := receipts.zip block.txs
    let kept := results.filter fun result => result.1.ty ≠ execErr
    let deltxs := (results.filter fun result => result.1.ty = execErr).map Prod.snd
    .ok ({block with txs := kept.map Prod.snd},kept.map fun result => ⟨result.1.ty,result.1.logs⟩,
      kept.flatMap fun result => result.1.kv,deltxs)

def checkTxHash (block : Block) (errReturn : Bool) : Except PreExecError Block :=
  match blockTxHash c ncpu cfg block with
  | none => .error .nilMerkleRoot
  | some txHash =>
    if errReturn && decide (txHash ≠ block.txHash) then .error .errCheckTxHash
    else .ok {block with txHash := txHash}

def checkStateHash (services : Services) (prevStateRoot : Bytes) (block : Block)
    (kvset : List KeyValue) (errReturn sync : Bool) : Except PreExecError Block := do
  let stateHash ← services.storeMemSet prevStateRoot block.height kvset sync
  if errReturn && decide (block.stateHash ≠ stateHash) then .error .errCheckStateHash
  else return {block with stateHash := stateHash}

/-- The consensus module has the last word on blocks above the genesis block. -/
def checkDetail (services : Services) (detail : BlockDetail) (checkblock : Bool) :
    Except PreExecError Unit :=
  if decide (0 < detail.block.height) && checkblock then services.checkBlock detail else .ok ()

def preExecBlock (mem : Mempool c) (services : Services) (prevStateRoot : Bytes) (block : Block)
    (errReturn sync checkblock : Bool) : Except PreExecError (BlockDetail × List Transaction) := do
  checkSigns c cfg mem block errReturn
  let (block,receipts) ← dupAndExec c cfg services prevStateRoot block errReturn
  let (block,rdata,kvset,deltxs) ← keepTxs block receipts errReturn
  let block ← checkTxHash c ncpu cfg block errReturn
  let kvset := delDupKey kvset
  let block ← checkStateHash services prevStateRoot block kvset errReturn sync
  checkDetail services ⟨block,rdata,[],[]⟩ checkblock
  return (⟨block,rdata,kvset,prevStateRoot⟩,deltxs)

end

/-! ### What acceptance means -/

section
variable {ncpu : ℕ} {cfg : Config} (swap : Bool) (mem : Mempool c)

lemma mem_exist_iff (hash : Bytes) : mem.exist hash = true ↔ ∃ tx ∈ mem.cache, tx.hash c = hash := by
  simp [Mempool.exist]

lemma checkTxsExist_pos (hashes : List Bytes) :
    0 < (mem.checkTxsExist hashes).1 ↔ mem.sync = true ∧ ∃ hash ∈ hashes, mem.exist hash = true := by
  unfold Mempool.checkTxsExist
  split_ifs with hs
  · simp [hs,count_pos_iff]
  · simp [hs]

variable {txs : List Transaction} {services : Services} {block block' : Block}
  {root : Bytes}

lemma mem_unverifiedTxs {tx : Transaction} : tx ∈ unverifiedTxs c mem txs ↔
      tx ∈ txs ∧ ¬(mem.sync = true ∧ mem.exist (tx.hash c) = true) := by
  simp only [unverifiedTxs]
  split_ifs with hp
  · have hs := ((checkTxsExist_pos mem _).mp hp).1
    have hz : ((txs.map (hash c)).map mem.exist).zip txs =
        txs.map fun tx => (mem.exist (tx.hash c),tx) := by
      rw [map_map,← map_id txs,map_map,zip_map',map_map]
      rfl
    simp only [Mempool.checkTxsExist,hs,if_true,hz]
    simp
  · rw [checkTxsExist_pos] at hp
    simp only [iff_self_and]
    rintro ht ⟨hs,he⟩
    exact hp ⟨hs,_,mem_map_of_mem ht,he⟩

lemma delDupTx_sublist (txs : List Transaction) : (delDupTx c txs).Sublist txs := by
  induction txs with
  | nil => simp [delDupTx]
  | cons tx txs ih =>
    unfold delDupTx
    split_ifs
    · exact ih.trans (sublist_cons_self tx txs)
    · exact ih.cons_cons tx

lemma nodup_map_hash_delDupTx (txs : List Transaction) : ((delDupTx c txs).map (hash c)).Nodup := by
  induction txs with
  | nil => simp [delDupTx]
  | cons tx txs ih =>
    unfold delDupTx
    split_ifs with h
    · exact ih
    · refine nodup_cons.mpr ⟨?_,ih⟩
      intro hm
      obtain ⟨tx',ht',he⟩ := mem_map.mp hm
      exact h (any_eq_true.mpr ⟨tx',(delDupTx_sublist txs).subset ht',by simpa using he⟩)

lemma checkTxDup_spec {cts : List Transaction} {height : ℤ}
    (h : checkTxDup c cfg services txs height = .ok cts) : cts.Sublist txs ∧
      (cfg.isFork height .checkTxDup = true → (cts.map (hash c)).Nodup) := by
  obtain ⟨dts,_,h⟩ := bind_eq_ok.mp h
  cases h
  by_cases hf : cfg.isFork height .checkTxDup = true
  · simp only [hf,if_true,forall_const]
    exact ⟨filter_sublist.trans (delDupTx_sublist txs),
      (filter_sublist.map _).nodup (nodup_map_hash_delDupTx txs)⟩
  · simp only [hf,Bool.false_eq_true,if_false,false_implies,and_true]
    exact filter_sublist

/-- What a block that passed `PreExecBlock` with `errReturn` is known to satisfy. -/
structure Accepted (c : Crypto) (ncpu : ℕ) (cfg : Config) (mem : Mempool c) (block : Block)
    (detail : BlockDetail) : Prop where
  signs : 0 < block.height → verifySignature c cfg block (unverifiedTxs c mem block.txs) = true
  nodup : cfg.isFork block.height .checkTxDup = true → (block.txs.map (hash c)).Nodup
  root : blockTxHash c ncpu cfg block = some block.txHash
  unchanged : detail.block = block

variable {mem : Mempool c} {receipts : List Receipt} {sync : Bool}

lemma checkSigns_ok {u : Unit} (h : checkSigns c cfg mem block true = .ok u) (hheight : 0 < block.height) :
    verifySignature c cfg block (unverifiedTxs c mem block.txs) = true := by
  simp only [checkSigns,hheight,decide_true,Bool.and_self,if_true] at h
  split_ifs at h with hs
  exact hs

lemma dupAndExec_ok (h : dupAndExec c cfg services root block true = .ok (block',receipts)) :
    block' = block ∧ receipts.length = block.txs.length ∧
      (cfg.isFork block.height .checkTxDup = true → (block.txs.map (hash c)).Nodup) := by
  obtain ⟨cts,hd,h⟩ := bind_eq_ok.mp h
  simp only [if_true,ite_error_eq_ok,not_not] at h
  obtain ⟨hl,h⟩ := h
  obtain ⟨receipts',he,h⟩ := bind_eq_ok.mp h
  cases h
  obtain ⟨hs,hn⟩ := checkTxDup_spec hd
  obtain rfl := hs.eq_of_length hl.symm
  exact ⟨rfl,services.one_receipt_each _ _ he,hn⟩

lemma keepTxs_ok {rest : List ReceiptData × List KeyValue × List Transaction}
    (h : keepTxs block receipts true = .ok (block',rest))
    (hl : receipts.length = block.txs.length) : block' = block := by
  simp only [keepTxs,Bool.true_and,ite_error_eq_ok,Bool.not_eq_true] at h
  obtain ⟨ho,h⟩ := h
  cases h
  have hk : ((receipts.zip block.txs).filter fun re => re.1.ty ≠ execErr) =
      receipts.zip block.txs := by
    apply filter_eq_self.mpr
    rintro ⟨r,tx⟩ hm
    have := any_eq_false.mp ho r (of_mem_zip hm).1
    simpa using this
  rw [hk,map_snd_zip hl.ge]

lemma checkTxHash_ok (h : checkTxHash c ncpu cfg block true = .ok block') :
    block' = block ∧ blockTxHash c ncpu cfg block = some block.txHash := by
  unfold checkTxHash at h
  split at h
  · cases h
  · rename_i txHash hr
    simp only [Bool.true_and,ite_error_eq_ok,decide_eq_true_eq,not_not] at h
    obtain ⟨rfl,h⟩ := h
    exact ⟨(Except.ok.inj h).symm,hr⟩

lemma checkStateHash_ok {k : List KeyValue}
    (h : checkStateHash services root block k true sync = .ok block') : block' = block := by
  obtain ⟨sh,_,h⟩ := bind_eq_ok.mp h
  simp only [Bool.true_and,ite_error_eq_ok,decide_eq_true_eq,not_not] at h
  obtain ⟨rfl,h⟩ := h
  exact (Except.ok.inj h).symm

lemma preExecBlock_accepted {ch : Bool} {detail : BlockDetail} {ds : List Transaction}
    (h : preExecBlock c ncpu cfg mem services root block true sync ch = .ok (detail,ds)) :
    Accepted c ncpu cfg mem block detail := by
  obtain ⟨_,hs,h⟩ := bind_eq_ok.mp h
  obtain ⟨⟨block1,receipts⟩,he,h⟩ := bind_eq_ok.mp h
  obtain ⟨⟨block2,r,k,ds'⟩,hk,h⟩ := bind_eq_ok.mp h
  obtain ⟨block3,hr,h⟩ := bind_eq_ok.mp h
  obtain ⟨block4,hst,h⟩ := bind_eq_ok.mp h
  obtain ⟨_,_,hd⟩ := bind_eq_ok.mp h
  obtain ⟨rfl,hl,hn⟩ := dupAndExec_ok he
  obtain rfl := keepTxs_ok hk hl
  obtain ⟨rfl,ht⟩ := checkTxHash_ok hr
  obtain rfl := checkStateHash_ok hst
  cases hd
  exact ⟨checkSigns_ok hs,hn,ht,rfl⟩

def Services.agreeing : Services where
  execTxList list := .ok (list.txs.map fun _ => ⟨2,[],[]⟩)
  txHashList _ _ _ := .ok []
  storeMemSet _ _ _ _ := .ok []
  checkBlock _ := .ok ()
  one_receipt_each := by
    intro list receipts h
    rw [← Except.ok.inj h,length_map]

/-- A main chain with every fork active from the start. -/
def Config.allForks : Config := ⟨false,fun _ => 0⟩

def signedCall (execer : Bytes) : Transaction :=
  let tx : Transaction := ⟨execer,[],none,0,0,0,[],0,[],[]⟩
  {tx with signature := some ⟨1,[],framed.encodeTx tx⟩}

def Block.ofTxs (txHash : Bytes) (txs : List Transaction) : Block := ⟨0,[],txHash,[],1,0,0,[],0,none,txs⟩

/-- A block above genesis is accepted with all its signatures valid exactly if the
transactions the mempool vouches for by hash carry valid signatures of their own. -/
theorem preExecBlock_signed_iff {mem : Mempool c} {services : Services} {root : Bytes}
    {block : Block} {sync checkblock : Bool} {detail : BlockDetail} {deltxs : List Transaction}
    (h : preExecBlock c ncpu cfg mem services root block true sync checkblock =
      .ok (detail,deltxs)) (hheight : 0 < block.height) : (∀ tx ∈ detail.block.txs, tx.checkSign c = true) ↔
      ∀ tx ∈ block.txs, mem.sync = true → (∃ tx' ∈ mem.cache, tx'.hash c = tx.hash c) →
        tx.checkSign c = true := by
  have ha := preExecBlock_accepted h
  rw [ha.unchanged]
  constructor
  · intro hal tx ht _ _
    exact hal tx ht
  · intro hk tx ht
    by_cases he : mem.sync = true ∧ mem.exist (tx.hash c) = true
    · exact hk tx ht he.1 ((mem_exist_iff mem _).mp he.2)
    · have hs := ha.signs hheight
      rw [verifySignature,Bool.and_eq_true,all_eq_true] at hs
      exact hs.2 tx ((mem_unverifiedTxs mem).mpr ⟨ht,he⟩)

/-- The mempool vouches for the first of two signed calls. -/
theorem preExecBlock_signed_iff_vouched : ∃ root detail,
    preExecBlock framed 1 .allForks ⟨true,[signedCall [1]],by decide⟩ .agreeing []
      (.ofTxs root [signedCall [1],signedCall [2]])
      true false true = .ok (detail,[]) ∧ detail.block.txs = [signedCall [1],signedCall [2]] ∧
      ∀ tx ∈ detail.block.txs, tx.checkSign framed = true := by
  let root := (Merkle.calcMerkleRoot framed 1 true [signedCall [1],signedCall [2]]).getD []
  have h : preExecBlock framed 1 .allForks ⟨true,[signedCall [1]],by decide⟩ .agreeing []
      (.ofTxs root [signedCall [1],signedCall [2]]) true false true =
        .ok (⟨.ofTxs root [signedCall [1],signedCall [2]],[⟨2,[]⟩,⟨2,[]⟩],[],[]⟩,[]) := by decide +kernel
  exact ⟨root,_,h,rfl,(preExecBlock_signed_iff h (by decide)).mpr (by decide)⟩

/-- The mempool holds a signed call; the block holds the same call without a
signature. -/
theorem preExecBlock_unsigned_accepted : ∃ (mem : Mempool framed) (block : Block) (detail : BlockDetail),
      0 < block.height ∧ preExecBlock framed 1 .allForks mem .agreeing [] block true false true =
        .ok (detail,[]) ∧ ∃ tx ∈ detail.block.txs, tx.checkSign framed = false := by
  refine ⟨⟨true,[signedCall [1]],by decide⟩,
    .ofTxs (fullHash framed {signedCall [1] with signature := none})
      [{signedCall [1] with signature := none}],
    ⟨.ofTxs (fullHash framed {signedCall [1] with signature := none})
      [{signedCall [1] with signature := none}],[⟨2,[]⟩],[],[]⟩,by decide,?_,_,mem_singleton_self _,rfl⟩
  decide +kernel

lemma Block.hash_inj (hc : c.Ideal) (h : block.hash c cfg = block'.hash c cfg) :
    block.height = block'.height ∧ block.txHash = block'.txHash ∧ block.parentHash = block'.parentHash := by
  unfold Block.hash at h
  split_ifs at h <;>
    have he := hc.encodeHeader_injective (hc.sha256_injective h) <;>
    exact ⟨congrArg Header.height he,congrArg Header.txHash he,congrArg Header.parentHash he⟩

lemma blockTxHash_multiLayer {r : Bytes} (h : blockTxHash c ncpu cfg block = some r)
    (hf : cfg.isFork (if cfg.isPara then block.mainHeight else block.height) .rootHash = true) :
    ∃ cs, Merkle.calcMultiLayerMerkleInfo c ncpu (transactionSort block.txs) = some (r,cs) := by
  simp only [blockTxHash,Merkle.calcMerkleRoot,hf,Bool.not_true,Bool.false_eq_true,if_false,
    Option.map_eq_some_iff] at h
  obtain ⟨⟨r',cs⟩,hr,rfl⟩ := h
  exact ⟨cs,hr⟩

lemma firsts_fullHash_transactionSort (hc : c.Ideal) (h : (txs.map (hash c)).Nodup) :
    firsts ((transactionSort txs).map (fullHash c)) =
      (transactionSort txs).map (fullHash c) :=
  firsts_of_nodup ((nodup_transactionSort h.of_map).map (fullHash_injective hc))

/-- The transactions of a block are fixed by its hash up to the order between
titles. -/
theorem preExecBlock_binds (hc : c.Ideal) {mem mem' : Mempool c} {services services' : Services}
    {ncpu' : ℕ} {root prevStateRoot' : Bytes} {block block' : Block}
    {sync checkblock sync' checkblock' : Bool} {detail detail' : BlockDetail}
    {deltxs deltxs' : List Transaction}
    (h : preExecBlock c ncpu cfg mem services root block true sync checkblock = .ok (detail,deltxs))
    (h' : preExecBlock c ncpu' cfg mem' services' prevStateRoot' block' true sync' checkblock' =
      .ok (detail',deltxs'))
    (hr : cfg.isFork (if cfg.isPara then block.mainHeight else block.height) .rootHash = true)
    (hr' : cfg.isFork (if cfg.isPara then block'.mainHeight else block'.height) .rootHash = true)
    (hd : cfg.isFork block.height .checkTxDup = true) (hap : ∀ tx ∈ block.txs ++ block'.txs, c.Apart tx)
    (hh : block.hash c cfg = block'.hash c cfg) :
    transactionSort detail.block.txs = transactionSort detail'.block.txs ∧
      ∀ title, detail.block.txs.filter (·.title = title) = detail'.block.txs.filter (·.title = title) := by
  have ha := preExecBlock_accepted h
  have ha' := preExecBlock_accepted h'
  obtain ⟨hheight,ht,-⟩ := Block.hash_inj hc hh
  obtain ⟨chains,hi⟩ := blockTxHash_multiLayer ha.root hr
  obtain ⟨chains',hi'⟩ := blockTxHash_multiLayer ha'.root hr'
  rw [← ht] at hi'
  have hf := Merkle.calcMultiLayerMerkleInfo_binds hc
    (fun tx htx => hap tx (mem_append_left _ (mem_transactionSort.mp htx)))
    (fun tx htx => hap tx (mem_append_right _ (mem_transactionSort.mp htx))) hi hi'
  rw [firsts_fullHash_transactionSort hc (ha.nodup hd),
    firsts_fullHash_transactionSort hc (ha'.nodup (hheight ▸ hd))] at hf
  have hs := map_injective_iff.mpr (fullHash_injective hc) hf
  rw [ha.unchanged,ha'.unchanged]
  refine ⟨hs,fun title => ?_⟩
  rw [← filter_transactionSort block.txs,← filter_transactionSort block'.txs,hs]

/-- Calls of two para chains, in the order given. -/
def twoTitles (swap : Bool) : Block :=
  let a := signedCall (Bytes.ofString "user.p.a.x")
  let b := signedCall (Bytes.ofString "user.p.b.x")
  .ofTxs (Merkle.getHashFromTwoHash framed (a.fullHash framed)
    (b.fullHash framed)) (if swap then [b,a] else [a,b])

lemma preExecBlock_twoTitles :
    preExecBlock framed 1 .allForks ⟨true,[],by simp⟩ .agreeing [] (twoTitles swap)
      true false true = .ok (⟨twoTitles swap,[⟨2,[]⟩,⟨2,[]⟩],[],[]⟩,[]) := by
  cases swap <;> decide +kernel

lemma hash_twoTitles (c : Crypto) (cfg : Config) :
    (twoTitles false).hash c cfg = (twoTitles true).hash c cfg := by
  simp only [Block.hash,Block.getHeaderHashNew,Block.getHeaderHashOld,twoTitles,Block.ofTxs,
    Bool.false_eq_true,if_false,if_true,length_cons,length_nil]

lemma isFork_twoTitles (f : Fork) : Config.allForks.isFork (twoTitles swap).height f = true := by
  simp [Config.isFork,Config.allForks,twoTitles,Block.ofTxs]

theorem preExecBlock_binds_twoTitles :
    transactionSort (twoTitles false).txs = transactionSort (twoTitles true).txs := by
  have h := preExecBlock_binds framed_ideal (preExecBlock_twoTitles false)
    (preExecBlock_twoTitles true) (isFork_twoTitles false _) (isFork_twoTitles true _)
    (isFork_twoTitles false _) (fun tx _ => framed_apart tx) (hash_twoTitles _ _)
  exact h.1

/-- Both orders are accepted, under one hash. -/
theorem preExecBlock_order_free : ∃ (block block' : Block) (detail detail' : BlockDetail),
      preExecBlock framed 1 .allForks ⟨true,[],by simp⟩ .agreeing [] block true false true =
        .ok (detail,[]) ∧
      preExecBlock framed 1 .allForks ⟨true,[],by simp⟩ .agreeing [] block' true false true =
        .ok (detail',[]) ∧ block.parentHash = block'.parentHash ∧
      block.hash framed .allForks = block'.hash framed .allForks ∧
      detail.block.txs ≠ detail'.block.txs := by
  have ht : (twoTitles false).txs ≠ (twoTitles true).txs := by decide +kernel
  refine ⟨twoTitles false,twoTitles true,⟨twoTitles false,[⟨2,[]⟩,⟨2,[]⟩],[],[]⟩,
    ⟨twoTitles true,[⟨2,[]⟩,⟨2,[]⟩],[],[]⟩,preExecBlock_twoTitles false,
    preExecBlock_twoTitles true,?_,hash_twoTitles _ _,ht⟩
  rw [twoTitles,twoTitles,Block.ofTxs,Block.ofTxs]

end

section
open Function
variable (c : Crypto)

/-- The first loop of `DelDupTx`, from index `i` on: the last index of every hash, and whether a
hash was there before. -/
def dupindex : List Transaction → ℕ → (Bytes → Option ℕ) → Bool → (Bytes → Option ℕ) × Bool
  | [],_,last,hasdup => (last,hasdup)
  | tx :: txs,i,last,hasdup =>
    dupindex txs (i+1) (update last (tx.hash c) i) (hasdup || (last (tx.hash c)).isSome)

/-- The second loop, with `n` turns left. It reads the slice that it writes to. -/
def moveLast (last : Bytes → Option ℕ) : ℕ → ℕ → ℕ → List Transaction → List Transaction
  | 0,_,index,txs => txs.take index
  | n+1,i,index,txs =>
    match txs[i]? with
    | none => []
    | some tx => if last (tx.hash c) = some i then moveLast last n (i+1) (index+1) (txs.set index tx)
      else moveLast last n (i+1) index txs

def delDupTxInPlace (txs : List Transaction) : List Transaction :=
  let r := dupindex c txs 0 (fun _ => none) false
  if r.2 then moveLast c r.1 txs.length 0 0 txs else txs

/-- The transactions whose hash does not occur behind them. -/
def lastTxs (txs : List Transaction) : List Transaction :=
  (txs.zipIdx.filter fun tx => ∀ tx' ∈ txs.drop (tx.2+1), tx'.hash c ≠ tx.1.hash c).map Prod.fst

variable {c} {txs : List Transaction} {i : ℕ} {last : Bytes → Option ℕ} {hasdup : Bool}

lemma delDupTx_eq_lastTxs (txs : List Transaction) : delDupTx c txs = lastTxs c txs := by
  induction txs with
  | nil => rfl
  | cons tx txs ih =>
    have hs : txs.zipIdx 1 = txs.zipIdx.map fun p => (p.1,p.2+1) := zipIdx_succ
    rw [delDupTx,ih,lastTxs,lastTxs,zipIdx_cons,zero_add,hs,filter_cons,filter_map]
    by_cases h : ∃ tx' ∈ txs, tx'.hash c = tx.hash c
    · rw [if_pos (by simpa using h),if_neg (by simpa using h),map_map]
      rfl
    · rw [if_neg (by simpa using h),if_pos (by simpa using h),map_cons,map_map]
      rfl

lemma dupindex_cases (h : Bytes) : (∀ tx ∈ txs, tx.hash c ≠ h) ∧ (dupindex c txs i last hasdup).1 h = last h ∨
    (∃ tx ∈ txs, tx.hash c = h) ∧ ∃ k ≥ i, (dupindex c txs i last hasdup).1 h = some k := by
  induction txs generalizing i last hasdup with
  | nil => exact .inl ⟨by simp,rfl⟩
  | cons tx txs ih =>
    rcases @ih (i+1) (update last (tx.hash c) i) (hasdup || (last (tx.hash c)).isSome) with
      ⟨hn,he⟩ | ⟨⟨tx',ht,he⟩,k,hk,hl⟩
    · rcases eq_or_ne (tx.hash c) h with rfl | ht
      · exact .inr ⟨⟨tx,mem_cons_self,rfl⟩,i,le_rfl,he.trans (update_self ..)⟩
      · exact .inl ⟨forall_mem_cons.mpr ⟨ht,hn⟩,he.trans (update_of_ne ht.symm ..)⟩
    · exact .inr ⟨⟨tx',mem_cons_of_mem _ ht,he⟩,k,by omega,hl⟩

lemma delDupTx_of_not_hasdup (h : (dupindex c txs i last hasdup).2 = false) :
    hasdup = false ∧ (∀ tx ∈ txs, last (tx.hash c) = none) ∧ delDupTx c txs = txs := by
  induction txs generalizing i last hasdup with
  | nil => exact ⟨h,by simp,rfl⟩
  | cons tx txs ih =>
    obtain ⟨hd,hn,he⟩ := ih h
    obtain ⟨hd,ht⟩ := Bool.or_eq_false_iff.mp hd
    have hne : ∀ tx' ∈ txs, tx'.hash c ≠ tx.hash c := by
      intro tx' hm heq
      have hu := hn tx' hm
      rw [heq,update_self] at hu
      cases hu
    refine ⟨hd,forall_mem_cons.mpr ⟨by simpa using ht,fun tx' hm => ?_⟩,?_⟩
    · rw [← hn tx' hm,update_of_ne (hne tx' hm)]
    · rw [delDupTx,if_neg (by simpa using hne),he]

/-- What is kept so far stands in front, and what is still to be read is as it was. -/
theorem moveLast_eq (kept junk : List Transaction) :
    moveLast c (dupindex c txs (kept.length+junk.length) last hasdup).1 txs.length (kept.length+junk.length)
      kept.length (kept ++ junk ++ txs) = kept ++ delDupTx c txs := by
  induction txs generalizing kept junk last hasdup with
  | nil => simp [moveLast,delDupTx]
  | cons tx txs ih =>
    have hi : (kept ++ junk ++ tx :: txs)[kept.length+junk.length]? = some tx := by simp
    rw [length_cons,moveLast,hi,dupindex,delDupTx]
    dsimp only
    rcases dupindex_cases (tx.hash c) with ⟨hn,hl⟩ | ⟨ht,k,hk,hl⟩
    · obtain ⟨junk',hj,hs⟩ : ∃ junk' : List Transaction, junk'.length = junk.length ∧
          (kept ++ junk ++ tx :: txs).set kept.length tx = kept ++ [tx] ++ junk' ++ txs := by
        rcases junk with - | ⟨y,junk⟩
        · exact ⟨[],rfl,by simp⟩
        · exact ⟨junk ++ [tx],by simp,by simp⟩
      have hk := @ih (update last (tx.hash c) ↑(kept.length+junk.length)) (hasdup || (last (tx.hash c)).isSome)
        (kept ++ [tx]) junk'
      rw [length_append,length_singleton,hj,add_right_comm] at hk
      rw [hl,update_self,if_pos rfl,hs,hk,if_neg (by simpa using hn),append_assoc,singleton_append]
    · have hk' := @ih (update last (tx.hash c) ↑(kept.length+junk.length)) (hasdup || (last (tx.hash c)).isSome)
        kept (junk ++ [tx])
      rw [length_append,length_singleton,← add_assoc,← append_assoc,append_assoc _ [tx],singleton_append] at hk'
      rw [hl,if_neg (by simp; omega),hk',if_pos (by simpa using ht)]

/-- `DelDupTx` keeps the last one of each hash, and `CheckTxDup` those of them that are not reported. -/
theorem checkTxDup_keeps_last (cfg : Config) (services : Services) (height : ℤ) (txs : List Transaction) :
    delDupTxInPlace c txs = lastTxs c txs ∧ (cfg.isFork height .checkTxDup = true →
      checkTxDup c cfg services txs height =
        (services.txHashList ((lastTxs c txs).map (hash c)) ((lastTxs c txs).map (·.expire)) height).map
          fun dupTxs => (lastTxs c txs).filter fun tx => tx.hash c ∉ dupTxs) := by
  constructor
  · rw [delDupTxInPlace,← delDupTx_eq_lastTxs]
    split_ifs with h
    · exact moveLast_eq [] []
    · exact (delDupTx_of_not_hasdup (Bool.eq_false_iff.mpr h)).2.2.symm
  · intro hf
    rw [checkTxDup,if_pos hf,delDupTx_eq_lastTxs]
    cases services.txHashList ((lastTxs c txs).map (hash c)) ((lastTxs c txs).map (·.expire)) height <;> rfl

end
end Dpos
