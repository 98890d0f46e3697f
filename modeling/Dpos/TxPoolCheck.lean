import Dpos.TxPoolRun

/-! The way of a transaction into the mempool, as in `check.go`: the checks of `checkTxs`,
the signatures, and `checkTxRemote`, which asks the blockchain and the executor. -/
namespace Dpos.TxPool
open TxGroup

inductive CheckErr
  | tx (err : TxErr)
  | push (err : PushErr)
  | invalidAddress | manyTx | headerNotSet | txExpire | sign | dupTx
  | remote (msg : String)
  deriving DecidableEq, Repr

/-- The configuration of the mempool and of the chain, and the functions of other packages. -/
structure Env where
  c : Crypto
  su : TxCache.Setup
  decode : Bytes → Option (List Transaction)
  pubKeyToAddr : Bytes → Bytes
  checkAddress : Bytes → Bool
  forkBlockCheck : ℤ → Bool
  forkTxGroupPara : ℤ → Bool
  maxTxNumber : ℤ → ℤ
  minTxFeeRate : ℤ
  maxTxFeeRate : ℤ
  maxTxFee : ℤ
  isLevelFee : Bool
  disableExecCheck : Bool
  maxTxNumPerAccount : ℤ

/-- The answers of the blockchain and of the executor. -/
structure Remote where
  checkDupTx : List Transaction → ℤ → Except String (List Transaction)
  checkTx : Transaction → Header → Except String Unit

structure Pool where
  cache : Cache
  header : Option Header

section
variable (env : Env) (pool : Pool)

def check (height : ℤ) (tx : Transaction) : Except TxErr Unit := do
  match ← getTxGroup env.decode tx with
  | none => tx.check (env.forkBlockCheck height) env.minTxFeeRate env.maxTxFee
  | some txs =>
    checkWithFork env.c (env.forkBlockCheck height) (env.forkBlockCheck height) (env.forkTxGroupPara height)
      env.minTxFeeRate env.maxTxFee txs

/-- A time as the expiry has to leave a minute. -/
def checkExpireValid (header : Header) (now : ℤ) (tx : Transaction) : Bool :=
  !isExpire env.su env.decode tx header.height header.blockTime && !(1000000000 < tx.expire && tx.expire < now+60)

def height : ℤ := (pool.header.map Header.height).getD (-1)

def maxBlockSize : ℤ := 20000000

def getLevelFeeRate (baseFeeRate appendCount appendSize : ℤ) : ℤ :=
  let sumByte := Word.wrap 64 (pool.cache.qcache.cacheBytes+appendSize)
  let maxTxNumber := env.maxTxNumber (height pool)
  let count := (pool.cache.qcache.txList.size : ℤ)+appendCount
  let feeRate :=
    if maxBlockSize.tdiv 20 ≤ sumByte ∨ maxTxNumber.tdiv 2 ≤ count then Word.wrap 64 (100*baseFeeRate)
    else if maxBlockSize.tdiv 100 ≤ sumByte ∨ maxTxNumber.tdiv 10 ≤ count then Word.wrap 64 (10*baseFeeRate)
    else baseFeeRate
  if env.maxTxFeeRate < feeRate then env.maxTxFeeRate else feeRate

def getTotalFee (minFee : ℤ) (tx : Transaction) : Except TxErr ℤ := do
  match ← getTxGroup env.decode tx with
  | none => tx.getRealFee minFee
  | some txs =>
    let fees ← txs.mapM (Transaction.getRealFee minFee)
    return fees.foldl (fun totalfee fee => Word.wrap 64 (totalfee+fee)) 0

def checkLevelFee (tx : Transaction) : Except TxErr Unit := do
  let totalfee ← getTotalFee env (getLevelFeeRate env pool env.minTxFeeRate 0 0) tx
  if tx.fee < totalfee then .error .txFeeTooLow else .ok ()

/-- `checkTx`, for a transaction on its own or a member of a group. -/
def checkTx (now : ℤ) (tx : Transaction) : Except CheckErr Unit :=
  if !env.checkAddress tx.toAddr then .error .invalidAddress
  else if env.maxTxNumPerAccount ≤ pool.cache.index.txNumOfAccount (fromAddr env.pubKeyToAddr tx) then .error .manyTx
  else
    match pool.header with
    | none => .error .headerNotSet
    | some header => if checkExpireValid env header now tx then .ok () else .error .txExpire

/-- `checkTxs`; a header that is not set yet counts as one of height 0. -/
def checkTxs (now : ℤ) (tx : Transaction) : Except CheckErr Unit := do
  (check env ((pool.header.map Header.height).getD 0) tx).mapError .tx
  if env.isLevelFee then (checkLevelFee env pool tx).mapError .tx
  match ← (getTxGroup env.decode tx).mapError .tx with
  | none => checkTx env pool now tx
  | some txs => txs.forM (checkTx env pool now)

def checkSign (tx : Transaction) : Bool :=
  match getTxGroup env.decode tx with
  | .error _ => false
  | .ok none => tx.checkSign env.c
  | .ok (some txs) => txs.all (Transaction.checkSign env.c)

/-- `checkTxRemote`, which ends with the push. -/
def checkTxRemote (remote : Remote) (now : ℤ) (tx : Transaction) : Except CheckErr Cache := do
  match pool.header with
  | none => .error .headerNotSet
  | some lastheader =>
    let txGroup ← (getTxGroup env.decode tx).mapError .tx
    let txs := txGroup.getD [tx]
    let newtxs ← (remote.checkDupTx txs lastheader.height).mapError .remote
    if newtxs.length ≠ txs.length then .error .dupTx
    else do
      if !env.disableExecCheck then (remote.checkTx tx lastheader).mapError .remote
      match pool.cache.push env.c env.pubKeyToAddr now tx with
      | (.ok _,cache) => .ok cache
      | (.error err,_) => .error (.push err)

/-- A transaction passes the stages one after the other; the pool may change in between. -/
def Admitted (remote : Remote) (pools : Pool × Pool) (times : ℤ × ℤ) (tx : Transaction) (cache : Cache) : Prop :=
  checkTxs env pools.1 times.1 tx = .ok () ∧ checkSign env tx = true ∧
    checkTxRemote env pools.2 remote times.2 tx = .ok cache

variable {env}

/-- What the checks look at in a group is the group that is packed in the header. -/
theorem check_group {height : ℤ} {tx : Transaction} (h : check env height tx = .ok ()) (hct : tx.groupCount ≠ 0) :
    ∃ head rest, env.decode tx.header = some (head :: rest) ∧
      ∀ m ∈ head :: rest, m.header = head.hash env.c := by
  obtain ⟨g,hg,hc⟩ := bind_eq_ok.mp h
  unfold getTxGroup at hg
  split_ifs at hg with hb hp hn
  · cases hd : env.decode tx.header with
    | none =>
      rw [hd] at hg
      cases hg
    | some txs =>
      rw [hd] at hg
      cases hg
      obtain ⟨head,rest,rfl,-,hh⟩ := checkWithFork_chain hc
      exact ⟨head,rest,rfl,fun tx ht => (hh tx ht).1⟩
  · omega

section
variable {c : Crypto} {toAddr : Bytes → Bytes} {cache cache' : Cache} {now : ℤ} {tx : Transaction} {key : Bytes} {u : Unit}

/-- The pool has a transaction under a key: it is found there, what has that hash is refused, and it goes with that hash
and no other. -/
structure KeyedBy (c : Crypto) (toAddr : Bytes → Bytes) (cache : Cache) (tx : Transaction) (key : Bytes) : Prop where
  found : cache.txAt key = some tx
  refused : ∀ now tx', tx'.hash c = key → (cache.push c toAddr now tx').1 ≠ .ok ()
  removed : ∀ hashes, tx ∈ (cache.removeTxs c toAddr hashes).held ↔ key ∉ hashes

namespace Cache.Inv

lemma mem_held_removeTxs (h : cache.Inv c toAddr) (hashes : List Bytes) :
    tx ∈ (cache.removeTxs c toAddr hashes).held ↔ tx ∈ cache.held ∧ tx.hash c ∉ hashes := by
  induction hashes generalizing cache with
  | nil => simp [Cache.removeTxs]
  | cons hash hashes ih =>
    refine (ih (h.remove hash)).trans ?_
    rw [h.mem_held_remove,List.mem_cons,not_or,and_assoc]

lemma keyedBy (h : cache.Inv c toAddr) (ha : cache.txAt key = some tx) : KeyedBy c toAddr cache tx key := by
  obtain rfl := h.keyed key tx ha
  refine ⟨ha,fun now tx' he hp => ?_,fun hashes => ?_⟩
  · obtain ⟨i,hi,-⟩ := Option.map_eq_some_iff.mp ha
    have hex : cache.qcache.exist (tx'.hash c) = true := by
      rw [he,SimpleQueue.exist,h.queue.exist_iff]
      exact Option.isSome_iff_exists.mpr ⟨i,hi⟩
    rw [Cache.push] at hp
    split_ifs at hp
    · simp [SimpleQueue.push,hex] at hp
  · rw [h.mem_held_removeTxs,h.mem_held]
    exact and_iff_right ha

lemma txAt_push (h : cache.Inv c toAddr) (hp : cache.push c toAddr now tx = (.ok u,cache')) :
    cache'.txAt (tx.hash c) = some tx := by
  rw [Cache.push] at hp
  split_ifs at hp
  swap
  · cases hp
  split at hp
  · cases hp
  next q hq =>
  split at hp
  · cases hp
  cases hp
  rw [SimpleQueue.push] at hq
  split_ifs at hq with he
  cases hq
  have hn : cache.qcache.txList.getItem (tx.hash c) = none := by
    simpa [SimpleQueue.exist,h.queue.exist_iff] using he
  simp [Cache.txAt,SimpleQueue.getItem,h.queue.getItem_push hn]

end Cache.Inv

end

lemma push_of_checkTxRemote {remote : Remote} {pool : Pool} {now : ℤ} {tx : Transaction} {cache : Cache}
    (h : checkTxRemote env pool remote now tx = .ok cache) :
    ∃ u, pool.cache.push env.c env.pubKeyToAddr now tx = (.ok u,cache) := by
  rw [checkTxRemote] at h
  split at h
  · cases h
  obtain ⟨_,-,h⟩ := bind_eq_ok.mp h
  obtain ⟨_,-,h⟩ := bind_eq_ok.mp h
  have hp : ∀ {r : Except PushErr Unit × Cache}, (match r with
      | (.ok _,cache) => .ok cache
      | (.error err,_) => .error (CheckErr.push err)) = Except.ok cache → ∃ u, r = (.ok u,cache) := by
    rintro ⟨_ | u,cache'⟩ h
    · cases h
    · cases h
      exact ⟨u,rfl⟩
  split_ifs at h
  · obtain ⟨_,-,h⟩ := bind_eq_ok.mp h
    exact hp h
  · exact hp h

/-- An admitted group is in the pool under its own hash, and under the hash of its first transaction, which will be in a
block, exactly if it repeats the fields of that one. -/
theorem admitted_key_iff (hc : env.c.Ideal) {remote : Remote} {pools : Pool × Pool} {times : ℤ × ℤ} {tx : Transaction}
    {cache : Cache} (hi : pools.2.cache.Inv env.c env.pubKeyToAddr) (h : Admitted env remote pools times tx cache)
    (hct : tx.groupCount ≠ 0) : ∃ head rest, env.decode tx.header = some (head :: rest) ∧
      KeyedBy env.c env.pubKeyToAddr cache tx (tx.hash env.c) ∧ (KeyedBy env.c env.pubKeyToAddr cache tx (head.hash env.c) ↔
        {tx with signature := none, header := []} = {head with signature := none, header := []}) := by
  obtain ⟨_,hck,-⟩ := bind_eq_ok.mp h.1
  have hck' : check env ((pools.1.header.map Header.height).getD 0) tx = .ok () := by
    cases hr : check env ((pools.1.header.map Header.height).getD 0) tx with
    | ok u => rfl
    | error e =>
      rw [hr] at hck
      cases hck
  obtain ⟨head,rest,hd,-⟩ := check_group hck' hct
  have hk : KeyedBy env.c env.pubKeyToAddr cache tx (tx.hash env.c) := by
    obtain ⟨_,hp⟩ := push_of_checkTxRemote h.2.2
    have hi' : cache.Inv env.c env.pubKeyToAddr := by
      have := hi.push times.2 tx
      rwa [hp] at this
    exact hi'.keyedBy (hi.txAt_push hp)
  refine ⟨head,rest,hd,hk,fun he => ?_,fun he => ?_⟩
  · have hm : head.hash env.c ∈ [tx.hash env.c] := by
      by_contra hn
      exact (hk.removed _).mp ((he.removed _).mpr hn) (List.mem_singleton_self _)
    exact hc.encodeTx_injective (hc.sha256_injective (List.mem_singleton.mp hm).symm)
  · have : tx.hash env.c = head.hash env.c := congrArg (fun t => env.c.sha256 (env.c.encodeTx t)) he
    rwa [← this]

end

def signedCalls : List Transaction :=
  (twoCalls none).map fun tx => {tx with signature := some ⟨1,[],Crypto.framed.encodeTx tx⟩}

/-- The group as it travels, or under another nonce. -/
def packedCalls (nonce : ℤ) : Transaction :=
  {(signedCalls.head?.getD (paidCall 0)) with nonce := nonce, header := [1]}

def plainEnv : Env where
  c := Crypto.framed
  su := TxCache.narrow
  decode _ := some signedCalls
  pubKeyToAddr := id
  checkAddress _ := true
  forkBlockCheck _ := true
  forkTxGroupPara _ := true
  maxTxNumber _ := 1000
  minTxFeeRate := 1
  maxTxFeeRate := 1000
  maxTxFee := 0
  isLevelFee := true
  disableExecCheck := false
  maxTxNumPerAccount := 10

/-- Nothing is on the chain yet, and the executor has no objection. -/
def agreeing : Remote := ⟨fun txs _ => .ok txs,fun _ _ => .ok ()⟩

def emptyPool : Pool := ⟨newCache 10 10 10 10,some ⟨0,[],[],[],1,0,0,0⟩⟩

/-- The pool after the group came under a nonce. -/
def Pool.withCalls (pool : Pool) (nonce : ℤ) : Pool :=
  {pool with cache := (pool.cache.push Crypto.framed id 0 (packedCalls nonce)).2}

lemma checkTxRemote_withCalls {pool : Pool} {header : Header} (hh : pool.header = some header) {nonce : ℤ}
    (hp : (pool.cache.push Crypto.framed id 0 (packedCalls nonce)).1 = .ok ()) :
    checkTxRemote plainEnv pool agreeing 0 (packedCalls nonce) = .ok (pool.withCalls nonce).cache := by
  have hp : pool.cache.push plainEnv.c plainEnv.pubKeyToAddr 0 (packedCalls nonce) =
      (.ok (),(pool.withCalls nonce).cache) :=
    Prod.ext hp rfl
  have hg : getTxGroup plainEnv.decode (packedCalls nonce) = .ok (some signedCalls) := rfl
  rw [checkTxRemote,hh]
  dsimp only
  rw [hg,hp]
  rfl

/-- A group is admitted under a nonce that none of its transactions has, it is admitted again under the right one, and
when its transactions are in a block it stays. -/
theorem admitted_other_key :
    Admitted plainEnv agreeing (emptyPool,emptyPool) (0,0) (packedCalls 1) (emptyPool.withCalls 1).cache ∧
    (∀ tx ∈ signedCalls, tx.hash Crypto.framed ≠ (packedCalls 1).hash Crypto.framed) ∧
    Admitted plainEnv agreeing (emptyPool.withCalls 1,emptyPool.withCalls 1) (0,0) (packedCalls 0)
      ((emptyPool.withCalls 1).withCalls 0).cache ∧
    ((((emptyPool.withCalls 1).withCalls 0).cache.removeTxs Crypto.framed id
      (signedCalls.map (Transaction.hash Crypto.framed))).held
      = [packedCalls 1]) := by
  refine ⟨⟨by decide +kernel,by decide +kernel,checkTxRemote_withCalls rfl (by decide +kernel)⟩,by decide +kernel,
    ⟨by decide +kernel,by decide +kernel,checkTxRemote_withCalls rfl (by decide +kernel)⟩,by decide +kernel⟩

theorem admitted_key_iff_packed : ∃ head rest, signedCalls = head :: rest ∧
    Admitted plainEnv agreeing (emptyPool,emptyPool) (0,0) (packedCalls 0) (emptyPool.withCalls 0).cache ∧
    KeyedBy Crypto.framed id (emptyPool.withCalls 0).cache (packedCalls 0) (head.hash Crypto.framed) := by
  have h : Admitted plainEnv agreeing (emptyPool,emptyPool) (0,0) (packedCalls 0) (emptyPool.withCalls 0).cache :=
    ⟨by decide +kernel,by decide +kernel,checkTxRemote_withCalls rfl (by decide +kernel)⟩
  obtain ⟨head,rest,hd,-,hi⟩ := @admitted_key_iff plainEnv Crypto.framed_ideal agreeing (emptyPool,emptyPool) (0,0) _ _
    (Cache.inv_newCache _ _ (by decide) 10 10 10) h (by decide)
  have he : signedCalls = head :: rest := Option.some.inj hd
  refine ⟨head,rest,he,h,hi.mpr ?_⟩
  obtain rfl : head = signedCalls.head?.getD (paidCall 0) := by rw [he]; rfl
  rfl

end Dpos.TxPool
