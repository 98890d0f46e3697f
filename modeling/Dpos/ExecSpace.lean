import Dpos.ExecName

/-! The keys of one executor among the drivers of the others. What a list changes in the
state database, or names in its receipts, comes from a fee or from an entry that
`isAllowKeyWrite` has let through. -/
namespace Dpos.Executor

open KeyIndex StateDB List Prod

variable {Loc : Type} {env : Env Loc}

variable {key : Bytes}

section
/-- The key under which the fee of the first transaction is saved, with the address of the record
that was loaded. -/
def Visit.FeeKey (env : Env Loc) (visit : Visit Loc) (key : Bytes) : Prop :=
  ∃ head ∈ visit.txs.head?, ∃ acc,
    account env visit.before.stateDB.view (env.fromAddr head) = some acc ∧
      key = env.accountKeyPerfix ++ acc.addr

/-- The driver of the transaction at this place has named the key in its receipt, which the
executor has not refused. -/
def Visit.Wrote (env : Env Loc) (visit : Visit Loc) (j : ℕ) (tx : Transaction) (key : Bytes) : Prop :=
  visit.txs[j]? = some tx ∧ ∃ fee kvss kvs,
    Ran env visit.before.stateDB.view visit.txs visit.index fee kvss ∧
      kvss[j]? = some kvs ∧ key ∈ kvs.map fst

def Visit.Touched (visit : Visit Loc) (key : Bytes) : Prop :=
  visit.after.stateDB.view key ≠ visit.before.stateDB.view key ∨
    key ∈ (visit.receipts.flatMap Receipt.kv).map fst

variable {ba : View} {txs : List Transaction} {i : ℕ} {k : List (List KV)} {fee : List KV} {vi : Visit Loc}

lemma Succeed.length_eq {p : List KV} (h : Succeed env ba p txs i k) : txs.length = k.length := by
  induction h with
  | nil => rfl
  | cons _ _ ih => rw [length_cons,length_cons,ih]

lemma feeKVs_key {v : View} {tx : Transaction}
    (h : feeKVs env v tx i = some fee) (hk : key ∈ fee.map fst) :
    ∃ acc, account env v (env.fromAddr tx) = some acc ∧ key = env.accountKeyPerfix ++ acc.addr := by
  unfold feeKVs at h
  split at h
  · obtain ⟨acc,ha,rfl⟩ := Option.map_eq_some_iff.mp h
    exact ⟨acc,ha,mem_singleton.mp hk⟩
  · cases h
    simp at hk

lemma applied_of_not_mem {kvs : List KV} (h : key ∉ kvs.map fst) : applied ba kvs key = ba key := by
  rw [applied,overlay,writeAll_of_not_mem h]
  rfl

/-- Whatever is among the entries of the fee or of the members comes from one of them. -/
theorem Ran.source (h : Ran env vi.before.stateDB.view vi.txs vi.index fee k)
    (hk : key ∈ (fee ++ k.flatten).map fst) : vi.FeeKey env key ∨ ∃ j tx, vi.Wrote env j tx key ∧
      env.isAllowExec key tx (vi.index+j) = true := by
  rw [map_append] at hk
  rcases mem_append.mp hk with hf | hkvs
  · obtain ⟨head,hh,hc⟩ := h.charged
    exact .inl ⟨head,hh,feeKVs_key hc hf⟩
  · obtain ⟨kv,hkv,rfl⟩ := mem_map.mp hkvs
    obtain ⟨kvs,hm,hkv⟩ := mem_flatten.mp hkv
    obtain ⟨j,hj⟩ := mem_iff_getElem?.mp hm
    have hlength := h.progress.1.length_eq
    rw [length_take] at hlength
    have hlt : j < vi.txs.length := by
      have := (List.getElem?_eq_some_iff.mp hj).1
      omega
    obtain ⟨tx,ht⟩ : ∃ tx, vi.txs[j]? = some tx := ⟨_,List.getElem?_eq_getElem hlt⟩
    exact .inr ⟨j,tx,⟨ht,fee,k,kvs,h,hj,mem_map_of_mem hkv⟩,h.progress.2 j tx kvs ht hj kv hkv⟩

lemma Visit.Sound.touched (hs : vi.Sound env) (hp : vi.Processed) (h : vi.Touched key) :
    vi.FeeKey env key ∨ ∃ j tx, vi.Wrote env j tx key ∧ env.isAllowExec key tx (vi.index+j) = true := by
  obtain ⟨txs,i,b,re,a⟩ := vi
  obtain s | r := re
  · exact hp.elim
  have hn : ∀ n err, key ∉ ((replicate n (newErrReceipt err)).flatMap Receipt.kv).map fst := by
    intro n err hm
    obtain ⟨kv,hk,-⟩ := mem_map.mp hm
    obtain ⟨rt,hr,hk⟩ := mem_flatMap.mp hk
    rw [eq_of_mem_replicate hr] at hk
    cases hk
  have ha : ∀ {v v' : View} {fee : List KV} {k : List (List KV)},
      v' = applied (writeAll v fee) k.flatten → v' key ≠ v key →
        key ∈ (fee ++ k.flatten).map fst := by
    rintro v v' fee k rfl hne
    by_contra hm
    rw [map_append,mem_append,not_or] at hm
    rw [applied_of_not_mem hm.2,writeAll_of_not_mem hm.1] at hne
    exact hne rfl
  cases hs.ends r rfl with
  | api happi => simp [Visit.Processed,happi] at hp
  | refused hidle =>
    rcases h with hne | hm
    · exact absurd (congrFun hidle.2 key) hne
    · exact absurd hm (hn _ _)
  | unlocal hran hidle hfa =>
    rcases h with hne | hm
    · exact Ran.source hran (ha hidle.2 hne)
    · exact absurd hm (hn _ _)
  | @whole receipts fee k hran hlength hidle hmap =>
    rcases h with hne | hm
    · exact Ran.source hran (ha hidle.2 hne)
    · refine Ran.source hran ?_
      have hkvs : receipts.flatMap Receipt.kv = (joined fee k).flatten := by rw [flatMap_def,hmap]
      rw [Visit.receipts,hkvs] at hm
      cases k with
      | nil => cases hm
      | cons kvs k => simpa [joined] using hm
  | @undone receipts fee k hran hidle hkvs =>
    have hsu : ∀ kv ∈ fee ++ (if env.isFork .resetTx0 then [] else k.headD []),
        kv ∈ fee ++ k.flatten := by
      intro kv hk
      split_ifs at hk
      · exact mem_append_left _ (by simpa using hk)
      · cases k with
        | nil => exact hk
        | cons kvs k =>
          rw [flatten_cons,← append_assoc]
          exact mem_append_left _ hk
    refine Ran.source hran ?_
    rcases h with hne | hm
    · have hf : key ∈ fee.map fst := by
        by_contra hm
        rw [hidle.2,writeAll_of_not_mem hm] at hne
        exact hne rfl
      rw [map_append]
      exact mem_append_left _ hf
    · rw [Visit.receipts,hkvs] at hm
      obtain ⟨kv,hk,rfl⟩ := mem_map.mp hm
      exact mem_map_of_mem (hsu kv hk)

/-- A list that is answered with receipts touches no key that none of its visits does. -/
theorem exists_touched {skip : ℕ} {s s' : State Loc}
    {rs : List Receipt} (hrun : (execTxs env txs skip i).exec s = (.ok (.ok rs),s'))
    (h : s'.stateDB.view key ≠ s.stateDB.view key ∨ ∃ r ∈ rs, key ∈ r.kv.map fst) :
    ∃ vi ∈ visits env txs skip i s, vi.Processed ∧ vi.Touched key := by
  obtain ⟨rfl,rfl,hp⟩ := execTxs_visits txs skip i s s' rs hrun
  have hl : Linked s (visits env txs skip i s) := visits_linked txs skip i s
  rcases h with hne | ⟨r,hr,hk⟩
  · clear hrun
    generalize visits env txs skip i s = vs at hl hp hne
    induction vs generalizing s with
    | nil => exact absurd rfl hne
    | cons vi rest ih =>
      obtain ⟨rfl,-,hre⟩ := hl
      by_cases hc : vi.after.stateDB.view key = vi.before.stateDB.view key
      · have hne' : ((rest.map Visit.after).getLastD vi.after).stateDB.view key ≠
            vi.after.stateDB.view key := by
          rw [hc,← getLastD_after vi.before]
          exact hne
        obtain ⟨l,hla,ht⟩ := ih hre (fun v hv => hp v (mem_cons_of_mem _ hv)) hne'
        exact ⟨l,mem_cons_of_mem _ hla,ht⟩
      · exact ⟨vi,mem_cons_self,hp vi mem_cons_self,.inl hc⟩
  · obtain ⟨vi,hvi,hr⟩ := mem_flatMap.mp hr
    obtain ⟨kv,hkv,rfl⟩ := mem_map.mp hk
    refine ⟨vi,hvi,hp vi hvi,.inr (mem_map_of_mem ?_)⟩
    exact mem_flatMap.mpr ⟨r,hr,hkv⟩

end

namespace Config
variable {cfg : Config}

/-- Who may write a key of `B` when the driver of `B` has no friends. -/
theorem isAllowExec_cases (hk : cfg.forkExecKey = true) {B : Bytes} {tx : Transaction} {index : ℕ}
    (hf : (cfg.loadDriver (execerTx B) index).isFriend B key tx = false)
    (hB : findExecer key = some B) (h : cfg.isAllowExec env key tx index = true) :
    cfg.getParaExec env tx.execer = B ∨ getExecKey key = some (cfg.execAddress tx.execer) ∨
      getExecKey key = some (cfg.execAddress (cfg.getRealExecName tx index)) := by
  unfold isAllowExec at h
  rw [hB] at h
  dsimp only at h
  split at h
  · rename_i he
    exact .inl he.symm
  · split at h
    · rename_i hold
      exact absurd hk hold.1
    · split at h
      · rename_i ha
        exact .inr (.inl ha)
      · by_cases hr : getExecKey key = some (cfg.execAddress (cfg.getRealExecName tx index))
        · exact .inr (.inr hr)
        · rw [if_neg hr,hf] at h
          cases h

/-- **The keys of an executor without friends**: with ForkExecRollback, ForkStateDBSet and
ForkExecKey active and after the genesis block, a key of `B` is changed in the state database or
named in a receipt only as the key that a fee is saved under, or because of an entry of a
transaction whose name is `B` or, for the account of a contract, by one whose full or real name
has the address of the contract. -/
theorem execTxs_isolated (cfg : Config) (env : Env Loc) (hheight : env.height ≠ 0)
    (hr : env.isFork .execRollback = true) (hse : env.isFork .stateDBSet = true)
    (hk : cfg.forkExecKey = true) (B : Bytes)
    (hf : ∀ key tx index, (cfg.loadDriver (execerTx B) index).isFriend B key tx = false)
    (txs : List Transaction) (store : View) (mvcc : Bool) (localDB : Loc) (receipts : List Receipt)
    (s : State Loc)
    (hrun : (execTxs {cfg.checked env with txs := txs} txs 0 0).exec ⟨.new store mvcc,localDB,[]⟩ =
      (.ok (.ok receipts),s))
    (key : Bytes) (hB : findExecer key = some B)
    (h : (s.stateDB.get key).1 ≠ store key ∨ ∃ receipt ∈ receipts, key ∈ receipt.kv.map fst) :
    ∃ visit ∈ listVisits (cfg.checked env) txs (.new store mvcc) localDB,
      visit.FeeKey {cfg.checked env with txs := txs} key ∨
      ∃ j tx, visit.Wrote {cfg.checked env with txs := txs} j tx key ∧
        (cfg.getParaExec env tx.execer = B ∨ getExecKey key = some (cfg.execAddress tx.execer) ∨
          getExecKey key = some (cfg.execAddress (cfg.getRealExecName tx (visit.index+j)))) := by
  rw [get_value] at h
  obtain ⟨visit,hv,hp,ht⟩ := exists_touched hrun h
  have hs := @visits_sound Loc {cfg.checked env with txs := txs} hheight hr hse txs 0 0
    ⟨.new store mvcc,localDB,[]⟩ rfl visit hv
  refine ⟨visit,hv,(hs.touched hp ht).imp_right ?_⟩
  rintro ⟨j,tx,hw,ha⟩
  exact ⟨j,tx,hw,isAllowExec_cases hk (hf key tx _) hB ha⟩

end Config

def coinsKey (addr : Bytes) : Bytes := Bytes.ofString "mavl-coins-dpos-" ++ addr

/-- A record is the address that it names, and every account has a balance of 100. -/
def lentEnv (ld : Transaction → ℕ → Driver Unit) : Env Unit := {openEnv (fun _ => true) ld with
  minTxFeeRate := 1
  fromAddr := fun tx => tx.payload
  accountKeyPerfix := Bytes.ofString "mavl-coins-dpos-"
  encodeAccount := fun acc => acc.addr
  decodeAccount := fun value => some ⟨0,100,0,value⟩}

/-- The driver of coins stores the address 2 in the record of the address 1. -/
def lending : Outcome := ⟨[],.ok (.ok (some ⟨execOk,[(coinsKey [1],some [2])],[]⟩))⟩

def lendingDriver (tx : Transaction) (_ : ℕ) : Driver Unit :=
  if tx.execer = Bytes.ofString "coins" then fixedDriver lending
  else {fixedDriver quiet with isFree := false}

def payingTx (execer payer : Bytes) : Transaction := ⟨execer,payer,none,1,0,0,[],0,[],[]⟩

def lentTxs : List Transaction := [payingTx (Bytes.ofString "coins") [3],payingTx noneX [1]]

def lentRun : Except Panic (Except Err (List Receipt)) × State Unit :=
  (execTxs {coinsConfig.checked (lentEnv lendingDriver) with txs := lentTxs} lentTxs 0 0).exec
    ⟨.new (fun _ => none) false,(),[]⟩

/-- The fee of the address 1 is saved under the key of the address 2, which pays no fee and
which no driver names. -/
theorem execTxs_crosses : ∃ receipts s, lentRun = (.ok (.ok receipts),s) ∧
    findExecer (coinsKey [2]) = some (Bytes.ofString "coins") ∧ (s.stateDB.get (coinsKey [2])).1 ≠ none ∧
    (∃ receipt ∈ receipts, coinsKey [2] ∈ receipt.kv.map fst) ∧
    (∀ tx ∈ lentTxs, coinsKey [2] ≠ coinsKey ((lentEnv lendingDriver).fromAddr tx)) ∧ (∀ v tx index receipt,
      Returns {coinsConfig.checked (lentEnv lendingDriver) with txs := lentTxs} v tx index receipt →
        coinsKey [2] ∉ (getKV receipt).map fst) ∧
    getExecKey (coinsKey [2]) = none := by
  refine ⟨_,_,rfl,rfl,by decide +kernel,by decide +kernel,by decide +kernel,?_,by decide +kernel⟩
  rintro v tx index receipt ⟨loc,out,ha,hr⟩
  change answer _ index ((lendingDriver tx index).exec v loc tx index) = .ok out at ha
  unfold lendingDriver at ha
  split at ha <;> obtain rfl := Except.ok.inj ha <;>
    obtain rfl := Except.ok.inj (Except.ok.inj hr) <;> decide

theorem execTxs_isolated_lent :
    ∃ visit ∈ listVisits (coinsConfig.checked (lentEnv lendingDriver)) lentTxs (.new (fun _ => none) false) (),
      visit.FeeKey {coinsConfig.checked (lentEnv lendingDriver) with txs := lentTxs} (coinsKey [1]) ∨
      ∃ j tx, visit.Wrote {coinsConfig.checked (lentEnv lendingDriver) with txs := lentTxs} j tx
          (coinsKey [1]) ∧
        (coinsConfig.getParaExec (lentEnv lendingDriver) tx.execer = Bytes.ofString "coins" ∨
          getExecKey (coinsKey [1]) = some (coinsConfig.execAddress tx.execer) ∨
          getExecKey (coinsKey [1]) =
            some (coinsConfig.execAddress (coinsConfig.getRealExecName tx (visit.index+j)))) :=
  Config.execTxs_isolated coinsConfig (lentEnv lendingDriver) (by decide) rfl rfl rfl
    (Bytes.ofString "coins") (fun _ _ _ => rfl) lentTxs _ false () _ _ rfl (coinsKey [1]) rfl
    (.inl (by decide +kernel))

def localPrefix : Bytes := Bytes.ofString "LODB"

/-- The causes of the errors of a local key. -/
inductive LocalKeyErr
  | errLocalPrefix | errLocalKeyLen
  deriving DecidableEq, Repr

def isAllowLocalKey2 (execer key : Bytes) : Except LocalKeyErr Unit :=
  let minkeylen := localPrefix.length+execer.length+2
  if execer.length < 1 then .error .errLocalPrefix
  else if key.length ≤ minkeylen then .error .errLocalKeyLen
  else if key[minkeylen-1]? ≠ some 45 ∨ key[localPrefix.length]? ≠ some 45 then .error .errLocalPrefix
  else if ¬localPrefix <+: key then .error .errLocalPrefix
  else if ¬execer <+: key.drop (localPrefix.length+1) then .error .errLocalPrefix
  else .ok ()

/-- `isAllowLocalKey`; the second error is wrapped, which leaves nil as it is. -/
def isAllowLocalKey (execer key : Bytes) : Except LocalKeyErr Unit :=
  match isAllowLocalKey2 execer key with
  | .ok () => .ok ()
  | .error err =>
    if getRealExecName execer ≠ execer then isAllowLocalKey2 (getRealExecName execer) key else .error err

lemma isAllowLocalKey2_iff (n key : Bytes) : isAllowLocalKey2 n key = .ok () ↔
    n ≠ [] ∧ ∃ rest, rest ≠ [] ∧ key = localPrefix ++ 45 :: (n ++ 45 :: rest) := by
  have hk : ∀ t, (localPrefix ++ 45 :: t)[localPrefix.length+n.length+2-1]? = t[n.length]? := fun t => by
    rw [getElem?_append_right (by omega),
      show localPrefix.length+n.length+2-1-localPrefix.length = n.length+1 by omega,getElem?_cons_succ]
  have hd : ∀ t, (localPrefix ++ 45 :: t).drop (localPrefix.length+1) = t := fun t => by simp
  constructor
  · intro h
    simp only [isAllowLocalKey2,ne_eq] at h
    split_ifs at h with hn hl hs hp hx
    obtain ⟨hlast,hsep⟩ := not_or.mp hs
    obtain ⟨tail,rfl⟩ := hp
    rw [not_not,getElem?_append_right le_rfl,Nat.sub_self] at hsep
    obtain ⟨tail,rfl⟩ : ∃ t, tail = 45 :: t := by cases tail <;> simp_all
    rw [hd] at hx
    obtain ⟨tail,rfl⟩ := hx
    rw [not_not,hk,getElem?_append_right le_rfl,Nat.sub_self] at hlast
    obtain ⟨rest,rfl⟩ : ∃ t, tail = 45 :: t := by cases tail <;> simp_all
    refine ⟨by rintro rfl; simp at hn,rest,?_,rfl⟩
    rintro rfl
    simp at hl
    omega
  · rintro ⟨hn,rest,hr,rfl⟩
    have hl := length_pos_iff.mpr hr
    rw [isAllowLocalKey2,hd,hk]
    simp [hn]
    omega

/-- A local key is behind the name of its executor, in either form. -/
theorem isAllowLocalKey_iff (execer key : Bytes) : isAllowLocalKey execer key = .ok () ↔
    ∃ n rest, (n = execer ∨ n = getRealExecName execer) ∧ n ≠ [] ∧ rest ≠ [] ∧
      key = localPrefix ++ 45 :: (n ++ 45 :: rest) := by
  have h : isAllowLocalKey execer key = .ok () ↔
      isAllowLocalKey2 execer key = .ok () ∨ isAllowLocalKey2 (getRealExecName execer) key = .ok () := by
    rw [isAllowLocalKey]
    cases he : isAllowLocalKey2 execer key with
    | ok => simp
    | error err =>
      by_cases hr : getRealExecName execer = execer <;> simp [hr,he]
  rw [h,isAllowLocalKey2_iff,isAllowLocalKey2_iff]
  grind

end Dpos.Executor
