import Dpos.Bytes
import Mathlib.Logic.Encodable.Basic

/-! The undo log of local records: `AddRollbackKV` keeps the values that a transaction
overwrites under a key of the transaction, and `DelRollbackKV` plays them back in the
reverse order. -/
namespace Dpos.Rollback

open List Function

/-- The local database; no bytes stand for an absent key. -/
abbrev KVDB := Bytes → Bytes

/-- `types.KeyValue`; a nil value deletes. -/
abbrev KeyValue := Bytes × Option Bytes

def set (db : KVDB) (kv : KeyValue) : KVDB := Function.update db kv.1 (kv.2.getD [])

def apply (kvs : List KeyValue) (db : KVDB) : KVDB := kvs.foldl set db

/-- `KVCreator` with a rollback key, so that `autorollback` is on. -/
structure KVCreator where
  kvdb : KVDB
  kvs : List KeyValue
  rollbackkvs : List KeyValue

/-- `addnoprefix` with `set`. A pair with an empty value is decoded with a nil one, so the
log of an absent key has none. -/
def KVCreator.addnoprefix (c : KVCreator) (kv : KeyValue) : KVCreator :=
  let prev := c.kvdb kv.1
  if kv.2 = none ∧ prev = [] then c
  else
    let rb : KeyValue := (kv.1,if prev = [] then none else some prev)
    ⟨set c.kvdb kv,c.kvs ++ [kv],c.rollbackkvs ++ [rb]⟩

def KVCreator.addList (db : KVDB) (kvs : List KeyValue) : KVCreator :=
  kvs.foldl KVCreator.addnoprefix ⟨db,[],[]⟩

/-- The stored log: `Encode` of a `ReceiptLog`, and what `GetRollbackKVList` reads from it. -/
structure Codec where
  encode : List KeyValue → Bytes
  decode : Bytes → Option (List KeyValue)
  decode_encode : ∀ kvs, decode (encode kvs) = some kvs
  encode_ne_nil : ∀ kvs, encode kvs ≠ []

def calcRollbackKey (execer hash : Bytes) : Bytes :=
  Bytes.ofString "LODB-" ++ execer ++ Bytes.ofString "-" ++ Bytes.ofString "rollback-" ++ hash

structure Tx where
  execer : Bytes
  hash : Bytes
  kvs : List KeyValue
  deriving DecidableEq

def Tx.rollbackKey (tx : Tx) : Bytes := calcRollbackKey tx.execer tx.hash

variable (c : Codec)

def addRollbackKV (db : KVDB) (tx : Tx) : List KeyValue :=
  let kvc := KVCreator.addList db tx.kvs
  kvc.kvs ++ if kvc.rollbackkvs = [] then [] else [(tx.rollbackKey,some (c.encode kvc.rollbackkvs))]

/-- `GetRollbackKVList`; nothing when the record cannot be read. -/
def getRollbackKVList (db : KVDB) (tx : Tx) : Option (List KeyValue) :=
  if db tx.rollbackKey = [] then some [] else (c.decode (db tx.rollbackKey)).map reverse

def delRollbackKV (db : KVDB) (tx : Tx) : Option (List KeyValue) := do
  let kvc := KVCreator.addList db (← getRollbackKVList c db tx)
  return kvc.kvs ++ if 0 < kvc.kvs.length then [(tx.rollbackKey,none)] else []

def addAll (txs : List Tx) (db : KVDB) : KVDB := txs.foldl (fun db tx => apply (addRollbackKV c db tx) db) db

def delAll (txs : List Tx) (db : KVDB) : Option KVDB :=
  txs.reverse.foldlM (fun db tx => (delRollbackKV c db tx).map (apply · db)) db

variable {c}

lemma apply_append (l l' : List KeyValue) (db : KVDB) : apply (l ++ l') db = apply l' (apply l db) :=
  foldl_append

variable {db db' : KVDB} {key : Bytes}

lemma apply_congr (l : List KeyValue) (h : db key = db' key) : apply l db key = apply l db' key := by
  induction l generalizing db db' with
  | nil => exact h
  | cons kv l ih =>
    refine ih (?_ : set db kv key = set db' kv key)
    by_cases hk : key = kv.1
    · subst hk
      simp [set]
    · simp [set,update_of_ne hk,h]

lemma apply_of_not_mem {l : List KeyValue} (h : ∀ kv ∈ l, kv.1 ≠ key) (db : KVDB) :
    apply l db key = db key := by
  induction l generalizing db with
  | nil => rfl
  | cons kv l ih =>
    rw [forall_mem_cons] at h
    exact (ih h.2 _).trans (update_of_ne h.1.symm _ _)

/-- What the additions leave: the database after them, the list that leads there, and
the log that leads back. -/
structure Logged (db : KVDB) (kvs : List KeyValue) (kvc : KVCreator) : Prop where
  kvdb : kvc.kvdb = apply kvs db
  list : kvc.kvdb = apply kvc.kvs db
  back : apply kvc.rollbackkvs.reverse kvc.kvdb = db

lemma Logged.addnoprefix {kvs : List KeyValue} {kvc : KVCreator}
    (h : Logged db kvs kvc) (kv : KeyValue) : Logged db (kvs ++ [kv]) (kvc.addnoprefix kv) := by
  have hs : apply (kvs ++ [kv]) db = set kvc.kvdb kv := by rw [apply_append,h.kvdb]; rfl
  simp only [KVCreator.addnoprefix]
  by_cases hsk : kv.2 = none ∧ kvc.kvdb kv.1 = []
  · -- deleting an absent key
    have hsa : set kvc.kvdb kv = kvc.kvdb := by rw [set,hsk.1,Option.getD_none,← hsk.2,update_eq_self]
    rw [if_pos hsk]
    exact ⟨by rw [hs,hsa],h.list,h.back⟩
  · rw [if_neg hsk]
    refine ⟨hs.symm,?_,?_⟩
    · rw [apply_append,← h.list]
      rfl
    · have hu : set (set kvc.kvdb kv) (kv.1,if kvc.kvdb kv.1 = [] then none else some (kvc.kvdb kv.1)) =
          kvc.kvdb := by
        simp only [set,update_idem]
        split_ifs with hp
        · rw [Option.getD_none,← hp,update_eq_self]
        · rw [Option.getD_some,update_eq_self]
      rw [reverse_append,reverse_singleton,singleton_append]
      exact (congrArg (apply kvc.rollbackkvs.reverse) hu).trans h.back

lemma logged (db : KVDB) (kvs : List KeyValue) : Logged db kvs (KVCreator.addList db kvs) := by
  induction kvs using reverseRecOn with
  | nil => exact ⟨rfl,rfl,rfl⟩
  | append_singleton kvs kv ih =>
    rw [KVCreator.addList,foldl_concat]
    exact ih.addnoprefix kv

/-- There is no record under the rollback keys of the transactions, and no list uses that of another one. -/
structure Apart (txs : List Tx) (db : KVDB) : Prop where
  fresh : ∀ tx ∈ txs, db tx.rollbackKey = []
  lists : ∀ tx ∈ txs, ∀ kv ∈ tx.kvs, ∀ tx' ∈ txs, tx' ≠ tx → kv.1 ≠ tx'.rollbackKey

lemma apply_addRollbackKV (db : KVDB) (tx : Tx) (hke : key ≠ tx.rollbackKey) :
    apply (addRollbackKV c db tx) db key = apply tx.kvs db key := by
  have h := logged db tx.kvs
  rw [addRollbackKV,apply_append,← h.list,h.kvdb]
  refine apply_of_not_mem (fun kv hk => ?_) _
  split_ifs at hk with hn
  · simp at hk
  · rw [mem_singleton.mp hk]
    exact hke.symm

/-- Where the rollback record is still there, the list of `DelRollbackKV` undoes the
transaction on every other key. -/
theorem delRollbackKV_undoes {tx : Tx} (hf : db tx.rollbackKey = [])
    (hr : db' tx.rollbackKey = apply (addRollbackKV c db tx) db tx.rollbackKey) :
    ∃ kvs, delRollbackKV c db' tx = some kvs ∧ ∀ key, key ≠ tx.rollbackKey →
      db' key = apply (addRollbackKV c db tx) db key → apply kvs db' key = db key := by
  have h := logged db tx.kvs
  -- the log of the transaction is what is read, reversed
  have hre : getRollbackKVList c db' tx = some (KVCreator.addList db tx.kvs).rollbackkvs.reverse := by
    rw [getRollbackKVList,hr,addRollbackKV,apply_append,← h.list]
    by_cases hn : (KVCreator.addList db tx.kvs).rollbackkvs = []
    · -- nothing was changed
      have hb := h.back
      rw [hn] at hb
      obtain hb : (KVCreator.addList db tx.kvs).kvdb = db := hb
      rw [if_pos hn,hb,hn]
      exact if_pos hf
    · rw [if_neg hn]
      change (if set _ _ tx.rollbackKey = [] then _ else (c.decode (set _ _ tx.rollbackKey)).map _) = _
      simp only [set,update_self,Option.getD_some,if_neg (c.encode_ne_nil _),c.decode_encode,Option.map_some]
  have h' := logged db' (KVCreator.addList db tx.kvs).rollbackkvs.reverse
  refine ⟨_,by rw [delRollbackKV,hre]; rfl,fun key hke hs => ?_⟩
  rw [apply_append,← h'.list,h'.kvdb,apply_of_not_mem (fun kv hk => ?_)]
  · rw [apply_congr _ (hs.trans ((apply_addRollbackKV db tx hke).trans (congrFun h.kvdb.symm key))),h.back]
  · split_ifs at hk with hp
    · rw [mem_singleton.mp hk]
      exact hke.symm
    · simp at hk

/-- For transactions with distinct hashes, adding all of them and then taking them back
from the last to the first restores every key that is no rollback key. -/
theorem delAll_addAll {txs : List Tx} (hl : ∀ tx ∈ txs, tx.hash.length = 32)
    (hn : (txs.map Tx.hash).Nodup) {db : KVDB} (ha : Apart txs db) :
    ∃ db', delAll c txs (addAll c txs db) = some db' ∧
      ∀ key, (∀ tx ∈ txs, key ≠ tx.rollbackKey) → db' key = db key := by
  induction txs generalizing db with
  | nil => exact ⟨db,rfl,fun _ _ => rfl⟩
  | cons tx txs ih =>
    rw [map_cons,nodup_cons] at hn
    rw [forall_mem_cons] at hl
    have hd : ∀ tx' ∈ txs, tx'.rollbackKey ≠ tx.rollbackKey := fun tx' ht' he => by
      have hh := (append_inj' he (by rw [hl.1,hl.2 tx' ht'])).2
      exact hn.1 (hh ▸ mem_map_of_mem ht')
    have hne : ∀ tx' ∈ txs, tx' ≠ tx := fun tx' ht' he => hd tx' ht' (he ▸ rfl)
    have hr : Apart txs (apply (addRollbackKV c db tx) db) := by
      refine ⟨fun tx' ht' => ?_,fun tx' ht' kv hk tx'' ht'' =>
        ha.lists tx' (mem_cons_of_mem _ ht') kv hk tx'' (mem_cons_of_mem _ ht'')⟩
      rw [apply_addRollbackKV db tx (hd tx' ht'),apply_of_not_mem fun kv hk =>
        ha.lists tx mem_cons_self kv hk tx' (mem_cons_of_mem _ ht') (hne tx' ht')]
      exact ha.fresh tx' (mem_cons_of_mem _ ht')
    obtain ⟨db1,hrun,hs⟩ := ih hl.2 hn.2 hr
    obtain ⟨kvs,hdel,hu⟩ := delRollbackKV_undoes (c:=c) (ha.fresh tx mem_cons_self)
      (hs tx.rollbackKey fun tx' ht' => (hd tx' ht').symm)
    refine ⟨apply kvs db1,?_,fun key hke => ?_⟩
    · simp only [delAll] at hrun
      rw [delAll,addAll,foldl_cons,reverse_cons,foldlM_append]
      change (txs.reverse.foldlM _ (addAll c txs _) >>= _) = _
      rw [hrun]
      simp [hdel]
    · rw [forall_mem_cons] at hke
      exact hu key hke.1 (hs key hke.2)

/-- Lists of pairs numbered, and a number written as so many bytes. -/
noncomputable def countingCodec : Codec :=
  have : Countable UInt8 := Function.Injective.countable (f:=UInt8.toNat) fun _ _ => UInt8.toNat_inj.mp
  let number := Encodable.ofCountable (List KeyValue)
  ⟨fun kvs => replicate (number.encode kvs+1) 0,fun data => number.decode (data.length-1),
    fun kvs => by simp [number.encodek],fun kvs => by simp⟩

/-- Two transactions that write one key, and the first one its own rollback key. -/
theorem delAll_addAll_two : let tx : Tx := ⟨[1],replicate 32 0,[]⟩
    let txs : List Tx := [⟨[1],replicate 32 0,[([7],some [1]),([7],none),(tx.rollbackKey,some [3])]⟩,
      ⟨[1],replicate 32 1,[([7],some [2])]⟩]
    ∃ db', delAll countingCodec txs (addAll countingCodec txs fun _ => []) = some db' ∧
      ∀ key, (∀ tx ∈ txs, key ≠ tx.rollbackKey) → db' key = [] :=
  delAll_addAll (by decide) (by decide) ⟨fun _ _ => rfl,by decide⟩

/-- A record that sets a key. -/
noncomputable def strayRecord : Bytes := countingCodec.encode [([7],some [1])]

lemma delRollbackKV_stray {db : KVDB} {tx : Tx} (h : db tx.rollbackKey = strayRecord) :
    delRollbackKV countingCodec db tx = some [([7],some [1]),(tx.rollbackKey,none)] := by
  have hre : getRollbackKVList countingCodec db tx = some [([7],some [1])] := by
    simp [getRollbackKVList,h,strayRecord,countingCodec.encode_ne_nil,countingCodec.decode_encode]
  simp [delRollbackKV,hre,KVCreator.addList,KVCreator.addnoprefix]

def idle : Tx := ⟨[1],replicate 32 0,[]⟩

/-- Writes a record for a transaction that changes nothing. -/
noncomputable def meddler : Tx := ⟨[1],replicate 32 1,[(idle.rollbackKey,some strayRecord)]⟩

lemma delRollbackKV_meddler {db : KVDB} (h : db meddler.rollbackKey = countingCodec.encode [(idle.rollbackKey,none)])
    (hi : db idle.rollbackKey = []) : delRollbackKV countingCodec db meddler = some [] := by
  have hre : getRollbackKVList countingCodec db meddler = some [(idle.rollbackKey,none)] := by
    simp [getRollbackKVList,h,countingCodec.encode_ne_nil,countingCodec.decode_encode]
  simp [delRollbackKV,hre,KVCreator.addList,KVCreator.addnoprefix,hi]

/-- A record under the rollback key of a transaction without pairs is played back, whether it was there before or another
list wrote it. -/
theorem delAll_stale : (∃ db', delAll countingCodec [idle] (addAll countingCodec [idle]
        (set (fun _ => []) (idle.rollbackKey,some strayRecord))) = some db' ∧ db' [7] = [1] ∧
        set (fun _ => []) (idle.rollbackKey,some strayRecord) [7] = []) ∧
    ∃ db', delAll countingCodec [meddler,idle] (addAll countingCodec [meddler,idle] fun _ => []) = some db' ∧
      db' [7] = [1] := by
  have hne : ([7] : Bytes) ≠ idle.rollbackKey := by decide
  have hm : meddler.rollbackKey ≠ idle.rollbackKey := by decide
  have h7 : meddler.rollbackKey ≠ [7] := by decide
  constructor
  · have ha : ∀ db, addAll countingCodec [idle] db = db := fun _ => rfl
    refine ⟨apply [([7],some [1]),(idle.rollbackKey,none)] (set (fun _ => []) (idle.rollbackKey,some strayRecord)),?_,?_,
      update_of_ne hne _ _⟩
    · have hd := @delRollbackKV_stray (set (fun _ => []) (idle.rollbackKey,some strayRecord)) idle (update_self _ _ _)
      rw [ha]
      simp [delAll,hd]
    · simp [apply,set,update_of_ne hne]
  · have ha : addRollbackKV countingCodec (fun _ => []) meddler = [(idle.rollbackKey,some strayRecord),
        (meddler.rollbackKey,some (countingCodec.encode [(idle.rollbackKey,none)]))] := by
      simp [addRollbackKV,meddler,KVCreator.addList,KVCreator.addnoprefix]
    have haa : addAll countingCodec [meddler,idle] (fun _ => []) = apply [(idle.rollbackKey,some strayRecord),
        (meddler.rollbackKey,some (countingCodec.encode [(idle.rollbackKey,none)]))] fun _ => [] := by
      rw [← ha]
      rfl
    generalize hdb : apply [(idle.rollbackKey,some strayRecord),
      (meddler.rollbackKey,some (countingCodec.encode [(idle.rollbackKey,none)]))] (fun _ => []) = db at haa
    have hs : db idle.rollbackKey = strayRecord := by simp [← hdb,apply,set,update_of_ne hm.symm]
    have he : db meddler.rollbackKey = countingCodec.encode [(idle.rollbackKey,none)] := by simp [← hdb,apply,set]
    refine ⟨apply [([7],some [1]),(idle.rollbackKey,none)] db,?_,by simp [apply,set,update_of_ne hne]⟩
    have hd : delRollbackKV countingCodec (apply [([7],some [1]),(idle.rollbackKey,none)] db) meddler = some [] :=
      delRollbackKV_meddler (by simp [apply,set,update_of_ne hm,update_of_ne h7,he]) (by simp [apply,set])
    rw [haa]
    simp only [delAll,reverse_cons,reverse_nil,nil_append,singleton_append,foldlM_cons,foldlM_nil,delRollbackKV_stray hs,
      Option.map_some]
    change ((delRollbackKV countingCodec (apply [([7],some [1]),(idle.rollbackKey,none)] db) meddler).map _) >>= _ = _
    rw [hd]
    rfl

end Dpos.Rollback
