import Dpos.Decimal
import Dpos.ListHelper

/-! Versions of the state in one database, as in `mvcc.go`: a pair that is written at a
version is stored under `prefix.key.version` and found by a search downwards. -/
namespace Dpos.DB
namespace MVCC

open List KeyIndex

variable {u : ℕ} {key : Bytes}

open KeyIndex (writeAll)
open Bytes (toInt_ofNat)

def mvccMeta : Bytes := Bytes.ofString ".-mvcc-.m."
def mvccData : Bytes := Bytes.ofString ".-mvcc-.d."
def mvccMetaVersion : Bytes := mvccMeta ++ Bytes.ofString "version."
def mvccMetaVersionKeyList : Bytes := mvccMeta ++ Bytes.ofString "versionkl."

inductive Err
  | notFound | notFoundInDb | version | prevVersion | canOnlyDelTopVersion | decode | parse
  deriving DecidableEq, Repr

/-- The encodings of `types.Int64`, of a `types.LocalDBSet` that holds keys, and of
`types.KeyValue`. -/
structure Codec where
  encodeInt : BitVec 64 → Bytes
  decodeInt : Bytes → Option (BitVec 64)
  encodeKeys : List Bytes → Bytes
  decodeKeys : Bytes → Option (List Bytes)
  encodeKV : Bytes × Bytes → Bytes
  decodeInt_encodeInt : ∀ v, decodeInt (encodeInt v) = some v
  decodeKeys_encodeKeys : ∀ keys, decodeKeys (encodeKeys keys) = some keys

def pad (version : BitVec 64) : Bytes := Bytes.decimal 20 version.toInt

def parseInt (s : Bytes) : Option (BitVec 64) :=
  (Bytes.atoi s).bind fun n => if -2^63 ≤ n ∧ n < 2^63 then some (BitVec.ofInt 64 n) else none

def getVersionString (key : Bytes) : Option Bytes :=
  if 46 ∈ key then some (key.reverse.takeWhile (· ≠ 46)).reverse else none

def getVersionOfKey (key : Bytes) : Except Err (BitVec 64) :=
  match getVersionString key with
  | none => .error .version
  | some s => match parseInt s with
    | none => .error .parse
    | some v => .ok v

def getKeyPerfix (key : Bytes) : Bytes := mvccData ++ key ++ [46]

def getKey (key : Bytes) (version : BitVec 64) : Bytes := getKeyPerfix key ++ pad version

def getVersionHashKey (hash : Bytes) : Bytes := mvccMeta ++ hash

def getVersionKey (version : BitVec 64) : Bytes := mvccMetaVersion ++ pad version

def getVersionKeyListKey (version : BitVec 64) : Bytes := mvccMetaVersionKeyList ++ pad version

variable (c : Codec) (db : Store)

def kvList (pre key : Bytes) (count direction : BitVec 32) : List Bytes :=
  list c.encodeKV (dbIterator db) pre key count direction

def getVersion (hash : Bytes) : Except Err (BitVec 64) :=
  match db.get (getVersionHashKey hash) with
  | none => .error .notFound
  | some value => match c.decodeInt value with
    | none => .error .decode
    | some data => if data.toInt < 0 then .error .version else .ok data

def getVersionHash (version : BitVec 64) : Except Err Bytes :=
  match db.get (getVersionKey version) with
  | none => .error .notFound
  | some value => .ok value

def getMaxVersion : Except Err (BitVec 64) :=
  match kvList c db mvccMetaVersion [] 1 listDESC with
  | [] => .error .notFound
  | hash :: _ => getVersion c db hash

def getSaveKV (version : BitVec 64) (kv : KeyValue) : KeyValue := (getKey kv.1 version,kv.2)

def getDelKV (version : BitVec 64) (key : Bytes) : KeyValue := (getKey key version,none)

def getDelKVList (version : BitVec 64) : Except Err (List Bytes) :=
  match db.get (getVersionKeyListKey version) with
  | none => .error .notFoundInDb
  | some data => match c.decodeKeys data with
    | none => .error .decode
    | some keys => .ok keys

def setVersionKV (hash : Bytes) (version : BitVec 64) : Except Err (List KeyValue) :=
  if version.toInt < 0 then .error .version
  else .ok [(mvccMeta ++ hash,some (c.encodeInt version)),(mvccMetaVersion ++ pad version,some hash)]

def delVersionKV (hash : Bytes) (version : BitVec 64) : Except Err (List KeyValue) :=
  (setVersionKV c hash version).map fun kvs => kvs.map fun kv => (kv.1,none)

/-- `GetV`. A list of a search has the key and the value. -/
def getV (key : Bytes) (version : BitVec 64) : Except Err Bytes :=
  match kvList c db (getKeyPerfix key) (getKey key version) 1 listSeek with
  | k :: val :: _ => (getVersionOfKey k).bind fun v => if version.toInt < v.toInt then .error .version else .ok val
  | _ => .error .notFound

/-- The check of `AddMVCC` that the version follows the one of the hash before. -/
def checkPrev (prevHash : Option Bytes) (version : BitVec 64) : Except Err Unit :=
  if 0 < version.toInt then
    match prevHash with
    | none => .error .prevVersion
    | some prevHash => (getVersionHash db (version-1)).bind fun vhash =>
      if vhash = prevHash then .ok () else .error .prevVersion
  else .ok ()

def addMVCC (kvs : List KeyValue) (hash : Bytes) (prevHash : Option Bytes) (version : BitVec 64) :
    Except Err (List KeyValue) :=
  (checkPrev db prevHash version).bind fun _ => (setVersionKV c hash version).bind fun versionlist =>
    .ok (versionlist ++ kvs.map (getSaveKV version) ++
      [(getVersionKeyListKey version,some (c.encodeKeys (kvs.map Prod.fst)))])

/-- The check of `delMVCC` for a version that has to be the last one. -/
def checkTop (version : BitVec 64) (strict : Bool) : Except Err Unit :=
  if strict then (getMaxVersion c db).bind fun maxv => if maxv = version then .ok () else .error .canOnlyDelTopVersion
  else .ok ()

def delMVCC (hash : Bytes) (version : BitVec 64) (strict : Bool) : Except Err (List KeyValue) :=
  (getDelKVList c db version).bind fun keys => (checkTop c db version strict).bind fun _ =>
    (getVersion c db hash).bind fun vdb =>
      if vdb ≠ version then .error .version
      else (delVersionKV c hash version).bind fun kv => .ok (kv ++ keys.map (getDelKV version))

structure Add where
  kvs : List KeyValue
  hash : Bytes
  prevHash : Option Bytes

/-- Calls at consecutive versions, each applied to the database. -/
def addAll (db : Store) (version : ℕ) : List Add → Except Err Store
  | [] => .ok db
  | a :: adds => (addMVCC c db a.kvs a.hash a.prevHash (BitVec.ofNat 64 version)).bind fun kvlist =>
    addAll (applyKVs db kvlist) (version+1) adds

section
variable {u' : ℕ} {key' : Bytes}

lemma pad_ofNat (hu : u < 2^63) : pad (BitVec.ofNat 64 u) = Bytes.padded 20 u := Bytes.decimal_ofNat hu

lemma pad_le_pad (hu : u < 2^63) (version : BitVec 64) :
    pad (BitVec.ofNat 64 u) ≤ pad version ↔ (u : ℤ) ≤ version.toInt := by
  rw [pad_ofNat hu]
  have hran : version.toInt < 2^63 := version.toInt_lt
  rcases lt_or_ge version.toInt 0 with hn | hpo
  · obtain ⟨ds,hds⟩ := Bytes.decimal_of_neg (w := 20) hn
    have hh : ∃ d ds, Bytes.padded 20 u = d :: ds ∧ 48 ≤ d := by
      cases hp : Bytes.padded 20 u with
      | nil => simpa using congrArg length hp
      | cons d ds' => exact ⟨d,ds',rfl,(Bytes.mem_padded (w := 20) (n := u) (by simp [hp])).1⟩
    obtain ⟨d,ds',hp,hd⟩ := hh
    rw [pad,hds,hp,cons_le_cons]
    refine iff_of_false ?_ (by omega)
    have h45 : (45 : UInt8) < d := lt_of_lt_of_le (by decide) hd
    rintro (hlt | ⟨he,-⟩)
    · exact hlt.not_gt h45
    · exact h45.ne' he
  · rw [pad,Bytes.decimal_eq hpo (by omega),Bytes.padded_le_iff (by omega) (by omega)]
    omega

lemma pad_inj (hu : u < 2^63) (hu' : u' < 2^63) (h : pad (BitVec.ofNat 64 u) = pad (BitVec.ofNat 64 u')) : u = u' := by
  have hl := (pad_le_pad hu (BitVec.ofNat 64 u')).mp h.le
  have hg := (pad_le_pad hu' (BitVec.ofNat 64 u)).mp h.ge
  rw [toInt_ofNat hu'] at hl
  rw [toInt_ofNat hu] at hg
  omega

lemma getKey_inj (hu : u < 2^63) (hu' : u' < 2^63)
    (h : getKey key (BitVec.ofNat 64 u) = getKey key' (BitVec.ofNat 64 u')) : key = key' ∧ u = u' := by
  obtain ⟨hpr,hp⟩ := append_inj' h (by simp [pad_ofNat hu,pad_ofNat hu'])
  exact ⟨by simpa [getKeyPerfix] using hpr,pad_inj hu hu' hp⟩

lemma data_ne_meta (x y : Bytes) : mvccData ++ x ≠ mvccMeta ++ y := by
  have hl : mvccData.length = mvccMeta.length := by decide
  have hne : mvccData ≠ mvccMeta := by decide
  exact fun h => hne (append_inj_left h hl)

end

/-! ### The database after some calls -/

def kvlist (a : Add) (version : BitVec 64) : List KeyValue :=
  [(mvccMeta ++ a.hash,some (c.encodeInt version)),(mvccMetaVersion ++ pad version,some a.hash)] ++
    a.kvs.map (getSaveKV version) ++ [(getVersionKeyListKey version,some (c.encodeKeys (a.kvs.map Prod.fst)))]

lemma addMVCC_ok {c : Codec} {db : Store} {a : Add} {version : BitVec 64} {kvs : List KeyValue}
    (h : addMVCC c db a.kvs a.hash a.prevHash version = .ok kvs) : 0 ≤ version.toInt ∧ kvs = kvlist c a version := by
  unfold addMVCC setVersionKV at h
  cases hp : checkPrev db a.prevHash version with
  | error e => simp [hp,Except.bind] at h
  | ok _ =>
    rw [hp] at h
    by_cases hn : version.toInt < 0
    · simp [hn,Except.bind] at h
    · simp only [Except.bind,if_neg hn,Except.ok.injEq] at h
      exact ⟨not_lt.mp hn,h.symm⟩

def Add.value (a : Add) (key : Bytes) : Option Bytes := writeAll (fun _ => none) a.kvs key

structure Built (adds : List Add) (db : Store) : Prop where
  count : adds.length ≤ 2^63
  data : ∀ key u, u < 2^63 → db.get (getKey key (BitVec.ofNat 64 u)) = adds[u]?.bind (·.value key)
  pairs : ∀ {d val}, db.get d = some val →
    ∃ (u : ℕ) (a : Add), adds[u]? = some a ∧ (d,some val) ∈ kvlist c a (BitVec.ofNat 64 u)

section
variable {c : Codec} {adds : List Add} {db : Store} {a : Add} {d : Bytes} {v : ℕ} {kvs : List KeyValue}
  {version : BitVec 64}

lemma Built.keys (h : Built c adds db) (hd : (db.get d).isSome) :
    ∃ (u : ℕ) (a : Add), adds[u]? = some a ∧ d ∈ (kvlist c a (BitVec.ofNat 64 u)).map Prod.fst := by
  obtain ⟨val,hv⟩ := Option.isSome_iff_exists.mp hd
  obtain ⟨u,a,hu,hm⟩ := h.pairs hv
  exact ⟨u,a,hu,mem_map.mpr ⟨_,hm,rfl⟩⟩

lemma Built.lt (h : Built c adds db) (hv : adds[v]? = some a) : v < 2^63 := (List.getElem?_eq_some_iff.mp hv).1.trans_le h.count

lemma Built.empty : Built c [] .empty := ⟨by simp,by simp,by simp⟩

lemma mem_keys_kvlist :
    d ∈ (kvlist c a version).map Prod.fst ↔ d = getVersionHashKey a.hash ∨ d = getVersionKey version ∨
      d = getVersionKeyListKey version ∨ ∃ key ∈ a.kvs.map Prod.fst, d = getKey key version := by
  simp only [kvlist,map_append,map_map,mem_append,map_cons,map_nil,mem_cons,
    not_mem_nil,or_false,mem_map,Function.comp_apply,getSaveKV,exists_exists_and_eq_and,
    getVersionHashKey,getVersionKey,@eq_comm _ _ d]
  rw [or_assoc,or_assoc]
  exact or_congr_right (or_congr_right or_comm)

lemma getKey_eq (key : Bytes) (ve : BitVec 64) : getKey key ve = mvccData ++ (key ++ [46] ++ pad ve) := by
  simp [getKey,getKeyPerfix]

lemma getVersionKey_eq (ve : BitVec 64) :
    getVersionKey ve = mvccMeta ++ (Bytes.ofString "version." ++ pad ve) := append_assoc ..

lemma getVersionKeyListKey_eq (ve : BitVec 64) :
    getVersionKeyListKey ve = mvccMeta ++ (Bytes.ofString "versionkl." ++ pad ve) := append_assoc ..

lemma getKey_ne_meta (key : Bytes) (ve : BitVec 64) :
    (∀ hash, getKey key ve ≠ getVersionHashKey hash) ∧ (∀ ve', getKey key ve ≠ getVersionKey ve') ∧
      ∀ ve', getKey key ve ≠ getVersionKeyListKey ve' := by
  rw [getKey_eq]
  refine ⟨fun hash => data_ne_meta _ _,fun ve' => ?_,fun ve' => ?_⟩
  · rw [getVersionKey_eq]
    exact data_ne_meta _ _
  · rw [getVersionKeyListKey_eq]
    exact data_ne_meta _ _

lemma getKey_mem_kvlist (hu : u < 2^63) (hv : v < 2^63) :
    getKey key (BitVec.ofNat 64 u) ∈ (kvlist c a (BitVec.ofNat 64 v)).map Prod.fst ↔
      u = v ∧ key ∈ a.kvs.map Prod.fst := by
  obtain ⟨hh,hve,hl⟩ := getKey_ne_meta key (BitVec.ofNat 64 u)
  rw [mem_keys_kvlist]
  constructor
  · rintro (h | h | h | ⟨key',hm,h⟩)
    · exact absurd h (hh _)
    · exact absurd h (hve _)
    · exact absurd h (hl _)
    · obtain ⟨rfl,rfl⟩ := getKey_inj hu hv h
      exact ⟨rfl,hm⟩
  · rintro ⟨rfl,hm⟩
    exact .inr (.inr (.inr ⟨key,hm,rfl⟩))

lemma writeAll_kvlist {view : Bytes → Option Bytes} (hn : ∀ key, view (getKey key version) = none) :
    writeAll view (kvlist c a version) (getKey key version) = a.value key := by
  have hi : Function.Injective fun key => getKey key version := fun key key' h => by
    simpa [getKeyPerfix] using append_cancel_right h
  have hmap : a.kvs.map (getSaveKV version) = a.kvs.map (Prod.map (fun key => getKey key version) id) := rfl
  have hvi : ∀ key, writeAll view [(mvccMeta ++ a.hash,some (c.encodeInt version)),
      (mvccMetaVersion ++ pad version,some a.hash)] (getKey key version) = none := by
    intro key
    obtain ⟨hh,hve,-⟩ := getKey_ne_meta key version
    rw [writeAll_of_not_mem,hn]
    simp only [map_cons,map_nil,mem_cons,not_mem_nil,or_false,not_or]
    exact ⟨hh _,hve _⟩
  rw [kvlist,writeAll_append,writeAll_of_not_mem,writeAll_append,hmap,
    writeAll_rename hi]
  · exact congrArg (writeAll · a.kvs key) (funext hvi)
  · simpa using (getKey_ne_meta key version).2.2 version

section
variable (h : Built c adds db) (had : addMVCC c db a.kvs a.hash a.prevHash (BitVec.ofNat 64 adds.length) = .ok kvs)
include h had

lemma Built.length_lt : adds.length < 2^63 := by
  by_contra hg
  have he : adds.length = 2^63 := le_antisymm h.count (not_lt.mp hg)
  have hp := (addMVCC_ok had).1
  rw [he] at hp
  exact absurd hp (by decide)

lemma Built.add : Built c (adds ++ [a]) (applyKVs db kvs) := by
  have hc := h.length_lt had
  obtain ⟨-,rfl⟩ := addMVCC_ok had
  refine ⟨by simpa using hc,fun key u hu => ?_,fun {d val} hd => ?_⟩
  · rw [get_applyKVs]
    by_cases he : u = adds.length
    · subst he
      rw [writeAll_kvlist fun key => by rw [h.data key _ hu]; simp]
      simp
    · rw [writeAll_of_not_mem,h.data key u hu]
      · rcases lt_or_gt_of_ne he with hlt | hg
        · rw [getElem?_append_left hlt]
        · rw [getElem?_eq_none (by omega),getElem?_eq_none (by simp; omega)]
      · rw [getKey_mem_kvlist hu hc]
        exact fun hm => he hm.1
  · rw [get_applyKVs] at hd
    rcases writeAll_cases db.get (kvlist c a (BitVec.ofNat 64 adds.length)) d with ⟨-,he⟩ | hm
    · obtain ⟨u,a',hu,hm⟩ := h.pairs (he.symm.trans hd)
      exact ⟨u,a',by rw [List.getElem?_append_left (List.getElem?_eq_some_iff.mp hu).1,hu],hm⟩
    · exact ⟨adds.length,a,by simp,hd ▸ hm⟩

end

lemma Built.addAll (h : Built c adds db) {rest : List Add} {db' : Store}
    (had : addAll c db adds.length rest = .ok db') : Built c (adds ++ rest) db' := by
  induction rest generalizing adds db with
  | nil =>
    cases had
    simpa using h
  | cons a rest ih =>
    rw [MVCC.addAll] at had
    cases hkvs : addMVCC c db a.kvs a.hash a.prevHash (BitVec.ofNat 64 adds.length) with
    | error e => simp [hkvs,Except.bind] at had
    | ok kvs =>
      rw [hkvs] at had
      have hr : MVCC.addAll c (applyKVs db kvs) (adds.length+1) rest = .ok db' := had
      simpa using ih (h.add hkvs) (by simpa using hr)

/-- The value that the calls up to the version have written last. -/
def written (adds : List Add) (key : Bytes) (version : BitVec 64) : Option Bytes :=
  writeAll (fun _ => none) ((adds.take (version.toInt+1).toNat).flatMap Add.kvs) key

/-- Among the data keys up to the one asked for, those of other keys do not come last. -/
def Clear (adds : List Add) (key : Bytes) (version : BitVec 64) : Prop :=
  ∀ (u : ℕ) (a : Add), adds[u]? = some a → ∀ key' ∈ a.kvs.map Prod.fst, key' ≠ key →
    getKeyPerfix key <+: getKey key' (BitVec.ofNat 64 u) →
    getKey key' (BitVec.ofNat 64 u) ≤ getKey key version →
    ∃ (u' : ℕ) (a' : Add), adds[u']? = some a' ∧ (u' : ℤ) ≤ version.toInt ∧ key ∈ a'.kvs.map Prod.fst ∧
      getKey key' (BitVec.ofNat 64 u) < getKey key (BitVec.ofNat 64 u')

lemma append_le_append_left (x : Bytes) {a b : Bytes} : x ++ a ≤ x ++ b ↔ a ≤ b := by
  induction x with
  | nil => rfl
  | cons d x ih => rw [cons_append,cons_append,cons_le_cons,ih]; simp

lemma getKey_le_getKey (hu : u < 2^63) (key : Bytes) (ve : BitVec 64) :
    getKey key (BitVec.ofNat 64 u) ≤ getKey key ve ↔ (u : ℤ) ≤ ve.toInt := by
  rw [← pad_le_pad hu,getKey,getKey,append_le_append_left]

lemma parseInt_padded (hu : u < 2^63) : parseInt (Bytes.padded 20 u) = some (BitVec.ofNat 64 u) := by
  have ha : Bytes.atoi (Bytes.padded 20 u) = some (u : ℤ) := Bytes.atoi_padded (by omega)
  have hran : -2^63 ≤ (u : ℤ) ∧ (u : ℤ) < 2^63 := by omega
  rw [parseInt,ha,Option.bind_some,if_pos hran,BitVec.ofInt_natCast]

lemma getVersionString_getKey (hu : u < 2^63) (key : Bytes) :
    getVersionString (getKey key (BitVec.ofNat 64 u)) = some (Bytes.padded 20 u) := by
  have hdi : ∀ d ∈ (Bytes.padded 20 u).reverse, decide (d ≠ 46) = true := by
    intro d hd
    have hl := (Bytes.mem_padded (mem_reverse.mp hd)).1
    refine decide_eq_true ?_
    rintro rfl
    exact absurd hl (by decide)
  rw [getVersionString,if_pos (by simp [getKey,getKeyPerfix]),getKey,getKeyPerfix,pad_ofNat hu,reverse_append,
    reverse_append,takeWhile_append_of_pos hdi]
  simp

lemma getVersionOfKey_getKey (hu : u < 2^63) (key : Bytes) :
    getVersionOfKey (getKey key (BitVec.ofNat 64 u)) = .ok (BitVec.ofNat 64 u) := by
  rw [getVersionOfKey,getVersionString_getKey hu]
  simp only [parseInt_padded hu]

lemma bytesPrefix_getKeyPerfix (key : Bytes) : bytesPrefix (getKeyPerfix key) ≠ some emptyValue := bytesPrefix_ne (by decide)

lemma mem_dbIterator {e : Bytes × Bytes} :
    e ∈ (dbIterator db (getKeyPerfix key) true).raw.store.entries ↔ e ∈ db.entries ∧ getKeyPerfix key <+: e.1 := by
  rw [← inRange_bytesPrefix]
  simp [dbIterator,iterator,bytesPrefix_getKeyPerfix,SortedStore.restrict]

lemma writeAll_take_last {val : Bytes} {m : ℕ} (hu : adds[u]? = some a) (hv : a.value key = some val)
    (hum : u < m) (hl : ∀ (u' : ℕ) (a' : Add), u < u' → u' < m → adds[u']? = some a' → key ∉ a'.kvs.map Prod.fst) :
    writeAll (fun _ => none) ((adds.take m).flatMap Add.kvs) key = some val := by
  induction m, hum using Nat.le_induction with
  | base =>
    have hn : ∃ v, (key,v) ∈ a.kvs := by
      rcases writeAll_cases (fun _ => none) a.kvs key with ⟨-,hnn⟩ | hme
      · cases hv.symm.trans hnn
      · exact ⟨_,hme⟩
    rw [take_add_one,hu,flatMap_append,writeAll_append]
    simp only [Option.toList_some,flatMap_cons,flatMap_nil,append_nil]
    exact (writeAll_congr (.inr hn)).trans hv
  | succ m hum ih =>
    have ih := ih fun u' a' huu' hu'm => hl u' a' huu' (Nat.lt_succ_of_lt hu'm)
    rw [take_add_one,flatMap_append,writeAll_append]
    cases hm : adds[m]? with
    | none => exact ih
    | some a' =>
      simp only [Option.toList_some,flatMap_cons,flatMap_nil,append_nil]
      rw [writeAll_of_not_mem (hl m a' hum (Nat.lt_succ_self m) hm),ih]

section
variable (h : Built c adds db) (hvs : ∀ a ∈ adds, ∀ kv ∈ a.kvs, ∃ value, kv.2 = some value ∧ value ≠ [])
include h hvs

lemma Built.named {u : ℕ} (hu : adds[u]? = some a) (hk : key ∈ a.kvs.map Prod.fst) :
    ∃ val, a.value key = some val ∧ val ≠ [] ∧ (getKey key (BitVec.ofNat 64 u),val) ∈ db.entries := by
  have hlt := h.lt hu
  obtain ⟨kv,hkv,rfl⟩ := mem_map.mp hk
  rcases writeAll_cases (fun _ => none) a.kvs kv.1 with ⟨hn,-⟩ | hm
  · exact absurd hkv (hn kv.2)
  · obtain ⟨val,hv,hne⟩ := hvs a (mem_of_getElem? hu) _ hm
    have hv : a.value kv.1 = some val := hv
    refine ⟨val,hv,hne,?_⟩
    rw [← SortedStore.get_eq_some,h.data _ u hlt,hu,Option.bind_some,hv]

lemma Built.entry {e : Bytes × Bytes} (he : e ∈ (dbIterator db (getKeyPerfix key) true).raw.store.entries) :
    ∃ (u : ℕ) (a : Add) (key' : Bytes), adds[u]? = some a ∧ u < 2^63 ∧ key' ∈ a.kvs.map Prod.fst ∧
      e.1 = getKey key' (BitVec.ofNat 64 u) ∧ a.value key' = some e.2 ∧ e.2 ≠ [] := by
  obtain ⟨hm,⟨rest,hr⟩⟩ := mem_dbIterator.mp he
  have hg := (SortedStore.get_eq_some db).mpr hm
  obtain ⟨u,a,hu,hd⟩ := h.keys (d := e.1) (by rw [hg]; rfl)
  have hlt := h.lt hu
  have hda : e.1 = mvccData ++ (key ++ [46] ++ rest) := by rw [← hr]; simp [getKeyPerfix]
  rcases mem_keys_kvlist.mp hd with heq | heq | heq | ⟨key',hk',heq⟩
  · exact absurd (hda.symm.trans heq) (data_ne_meta _ _)
  · exact absurd (hda.symm.trans (heq.trans (getVersionKey_eq _))) (data_ne_meta _ _)
  · exact absurd (hda.symm.trans (heq.trans (getVersionKeyListKey_eq _))) (data_ne_meta _ _)
  · obtain ⟨val,hv,hne,hen⟩ := h.named hvs hu hk'
    obtain rfl : e.2 = val := db.eq_of_mem (by rw [← heq]; exact hm) hen
    exact ⟨u,a,key',hu,hlt,hk',heq,hv,hne⟩

lemma Built.getV {version : BitVec 64} (hc : Clear adds key version) :
    getV c db key version = match written adds key version with
      | some value => .ok value
      | none => .error .notFound := by
  have hli : kvList c db (getKeyPerfix key) (getKey key version) 1 listSeek =
      nextKeyValue (dbIterator db) (getKeyPerfix key) (getKey key version) := by
    rw [kvList,DB.list,if_pos ⟨by simp [getKey,getKeyPerfix],rfl,rfl⟩]
  have hlv : ∀ e ∈ (dbIterator db (getKeyPerfix key) true).raw.store.entries, isDeleted e.2 = false := by
    intro e he
    obtain ⟨u,a,key',-,-,-,-,-,hne⟩ := h.entry hvs he
    simpa [isDeleted] using hne
  -- the data of the key itself, up to the version, is within the search
  have ho : ∀ (u : ℕ) (a : Add), adds[u]? = some a → (u : ℤ) ≤ version.toInt → key ∈ a.kvs.map Prod.fst →
      ∃ val, (getKey key (BitVec.ofNat 64 u),val) ∈ (dbIterator db (getKeyPerfix key) true).raw.store.entries ∧
        getKey key (BitVec.ofNat 64 u) ≤ getKey key version := by
    intro u a hu hl hk
    obtain ⟨val,-,-,hen⟩ := h.named hvs hu hk
    exact ⟨val,mem_dbIterator.mpr ⟨hen,prefix_append ..⟩,(getKey_le_getKey (h.lt hu) key version).mpr hl⟩
  rw [MVCC.getV,hli]
  rcases nextKeyValue_floor db (getKeyPerfix key) (getKey key version) hlv with ⟨hn,hab⟩ | ⟨e,hf,heq⟩
  · have hnn : written adds key version = none := by
      refine writeAll_of_not_mem fun hm => ?_
      obtain ⟨kv,hkv,rfl⟩ := mem_map.mp hm
      obtain ⟨a,ha,hkv⟩ := mem_flatMap.mp hkv
      obtain ⟨u,hu,rfl⟩ := mem_iff_getElem.mp ha
      rw [length_take] at hu
      rw [getElem_take] at hkv
      obtain ⟨val,hen,hl⟩ := ho u _ (getElem?_eq_getElem (by omega)) (by omega)
        (mem_map.mpr ⟨kv,hkv,rfl⟩)
      exact (hab _ hen).not_ge hl
    rw [hn,hnn]
  · obtain ⟨u,a,key',hu,hlt,hk',hke,hv,-⟩ := h.entry hvs hf.mem
    -- the entry found is one of the key itself
    have hs : key' = key := by
      by_contra hne
      have hp := (mem_dbIterator.mp hf.mem).2
      have hl := hf.le
      rw [hke] at hp hl
      obtain ⟨u',a',hu',hl',hk,hb⟩ := hc u a hu key' hk' hne hp hl
      obtain ⟨val',hen,hl''⟩ := ho u' a' hu' hl' hk
      have := hf.greatest _ hen hl''
      rw [hke] at this
      exact hb.not_ge this
    subst hs
    have hul : (u : ℤ) ≤ version.toInt := (getKey_le_getKey hlt key' version).mp (hke ▸ hf.le)
    have hw : written adds key' version = some e.2 := by
      refine writeAll_take_last hu hv (by omega) fun u' a' huu' hu' ha' hk => ?_
      obtain ⟨val',hen,hl⟩ := ho u' a' ha' (by omega) hk
      have hg := hf.greatest _ hen hl
      rw [hke,getKey_le_getKey (h.lt ha'),toInt_ofNat hlt] at hg
      omega
    have hve : ¬version.toInt < (BitVec.ofNat 64 u).toInt := by
      rw [toInt_ofNat hlt]
      omega
    rw [heq,hw]
    simp only [hke,getVersionOfKey_getKey hlt,Except.bind,if_neg hve]

end
end

/-- After calls at consecutive versions with values that are not empty, `GetV` finds the value
written last to the key, where no data key of another key comes between. -/
theorem getV_finds_written (c : Codec) (adds : List Add) (db : Store) (hrun : addAll c .empty 0 adds = .ok db)
    (hvs : ∀ a ∈ adds, ∀ kv ∈ a.kvs, ∃ value, kv.2 = some value ∧ value ≠ []) (key : Bytes) (version : BitVec 64)
    (hc : Clear adds key version) : getV c db key version = match written adds key version with
      | some value => .ok value
      | none => .error .notFound := by
  have hb : Built c adds db := Built.empty.addAll hrun
  exact hb.getV hvs hc

/-- The first of the frames that a text is made of. -/
def takeFrame (b : Bytes) : Option (Bytes × Bytes) :=
  let n := (b.takeWhile (· = 1)).length
  match b.drop n with
  | 0 :: rest => if n ≤ rest.length then some (rest.take n,rest.drop n) else none
  | _ => none

lemma takeFrame_frame (key rest : Bytes) : takeFrame (frame key ++ rest) = some (key,rest) := by
  have ho : ((frame key ++ rest).takeWhile (· = 1)).length = key.length := by
    rw [frame,append_assoc,takeWhile_append_of_pos (by simp)]
    simp
  rw [takeFrame,ho]
  simp [frame]

def takeFrames : ℕ → Bytes → Option (List Bytes)
  | 0,_ => none
  | fuel+1,b =>
    if b = [] then some []
    else (takeFrame b).bind fun r => (takeFrames fuel r.2).map (r.1 :: ·)

lemma takeFrames_flatMap (keys : List Bytes) {f : ℕ} (hf : keys.length < f) :
    takeFrames f (keys.flatMap frame) = some keys := by
  induction keys generalizing f with
  | nil =>
    obtain ⟨f,rfl⟩ := Nat.exists_eq_add_one.mpr hf
    rfl
  | cons key keys ih =>
    obtain ⟨f,rfl⟩ := Nat.exists_eq_add_one.mpr (Nat.zero_lt_of_lt hf)
    rw [takeFrames,if_neg (by simp [frame]),flatMap_cons,takeFrame_frame,Option.bind_some,
      ih (by simpa using hf)]
    rfl

lemma takeFrames_frames (keys : List Bytes) :
    takeFrames ((keys.flatMap frame).length+1) (keys.flatMap frame) = some keys := by
  refine takeFrames_flatMap keys (Nat.lt_succ_of_le ?_)
  induction keys with
  | nil => exact Nat.le_refl 0
  | cons key keys ih =>
    rw [flatMap_cons,length_append,length_cons,frame,length_append,length_cons]
    omega

lemma length_ones (v : BitVec 64) : some (BitVec.ofNat 64 (replicate v.toNat (1 : UInt8)).length) = some v := by
  simp

def frameCodec : Codec where
  encodeInt v := replicate v.toNat 1
  decodeInt b := some (BitVec.ofNat 64 b.length)
  encodeKeys keys := keys.flatMap frame
  decodeKeys b := takeFrames (b.length+1) b
  encodeKV e := frame e.1 ++ e.2
  decodeInt_encodeInt := length_ones
  decodeKeys_encodeKeys := takeFrames_frames

def twoVersions : List Add := [⟨[([97],some [7])],[1],none⟩,⟨[([97],some [8])],[2],some [1]⟩]

theorem getV_finds_written_second :
    ∃ db, addAll frameCodec .empty 0 twoVersions = .ok db ∧ getV frameCodec db [97] 1 = .ok [8] := by
  have hc : Clear twoVersions [97] 1 := by
    intro u a hu key' hk' hne
    have hm := mem_of_getElem? hu
    simp only [twoVersions,mem_cons,not_mem_nil,or_false] at hm
    rcases hm with rfl | rfl <;> exact absurd (by simpa using hk') hne
  refine ⟨_,rfl,?_⟩
  rw [getV_finds_written frameCodec twoVersions _ rfl (by decide) [97] 1 hc]
  rfl

/-- The key `a.!` is written, and `GetV` of the key `a` returns its value. -/
def dotted : List Add := [⟨[(Bytes.ofString "a.!",some [7])],[1],none⟩]

theorem getV_finds_other :
    ∃ db, addAll frameCodec .empty 0 dotted = .ok db ∧ getV frameCodec db (Bytes.ofString "a") 0 = .ok [7] ∧
      written dotted (Bytes.ofString "a") 0 = none := by
  refine ⟨_,rfl,?_⟩
  decide +kernel

end MVCC
end Dpos.DB
