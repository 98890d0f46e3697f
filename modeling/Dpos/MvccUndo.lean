import Dpos.Mvcc

/-! `DelMVCC` takes back the last `AddMVCC`, for a state hash that is new. -/
namespace Dpos.DB
namespace MVCC

open List

variable {version : BitVec 64}

open KeyIndex (writeAll)
open Bytes (toInt_ofNat)
open HeadMerge KeyIndex

def versionText : Bytes := Bytes.ofString "version."
def keyListText : Bytes := Bytes.ofString "versionkl."

/-- The key of a state hash is none of those that versions have. -/
structure Plain (hash : Bytes) : Prop where
  version : ¬versionText <+: hash
  keyList : ∀ version, hash ≠ keyListText ++ pad version

section
variable {x y ha : Bytes}

lemma version_ne_keyList (x y : Bytes) : versionText ++ x ≠ keyListText ++ y := by
  have hs : keyListText = Bytes.ofString "versionk" ++ Bytes.ofString "l." := by decide
  have hl : versionText.length = (Bytes.ofString "versionk").length := by decide
  have hne : versionText ≠ Bytes.ofString "versionk" := by decide
  rw [hs,append_assoc]
  exact fun h => hne (append_inj_left h hl)

lemma getVersionKey_ne_keyList (version version' : BitVec 64) : getVersionKey version ≠ getVersionKeyListKey version' := by
  rw [getVersionKey_eq,getVersionKeyListKey_eq]
  exact fun h => version_ne_keyList _ _ (append_cancel_left h)

lemma Plain.ne_version (h : Plain ha) (version : BitVec 64) : getVersionHashKey ha ≠ getVersionKey version := by
  rw [getVersionHashKey,getVersionKey_eq]
  exact fun he => h.version ⟨pad version,(append_cancel_left he).symm⟩

lemma getVersionHashKey_ne_keyList {version : BitVec 64} (h : ha ≠ keyListText ++ pad version) :
    getVersionHashKey ha ≠ getVersionKeyListKey version := by
  rw [getVersionHashKey,getVersionKeyListKey_eq]
  exact fun he => h (append_cancel_left he)

end

lemma kvlist_disjoint {c : Codec} {a a' : Add} {u v : ℕ} (hu : u < 2^63) (hv : v < 2^63) (huv : u ≠ v)
    (ha : Plain a.hash) (ha' : Plain a'.hash) (hne : a'.hash ≠ a.hash) {d : Bytes}
    (hd : d ∈ (kvlist c a (BitVec.ofNat 64 v)).map Prod.fst) : d ∉ (kvlist c a' (BitVec.ofNat 64 u)).map Prod.fst := by
  intro hd'
  rw [mem_keys_kvlist] at hd hd'
  rcases hd with rfl | rfl | rfl | ⟨key,-,rfl⟩
  · rcases hd' with he | he | he | ⟨key',-,he⟩
    · exact hne (append_cancel_left he).symm
    · exact ha.ne_version _ he
    · exact getVersionHashKey_ne_keyList (ha.keyList _) he
    · exact (getKey_ne_meta _ _).1 _ he.symm
  · rcases hd' with he | he | he | ⟨key',-,he⟩
    · exact ha'.ne_version _ he.symm
    · exact huv (pad_inj hv hu (append_cancel_left he)).symm
    · exact getVersionKey_ne_keyList _ _ he
    · exact (getKey_ne_meta _ _).2.1 _ he.symm
  · rcases hd' with he | he | he | ⟨key',-,he⟩
    · exact getVersionHashKey_ne_keyList (ha'.keyList _) he.symm
    · exact getVersionKey_ne_keyList _ _ he.symm
    · exact huv (pad_inj hv hu (append_cancel_left he)).symm
    · exact (getKey_ne_meta _ _).2.2 _ he.symm
  · rcases hd' with he | he | he | ⟨key',-,he⟩
    · exact (getKey_ne_meta _ _).1 _ he
    · exact (getKey_ne_meta _ _).2.1 _ he
    · exact (getKey_ne_meta _ _).2.2 _ he
    · exact huv (getKey_inj hv hu he).2.symm

section
variable {c : Codec} {adds : List Add} {db : Store} {a : Add} {d : Bytes} {e : Bytes × Bytes}

lemma Built.fresh (h : Built c adds db) (hc : adds.length < 2^63) (hp : ∀ a' ∈ adds, Plain a'.hash)
    (ha : Plain a.hash) (hn : ∀ a' ∈ adds, a'.hash ≠ a.hash)
    (hd : d ∈ (kvlist c a (BitVec.ofNat 64 adds.length)).map Prod.fst) : db.get d = none := by
  by_contra hs
  obtain ⟨u,a',hu,hm⟩ := h.keys (Option.isSome_iff_ne_none.mpr hs)
  have hlt := (List.getElem?_eq_some_iff.mp hu).1
  have ha' := mem_of_getElem? hu
  exact kvlist_disjoint (hlt.trans hc) hc hlt.ne ha (hp a' ha') (hn a' ha') hd hm

lemma get_keyList (v : BitVec 64) : (applyKVs db (kvlist c a v)).get (getVersionKeyListKey v) =
    some (c.encodeKeys (a.kvs.map Prod.fst)) := by
  rw [get_applyKVs,kvlist,writeAll_append]
  exact Function.update_self ..

lemma kvlist_eq (v : BitVec 64) : kvlist c a v = (getVersionHashKey a.hash,some (c.encodeInt v)) ::
    (getVersionKey v,some a.hash) ::
      (a.kvs.map (getSaveKV v) ++ [(getVersionKeyListKey v,some (c.encodeKeys (a.kvs.map Prod.fst)))]) := rfl

lemma get_versionHash (ha : Plain a.hash) (v : BitVec 64) :
    (applyKVs db (kvlist c a v)).get (getVersionHashKey a.hash) = some (c.encodeInt v) := by
  rw [get_applyKVs,kvlist_eq]
  refine writeAll_cons_self fun hm => ?_
  simp only [map_cons,map_append,map_map,map_nil,mem_cons,mem_append,mem_map,not_mem_nil,or_false] at hm
  rcases hm with he | ⟨kv,-,he⟩ | he
  · exact ha.ne_version v he
  · exact (getKey_ne_meta _ _).1 _ he
  · exact getVersionHashKey_ne_keyList (ha.keyList v) he

lemma get_version (v : BitVec 64) : (applyKVs db (kvlist c a v)).get (getVersionKey v) = some a.hash := by
  rw [get_applyKVs,kvlist_eq]
  refine writeAll_cons_self fun hm => ?_
  simp only [map_cons,map_append,map_map,map_nil,mem_cons,mem_append,mem_map,not_mem_nil,or_false] at hm
  rcases hm with ⟨kv,-,he⟩ | he
  · exact (getKey_ne_meta _ _).2.1 _ he
  · exact getVersionKey_ne_keyList v v he

lemma Built.versions (h : Built c adds db) (hp : ∀ a' ∈ adds, Plain a'.hash)
    (he : db.get e.1 = some e.2) (hpr : mvccMetaVersion <+: e.1) :
    ∃ (u : ℕ) (a : Add), adds[u]? = some a ∧ e.1 = getVersionKey (BitVec.ofNat 64 u) ∧ e.2 = a.hash := by
  obtain ⟨u,a,hu,hm⟩ := h.pairs he
  obtain ⟨rest,hr⟩ := hpr
  have hme : e.1 = mvccMeta ++ (versionText ++ rest) := hr.symm.trans (append_assoc ..)
  simp only [kvlist,mem_append,mem_cons,not_mem_nil,or_false,mem_map] at hm
  rcases hm with ((heq | heq) | ⟨kv,-,heq⟩) | heq
  · have hh := append_cancel_left (hme.symm.trans (congrArg Prod.fst heq))
    exact absurd ⟨rest,hh⟩ (hp a (mem_of_getElem? hu)).version
  · exact ⟨u,a,hu,congrArg Prod.fst heq,Option.some.inj (congrArg Prod.snd heq)⟩
  · have hk : getKey kv.1 (BitVec.ofNat 64 u) = e.1 := congrArg Prod.fst heq
    exact absurd (hk.trans hme) (by rw [getKey_eq]; exact data_ne_meta _ _)
  · have hl := append_cancel_left (hme.symm.trans ((congrArg Prod.fst heq).trans (getVersionKeyListKey_eq _)))
    exact absurd hl (version_ne_keyList _ _)

lemma head?_of_greatest {es : List (Bytes × Bytes)} (ho : Ordered true es) (he : e ∈ es)
    (hl : ∀ e' ∈ es, e'.1 ≤ e.1) : es.head? = some e := by
  cases es with
  | nil => simp at he
  | cons e' es =>
    rcases mem_cons.mp he with rfl | he
    · rfl
    · have hlt : e.1 < e'.1 := (pairwise_cons.mp ho).1 e he
      exact absurd (hl e' mem_cons_self) hlt.not_ge

lemma bytesPrefix_mvccMetaVersion : bytesPrefix mvccMetaVersion ≠ some emptyValue := bytesPrefix_ne (by decide)

lemma kvList_versions (c : Codec) (db : Store) : kvList c db mvccMetaVersion [] 1 listDESC =
      ((live (dbIterator db mvccMetaVersion true).walk).head?.map Prod.snd).toList := by
  have hl : listLimit 1 = 1 := by decide
  have hc : collect c.encodeKV listDESC = Prod.snd := by
    funext e
    simp [collect,listDESC]
  rw [kvList,DB.list,if_neg (by simp),if_pos rfl,if_neg (by decide),iteratorScan_eq,DBIt.drain_rewind,hl,hc]
  cases live (dbIterator db mvccMetaVersion true).walk <;> rfl

lemma mem_walk_versions :
    e ∈ (dbIterator db mvccMetaVersion true).walk ↔ db.get e.1 = some e.2 ∧ mvccMetaVersion <+: e.1 := by
  rw [← inRange_bytesPrefix]
  simp [DBIt.walk,dbIterator,iterator,bytesPrefix_mvccMetaVersion,SortedStore.restrict]

/-- After a call with a hash that is not empty the last version is its version. -/
theorem Built.getMaxVersion (h : Built c (adds ++ [a]) db) (hc : adds.length < 2^63)
    (hp : ∀ a' ∈ adds ++ [a], Plain a'.hash) (hne : a.hash ≠ [])
    (hl : db.get (getVersionKey (BitVec.ofNat 64 adds.length)) = some a.hash) :
    getMaxVersion c db = getVersion c db a.hash := by
  have hh : (live (dbIterator db mvccMetaVersion true).walk).head? =
      some (getVersionKey (BitVec.ofNat 64 adds.length),a.hash) := by
    refine head?_of_greatest ((dbIterator db mvccMetaVersion true).ordered_walk.filter _) ?_ fun e he => ?_
    · refine mem_filter.mpr ⟨mem_walk_versions.mpr ⟨hl,prefix_append ..⟩,?_⟩
      simpa [isDeleted] using hne
    · obtain ⟨hg,hpr⟩ := mem_walk_versions.mp (mem_of_mem_filter he)
      obtain ⟨u,a',hu,heq,-⟩ := h.versions hp hg hpr
      have hlt := (List.getElem?_eq_some_iff.mp hu).1
      rw [length_append,length_singleton] at hlt
      rw [heq,getVersionKey,getVersionKey,append_le_append_left,pad_le_pad (by omega),toInt_ofNat hc]
      omega
  rw [MVCC.getMaxVersion,kvList_versions,hh]
  rfl

def delList (a : Add) (version : BitVec 64) : List KeyValue :=
  [(mvccMeta ++ a.hash,none),(mvccMetaVersion ++ pad version,none)] ++ (a.kvs.map Prod.fst).map (getDelKV version)

lemma mem_keys_delList : d ∈ (delList a version).map Prod.fst ↔
      d = getVersionHashKey a.hash ∨ d = getVersionKey version ∨ ∃ key ∈ a.kvs.map Prod.fst, d = getKey key version := by
  simp only [delList,map_append,map_map,mem_append,map_cons,map_nil,mem_cons,
    not_mem_nil,or_false,mem_map,Function.comp_apply,getDelKV,exists_exists_and_eq_and,
    getVersionHashKey,getVersionKey,@eq_comm _ _ d]
  rw [or_assoc]

lemma delList_nil {kv : KeyValue} (h : kv ∈ delList a version) : kv.2 = none := by
  simp only [delList,mem_append,mem_cons,not_mem_nil,or_false,mem_map] at h
  rcases h with (rfl | rfl) | ⟨key,-,rfl⟩ <;> rfl

section
variable (hc : adds.length < 2^63) (hp : ∀ a' ∈ adds ++ [a], Plain a'.hash) (hv : version = BitVec.ofNat 64 adds.length)
include hc hp hv

lemma delMVCC_last (s : Bool) (hne : s = true → a.hash ≠ [])
    (hb : Built c (adds ++ [a]) (applyKVs db (kvlist c a version))) :
    delMVCC c (applyKVs db (kvlist c a version)) a.hash version s = .ok (delList a version) := by
  have ha : Plain a.hash := hp a (by simp)
  have hpo : ¬version.toInt < 0 := by
    rw [hv,toInt_ofNat hc]
    omega
  have hg : getVersion c (applyKVs db (kvlist c a version)) a.hash = .ok version := by
    rw [getVersion,get_versionHash ha]
    simp only [c.decodeInt_encodeInt,if_neg hpo]
  have hk : getDelKVList c (applyKVs db (kvlist c a version)) version = .ok (a.kvs.map Prod.fst) := by
    rw [getDelKVList,get_keyList]
    simp only [c.decodeKeys_encodeKeys]
  have ht : checkTop c (applyKVs db (kvlist c a version)) version s = .ok () := by
    unfold checkTop
    cases s with
    | false => rfl
    | true => rw [if_pos rfl,hb.getMaxVersion hc hp (hne rfl) (hv ▸ get_version _),hg]; simp [Except.bind]
  rw [delMVCC,hk,ht,hg]
  simp [Except.bind,delVersionKV,setVersionKV,hpo,Except.map,delList]

/-- What the two calls leave is what was there, up to the list of keys. -/
theorem Built.get_undone (h : Built c adds db) (hn : ∀ a' ∈ adds, a'.hash ≠ a.hash)
    (hd : d ≠ getVersionKeyListKey version) :
    (applyKVs (applyKVs db (kvlist c a version)) (delList a version)).get d = db.get d := by
  have hk : d ∈ (kvlist c a version).map Prod.fst ↔ d ∈ (delList a version).map Prod.fst := by
    rw [mem_keys_kvlist,mem_keys_delList,or_iff_right hd]
  rw [get_applyKVs]
  rcases writeAll_cases (applyKVs db (kvlist c a version)).get (delList a version) d with ⟨hno,he⟩ | hm
  · rw [he,get_applyKVs]
    refine writeAll_of_not_mem fun hm => ?_
    obtain ⟨kv,hkv,rfl⟩ := mem_map.mp (hk.mp hm)
    exact hno kv.2 hkv
  · have hf := h.fresh hc (fun a' ha' => hp a' (mem_append_left _ ha')) (hp a (by simp)) hn
      (hv ▸ hk.mpr (mem_map.mpr ⟨_,hm,rfl⟩))
    rw [hf]
    exact delList_nil hm

end

end

/-- `DelMVCC` of the version that was added last restores the lookups, if the hash is new
and no hash is one of the texts that versions have. The list of keys stays behind. -/
theorem delMVCC_undoes (c : Codec) (adds : List Add) (db : Store) (hrun : addAll c .empty 0 adds = .ok db) (a : Add)
    (kvs : List KeyValue) (had : addMVCC c db a.kvs a.hash a.prevHash (BitVec.ofNat 64 adds.length) = .ok kvs)
    (strict : Bool) (hp : ∀ a' ∈ adds ++ [a], Plain a'.hash) (hn : ∀ a' ∈ adds, a'.hash ≠ a.hash)
    (hne : strict = true → a.hash ≠ []) :
    ∃ kvs', delMVCC c (applyKVs db kvs) a.hash (BitVec.ofNat 64 adds.length) strict = .ok kvs' ∧
      (∀ hash, hash ≠ keyListText ++ pad (BitVec.ofNat 64 adds.length) →
        getVersion c (applyKVs (applyKVs db kvs) kvs') hash = getVersion c db hash) ∧
      (∀ version, getVersionHash (applyKVs (applyKVs db kvs) kvs') version = getVersionHash db version) ∧
      getMaxVersion c (applyKVs (applyKVs db kvs) kvs') = getMaxVersion c db ∧
      ∀ key version, getV c (applyKVs (applyKVs db kvs) kvs') key version = getV c db key version := by
  have h : Built c adds db := Built.empty.addAll hrun
  have hb := h.add had
  have hc := h.length_lt had
  obtain ⟨-,rfl⟩ := addMVCC_ok had
  generalize hve : BitVec.ofNat 64 adds.length = last at hb ⊢
  refine ⟨delList a last,delMVCC_last hc hp hve.symm strict hne hb,?_⟩
  have hg : ∀ {d : Bytes}, d ≠ getVersionKeyListKey last →
      (applyKVs (applyKVs db (kvlist c a last)) (delList a last)).get d = db.get d := h.get_undone hc hp hve.symm hn
  generalize applyKVs (applyKVs db (kvlist c a last)) (delList a last) = undone at hg
  have hv : ∀ hash, hash ≠ keyListText ++ pad last → getVersion c undone hash = getVersion c db hash := by
    intro hash hh
    rw [getVersion,hg (getVersionHashKey_ne_keyList hh),getVersion]
  refine ⟨hv,fun version => ?_,?_,fun key version => ?_⟩
  · rw [getVersionHash,hg (getVersionKey_ne_keyList _ _),getVersionHash]
  · have hl : kvList c undone mvccMetaVersion [] 1 listDESC = kvList c db mvccMetaVersion [] 1 listDESC := by
      refine list_congr _ (dbIterator_congr bytesPrefix_mvccMetaVersion fun k hk => hg ?_) _ _ _
      rintro rfl
      obtain ⟨rest,hr⟩ := hk
      rw [getVersionKeyListKey_eq,mvccMetaVersion,append_assoc] at hr
      exact version_ne_keyList _ _ (append_cancel_left hr)
    rw [getMaxVersion,getMaxVersion,hl,kvList_versions]
    cases hhe : (live (dbIterator db mvccMetaVersion true).walk).head? with
    | none => rfl
    | some e =>
      obtain ⟨hen,hpr⟩ := mem_walk_versions.mp (mem_of_mem_filter (mem_of_head? hhe))
      obtain ⟨u,a',hu,-,he⟩ := h.versions (fun a' ha' => hp a' (mem_append_left _ ha')) hen hpr
      have ha' := hp a' (mem_append_left _ (mem_of_getElem? hu))
      exact hv e.2 (he ▸ ha'.keyList _)
  · have hl : kvList c undone (getKeyPerfix key) (getKey key version) 1 listSeek =
        kvList c db (getKeyPerfix key) (getKey key version) 1 listSeek := by
      refine list_congr _ (dbIterator_congr (bytesPrefix_getKeyPerfix key) fun k hk => hg ?_) _ _ _
      rintro rfl
      obtain ⟨rest,hr⟩ := hk
      rw [getVersionKeyListKey_eq,getKeyPerfix,append_assoc,append_assoc] at hr
      exact data_ne_meta _ _ hr
    rw [getV,getV,hl]

def firstAdd : List Add := [⟨[],[1],none⟩]

theorem delMVCC_undoes_second : ∃ db kvs kvs', addAll frameCodec .empty 0 firstAdd = .ok db ∧
      addMVCC frameCodec db [([97],some [7])] [2] (some [1]) 1 = .ok kvs ∧
      delMVCC frameCodec (applyKVs db kvs) [2] 1 true = .ok kvs' ∧
      getMaxVersion frameCodec (applyKVs (applyKVs db kvs) kvs') = getMaxVersion frameCodec db := by
  have hv : versionText.length = 8 := by decide
  have hli : keyListText.length = 10 := by decide
  have hp : ∀ hash : Bytes, hash.length = 1 → Plain hash := by
    intro hash hl
    refine ⟨fun hpr => ?_,fun version he => ?_⟩
    · have := hpr.length_le
      omega
    · rw [he,length_append] at hl
      omega
  have hal : ∀ a ∈ firstAdd ++ [⟨[([97],some [7])],[2],some [1]⟩], Plain a.hash := by
    intro a ha
    simp only [firstAdd,cons_append,nil_append,mem_cons,not_mem_nil,or_false] at ha
    rcases ha with rfl | rfl <;> exact hp _ rfl
  obtain ⟨kvs',hdel,-,-,hm,-⟩ :=
    delMVCC_undoes frameCodec firstAdd _ rfl ⟨[([97],some [7])],[2],some [1]⟩ _ rfl true hal (by decide) (by decide)
  exact ⟨_,_,kvs',rfl,rfl,hdel,hm⟩

/-- The hash of version 0 comes again at version 1, and with version 1 its version is gone. -/
theorem delMVCC_forgets_hash : ∃ db kvs kvs', addAll frameCodec .empty 0 firstAdd = .ok db ∧
      addMVCC frameCodec db [] [1] (some [1]) 1 = .ok kvs ∧
      delMVCC frameCodec (applyKVs db kvs) [1] 1 true = .ok kvs' ∧ getVersion frameCodec db [1] = .ok 0 ∧
      getVersion frameCodec (applyKVs (applyKVs db kvs) kvs') [1] = .error .notFound := by
  refine ⟨_,_,_,rfl,rfl,rfl,?_⟩
  decide +kernel

end MVCC
end Dpos.DB
