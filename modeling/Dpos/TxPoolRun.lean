import Dpos.TxPool

/-! Runs of the mempool's transaction cache: the totals and the indexes follow the queue. -/
namespace Dpos.TxPool

open List SimpleQueue AccountTxIndex Crypto TxCache Word Cache

namespace AccountTxIndex
variable (c : Crypto) (toAddr : Bytes → Bytes) (index : AccountTxIndex)

/-- The transaction that an account has for a hash. -/
def item (addr key : Bytes) : Option Transaction := (index.accMap addr).bind fun lm => lm.getItem key

/-- The lists of the accounts are in order, and not too long. -/
def Ok : Prop := ∀ addr lm, index.accMap addr = some lm → lm.WF ∧ (lm.size : ℤ) ≤ index.maxperaccount

variable {c toAddr index} {tx : Transaction}

lemma wf_getD (h : index.Ok) (addr : Bytes) : ((index.accMap addr).getD ListMap.empty).WF := by
  cases hl : index.accMap addr with
  | none => exact ListMap.wf_empty
  | some lm => exact (h addr lm hl).1

lemma getItem_getD (index : AccountTxIndex) (addr key : Bytes) : ((index.accMap addr).getD ListMap.empty).getItem key = index.item addr key := by
  unfold item
  cases index.accMap addr <;> rfl

/-- The index with the list of one account replaced. -/
def withList (index : AccountTxIndex) (addr : Bytes) (lm : Option (ListMap Bytes Transaction)) : AccountTxIndex :=
  {index with accMap := Function.update index.accMap addr lm}

lemma item_withList (addr : Bytes) (lm : Option (ListMap Bytes Transaction)) (addr' key : Bytes) :
    (index.withList addr lm).item addr' key = if addr' = addr then lm.bind fun lm => lm.getItem key else index.item addr' key := by
  simp only [item,withList]
  split_ifs with h
  · rw [h,Function.update_self]
  · rw [Function.update_of_ne h]

lemma ok_withList (h : index.Ok) (addr : Bytes) {lm : Option (ListMap Bytes Transaction)}
    (hlm : ∀ l, lm = some l → l.WF ∧ (l.size : ℤ) ≤ index.maxperaccount) : (index.withList addr lm).Ok := by
  intro addr' l hl
  simp only [withList] at hl
  by_cases he : addr' = addr
  · rw [he,Function.update_self] at hl
    exact hlm l hl
  · rw [Function.update_of_ne he] at hl
    exact h addr' l hl

lemma size_lt_of_canPush (hr : 0 < index.maxperaccount) (hc : index.canPush toAddr tx = true) :
    (((index.accMap (fromAddr toAddr tx)).getD ListMap.empty).size : ℤ) < index.maxperaccount := by
  unfold canPush at hc
  cases ha : index.accMap (fromAddr toAddr tx) with
  | none => exact hr
  | some lm =>
    rw [ha] at hc
    simpa using hc

lemma push_eq (hs : (((index.accMap (fromAddr toAddr tx)).getD ListMap.empty).size : ℤ) < index.maxperaccount) :
    index.push c toAddr tx = (.ok (),index.withList (fromAddr toAddr tx)
      (some (((index.accMap (fromAddr toAddr tx)).getD ListMap.empty).push (tx.hash c) tx))) := by
  exact if_neg (not_le.mpr hs)

lemma push_spec (h : index.Ok) (hr : 0 < index.maxperaccount) (hc : index.canPush toAddr tx = true)
    (hn : index.item (fromAddr toAddr tx) (tx.hash c) = none) :
    ∃ index', index.push c toAddr tx = (.ok (),index') ∧ index'.Ok ∧ index'.maxperaccount = index.maxperaccount ∧
      ∀ addr key, index'.item addr key =
        if addr = fromAddr toAddr tx ∧ key = tx.hash c then some tx else index.item addr key := by
  have hwf := wf_getD h (fromAddr toAddr tx)
  have hs := size_lt_of_canPush hr hc
  rw [← getItem_getD] at hn
  refine ⟨_,push_eq hs,ok_withList h _ ?_,rfl,fun addr key => ?_⟩
  · rintro l ⟨⟩
    refine ⟨hwf.push hn tx,?_⟩
    rw [hwf.size_push hn]
    omega
  · rw [item_withList,Option.bind_some,hwf.getItem_push hn,getItem_getD]
    by_cases ha : addr = fromAddr toAddr tx
    · simp [ha]
    · simp [ha]

lemma remove_none (ha : index.accMap (fromAddr toAddr tx) = none) : index.remove c toAddr tx = index := by
  simp [remove,ha]

lemma remove_some {lm : ListMap Bytes Transaction} (ha : index.accMap (fromAddr toAddr tx) = some lm) :
    index.remove c toAddr tx = index.withList (fromAddr toAddr tx)
      (if (lm.remove (tx.hash c)).size = 0 then none else some (lm.remove (tx.hash c))) := by
  simp only [remove,ha,withList]

variable (c toAddr tx) in
lemma remove_spec (h : index.Ok) :
    (index.remove c toAddr tx).Ok ∧ (index.remove c toAddr tx).maxperaccount = index.maxperaccount ∧
      ∀ addr key, (index.remove c toAddr tx).item addr key =
        if addr = fromAddr toAddr tx ∧ key = tx.hash c then none else index.item addr key := by
  cases ha : index.accMap (fromAddr toAddr tx) with
  | none =>
    rw [remove_none ha]
    refine ⟨h,rfl,fun addr key => ?_⟩
    split_ifs with he
    · rw [he.1,item,ha]
      rfl
    · rfl
  | some lm =>
    rw [remove_some ha]
    obtain ⟨hwf,hm⟩ := h _ lm ha
    have hwf' := hwf.remove (tx.hash c)
    have hle := hwf.size_remove_le (tx.hash c)
    refine ⟨ok_withList h _ fun l hl => ?_,rfl,fun addr key => ?_⟩
    · split_ifs at hl
      cases hl
      exact ⟨hwf',by omega⟩
    · have hb : ((if (lm.remove (tx.hash c)).size = 0 then none else some (lm.remove (tx.hash c))).bind
          fun lm => lm.getItem key) = (lm.remove (tx.hash c)).getItem key := by
        split_ifs with hz
        · exact (hwf'.getItem_of_size_zero hz key).symm
        · rfl
      rw [item_withList,hb,hwf.getItem_remove]
      by_cases had : addr = fromAddr toAddr tx
      · simp [had,item,ha]
      · simp [had]

end AccountTxIndex

namespace LastTxCache
variable {c : Crypto} {l : LastTxCache} {tx : Transaction}

section
variable (hwf : l.l.WF) (hky : ∀ key tx, l.l.getItem key = some tx → tx.hash c = key)
include hwf hky

lemma makeRoom_spec : (l.makeRoom c).l.WF ∧
      (0 < l.max → (l.l.size : ℤ) ≤ l.max → ((l.makeRoom c).l.size : ℤ) < l.max) ∧
      ∀ key tx, (l.makeRoom c).l.getItem key = some tx → l.l.getItem key = some tx := by
  unfold makeRoom
  split_ifs with hf
  · cases ht : l.l.getTop with
    | none =>
      refine ⟨hwf,fun hr _ => ?_,fun _ _ h => h⟩
      rw [hwf.size_of_getTop_none ht]
      exact hr
    | some v =>
      obtain ⟨key,hke⟩ := hwf.getItem_of_getTop ht
      obtain rfl := hky key v hke
      refine ⟨hwf.remove _,fun _ hs => ?_,fun k t hk => ?_⟩
      · have hl := hwf.size_remove hke
        simp only [LastTxCache.remove]
        omega
      · simp only [LastTxCache.remove,hwf.getItem_remove] at hk
        split_ifs at hk
        exact hk
  · exact ⟨hwf,fun _ _ => not_le.mp hf,fun _ _ h => h⟩

lemma push_spec (hn : l.l.getItem (tx.hash c) = none) : (l.push c tx).l.WF ∧
      (0 < l.max → (l.l.size : ℤ) ≤ l.max → ((l.push c tx).l.size : ℤ) ≤ l.max) ∧
      ∀ key t, (l.push c tx).l.getItem key = some t → (key = tx.hash c ∧ t = tx) ∨ l.l.getItem key = some t := by
  obtain ⟨hwf',hs',hsb⟩ := makeRoom_spec hwf hky
  have hn' : (l.makeRoom c).l.getItem (tx.hash c) = none :=
    Option.eq_none_iff_forall_ne_some.mpr fun v hv => by cases hn.symm.trans (hsb _ v hv)
  refine ⟨hwf'.push hn' tx,fun hr hs => ?_,fun key t ht => ?_⟩
  · have hlt := hs' hr hs
    simp only [push,hwf'.size_push hn']
    omega
  · simp only [push,hwf'.getItem_push hn'] at ht
    split_ifs at ht with hk
    · exact .inl ⟨hk,(Option.some.inj ht).symm⟩
    · exact .inr (hsb key t ht)

end

end LastTxCache

/-! ### The cache -/

namespace Cache
variable {c : Crypto} {toAddr : Bytes → Bytes} {cache : Cache}

variable (c toAddr cache) in
/-- The transaction that is held for a hash. -/
def txAt (key : Bytes) : Option Transaction := (cache.qcache.getItem key).map Item.value

/-- The totals are sums over the held transactions, and the indexes have held transactions only. -/
structure Inv (c : Crypto) (toAddr : Bytes → Bytes) (cache : Cache) : Prop where
  queue : cache.qcache.txList.WF
  keyed : ∀ key tx, cache.txAt key = some tx → tx.hash c = key
  fee : cache.totalFee = wrap 64 (cache.held.map Transaction.fee).sum
  bytes : cache.qcache.cacheBytes = wrap 64 (cache.held.map fun tx => (tx.size : ℤ)).sum
  account : 0 < cache.index.maxperaccount
  index : cache.index.Ok
  senders : ∀ addr key tx, cache.index.item addr key = some tx ↔
    cache.txAt key = some tx ∧ fromAddr toAddr tx = addr
  last : cache.last.l.WF
  recent : ∀ key tx, cache.last.l.getItem key = some tx → cache.txAt key = some tx
  few : 0 < cache.last.max → (cache.last.l.size : ℤ) ≤ cache.last.max

variable (c toAddr) in
lemma inv_newCache {m : ℤ} (hm : 0 < m) (sl pcs qs : ℤ) : Inv c toAddr (newCache m sl pcs qs) where
  queue := ListMap.wf_empty
  keyed := by simp [txAt,newCache,getItem,ListMap.getItem,ListMap.empty]
  fee := rfl
  bytes := rfl
  account := hm
  index := by simp [AccountTxIndex.Ok,newCache]
  senders := by simp [item,txAt,newCache,getItem,ListMap.getItem,ListMap.empty]
  last := ListMap.wf_empty
  recent := by simp [newCache,ListMap.getItem,ListMap.empty]
  few := le_of_lt

namespace Inv
variable (h : cache.Inv c toAddr) {key : Bytes}
include h

lemma mem_held {tx : Transaction} : tx ∈ cache.held ↔ cache.txAt (tx.hash c) = some tx := by
  simp only [held,mem_map,h.queue.mem_values,txAt,getItem,Option.map_eq_some_iff]
  constructor
  · rintro ⟨i,⟨key,hk⟩,rfl⟩
    have := h.keyed key i.value (by simp [txAt,getItem,hk])
    exact ⟨i,this ▸ hk,rfl⟩
  · rintro ⟨i,hk,rfl⟩
    exact ⟨i,⟨_,hk⟩,rfl⟩

lemma item_eq_none (hn : cache.txAt key = none) (addr : Bytes) : cache.index.item addr key = none :=
  Option.eq_none_iff_forall_ne_some.mpr fun v hv => by cases hn.symm.trans ((h.senders _ _ v).mp hv).1

lemma last_eq_none (hn : cache.txAt key = none) : cache.last.l.getItem key = none :=
  Option.eq_none_iff_forall_ne_some.mpr fun v hv => by cases hn.symm.trans (h.recent _ v hv)

variable (now : ℤ) (tx : Transaction) (a hash : Bytes)

/-- `Push` changes nothing, or it has every part take the new transaction. -/
theorem push_cases : (cache.push c toAddr now tx).2 = cache ∨ cache.txAt (tx.hash c) = none ∧
      (cache.qcache.txList.size : ℤ) < cache.qcache.poolCacheSize ∧
      ∃ index' : AccountTxIndex, (index'.Ok ∧ index'.maxperaccount = cache.index.maxperaccount ∧
        ∀ a key, index'.item a key =
          if a = fromAddr toAddr tx ∧ key = tx.hash c then some tx else cache.index.item a key) ∧
        (cache.push c toAddr now tx).2 = ⟨index',cache.last.push c tx,
          ⟨cache.qcache.txList.push (tx.hash c) ⟨tx,tx.fee,now⟩,cache.qcache.poolCacheSize,
            wrap 64 (cache.qcache.cacheBytes+tx.size)⟩,
          wrap 64 (cache.totalFee+tx.fee),cache.shash.push c tx⟩ := by
  unfold push
  split_ifs with hc
  · unfold SimpleQueue.push
    split_ifs with he hf
    · exact .inl rfl
    · exact .inl rfl
    · have hn : cache.txAt (tx.hash c) = none := by
        simpa [txAt,SimpleQueue.exist,SimpleQueue.getItem,h.queue.exist_iff] using he
      obtain ⟨index',hp,hs⟩ := push_spec h.index h.account hc (h.item_eq_none hn _)
      refine .inr ⟨hn,not_le.mp hf,index',hs,?_⟩
      simp only [hp]
  · exact .inl rfl

lemma push : Inv c toAddr (cache.push c toAddr now tx).2 := by
  rcases h.push_cases now tx with he | ⟨hno,-,index',⟨ho,hm,hi⟩,he⟩
  · rwa [he]
  rw [he]
  have hn : cache.qcache.txList.getItem (tx.hash c) = none := Option.map_eq_none_iff.mp hno
  obtain ⟨hl,hf,hre⟩ := LastTxCache.push_spec h.last
    (fun key t ht => h.keyed key t (h.recent key t ht)) (h.last_eq_none hno)
  generalize hc : Cache.mk index' _ _ _ _ = cache'
  have htx : ∀ key, cache'.txAt key = if key = tx.hash c then some tx else cache.txAt key := by
    intro key
    simp only [← hc,txAt,getItem,h.queue.getItem_push hn]
    split_ifs <;> rfl
  have hh : cache'.held = cache.held ++ [tx] := by simp [← hc,held,h.queue.values_push hn]
  subst hc
  refine ⟨h.queue.push hn _,fun key t ht => ?_,?_,?_,hm ▸ h.account,ho,fun a key t => ?_,hl,
    fun key t ht => ?_,fun hr => hf hr (h.few hr)⟩
  · rw [htx] at ht
    split_ifs at ht with hk
    · rw [hk,← Option.some.inj ht]
    · exact h.keyed key t ht
  · rw [hh,map_append,sum_append]
    simp only [map_cons,map_nil,sum_singleton,h.fee,wrap_wrap_add]
  · rw [hh,map_append,sum_append]
    simp only [map_cons,map_nil,sum_singleton,h.bytes,wrap_wrap_add]
  · rw [hi,htx]
    split_ifs with hb hk hk
    · obtain ⟨rfl,-⟩ := hb
      exact ⟨fun he => ⟨he,by rw [Option.some.inj he]⟩,And.left⟩
    · exact absurd hb.2 hk
    · rw [hk,h.item_eq_none hno]
      refine ⟨fun h => by simp at h,fun h => absurd ⟨?_,hk⟩ hb⟩
      rw [← h.2,Option.some.inj h.1]
    · exact h.senders a key t
  · rw [htx]
    rcases hre key t ht with ⟨hk,rfl⟩ | hold
    · rw [if_pos hk]
    · have hs := h.recent key t hold
      rw [if_neg,hs]
      rintro rfl
      cases hno.symm.trans hs

lemma remove_cases : (cache.remove c toAddr hash = cache ∧ cache.txAt hash = none) ∨
      ∃ item, cache.qcache.txList.getItem hash = some item ∧ item.value.hash c = hash ∧
        cache.remove c toAddr hash = ⟨cache.index.remove c toAddr item.value,cache.last.remove c item.value,
          ⟨cache.qcache.txList.remove hash,cache.qcache.poolCacheSize,
            wrap 64 (cache.qcache.cacheBytes-item.value.size)⟩,
          wrap 64 (cache.totalFee-item.value.fee),cache.shash.remove c item.value⟩ := by
  unfold remove
  cases hg : cache.qcache.getItem hash with
  | none => exact .inl ⟨rfl,by rw [txAt,hg]; rfl⟩
  | some item =>
    refine .inr ⟨item,hg,h.keyed hash item.value (by rw [txAt,hg]; rfl),?_⟩
    simp only [SimpleQueue.remove,hg,Option.map_some,Option.getD_some]

lemma remove : Inv c toAddr (cache.remove c toAddr hash) := by
  rcases h.remove_cases hash with ⟨he,-⟩ | ⟨i,hg,hh,he⟩
  · rwa [he]
  rw [he]
  obtain ⟨ho,hm,hi⟩ := remove_spec c toAddr i.value h.index
  generalize hc : Cache.mk _ _ _ _ _ = cache'
  have htx : ∀ key, cache'.txAt key = if key = hash then none else cache.txAt key := by
    intro key
    simp only [← hc,txAt,getItem,h.queue.getItem_remove]
    split_ifs <;> rfl
  have hhe : cache.held.Perm (i.value :: cache'.held) := by
    simpa [← hc,held] using (h.queue.values_remove hg).map Item.value
  have hs (f : Transaction → ℤ) : wrap 64 (wrap 64 (cache.held.map f).sum-f i.value) =
      wrap 64 (cache'.held.map f).sum := by
    rw [(hhe.map f).sum_eq,map_cons,sum_cons,wrap_wrap_sub,add_sub_cancel_left]
  have hat : cache.txAt hash = some i.value := by simp only [txAt,getItem,hg,Option.map_some]
  subst hc
  refine ⟨h.queue.remove hash,fun key t ht => ?_,h.fee ▸ hs _,h.bytes ▸ hs fun tx => tx.size,hm ▸ h.account,ho,fun a key t => ?_,h.last.remove _,
    fun key t ht => ?_,fun hr => ?_⟩
  · rw [htx] at ht
    split_ifs at ht
    exact h.keyed key t ht
  · rw [hi,htx,hh]
    by_cases hk : key = hash
    · -- the only entry for the hash is the one of the sender
      have hot : a ≠ fromAddr toAddr i.value → cache.index.item a hash ≠ some t := by
        intro hne hso
        obtain ⟨ht,ha⟩ := (h.senders a hash t).mp hso
        rw [hat] at ht
        exact hne (ha ▸ Option.some.inj ht ▸ rfl)
      by_cases ha : a = fromAddr toAddr i.value
      · simp [hk,ha]
      · simpa [hk,ha] using hot ha
    · simpa [hk] using h.senders a key t
  · simp only [LastTxCache.remove,h.last.getItem_remove,hh] at ht
    rw [htx]
    split_ifs at ht ⊢
    exact h.recent key t ht
  · refine le_trans ?_ (h.few hr)
    exact_mod_cast h.last.size_remove_le _

lemma removeTxs (hashes : List Bytes) : Inv c toAddr (cache.removeTxs c toAddr hashes) :=
  foldlRecOn hashes _ h fun _ h hash _ => h.remove hash

variable (su : TxCache.Setup) (d : Bytes → Option (List Transaction))

lemma step (op : Op) : Inv c toAddr (step su d c toAddr cache op) := by
  cases op with
  | push now tx => exact h.push now tx
  | remove hash => exact h.remove hash
  | removeExpired now height b => exact h.removeTxs _

lemma run (ops : List Op) : Inv c toAddr (run su d c toAddr cache ops) :=
  foldlRecOn ops _ h fun _ h op _ => h.step su d op

lemma nodup_held : cache.held.Nodup := by
  refine List.Nodup.map_on (fun i hi i' hi' he => ?_)
    (h.queue.nodup_values (f:=fun i => i.value.hash c) fun key i hke => h.keyed key i.value ?_)
  · obtain ⟨key,hke⟩ := h.queue.mem_values.mp hi
    obtain ⟨key',hke'⟩ := h.queue.mem_values.mp hi'
    have hk := h.keyed key i.value (by rw [txAt,getItem,hke]; rfl)
    have hk' := h.keyed key' i'.value (by rw [txAt,getItem,hke']; rfl)
    rw [← he,hk] at hk'
    rw [hk',hke'] at hke
    exact (Option.some.inj hke).symm
  · rw [txAt,getItem,hke]
    rfl

/-- The list of an account has the held transactions that the account sent. -/
theorem getAccTxs_perm :
    (cache.index.getAccTxs a).Perm (cache.held.filter fun tx => fromAddr toAddr tx = a) := by
  have hl : cache.index.getAccTxs a = ((cache.index.accMap a).getD ListMap.empty).values := by
    unfold getAccTxs
    cases cache.index.accMap a <;> rfl
  have hwf := wf_getD h.index a
  have hi := getItem_getD cache.index a
  rw [hl]
  refine (perm_ext_iff_of_nodup (hwf.nodup_values (f:=Transaction.hash c) fun key tx hk => ?_)
    (h.nodup_held.filter _)).mpr fun tx => ?_
  · exact h.keyed key tx ((h.senders a key tx).mp (hi key ▸ hk)).1
  · simp only [hwf.mem_values,hi,h.senders,mem_filter,h.mem_held,decide_eq_true_eq]
    constructor
    · rintro ⟨key,hk,ha⟩
      exact ⟨(h.keyed key tx hk).symm ▸ hk,ha⟩
    · rintro ⟨hk,ha⟩
      exact ⟨_,hk,ha⟩

lemma txNumOfAccount_le : (cache.index.txNumOfAccount a : ℤ) ≤ cache.index.maxperaccount := by
  unfold txNumOfAccount
  cases ha : cache.index.accMap a with
  | none => exact h.account.le
  | some lm => exact (h.index a lm ha).2

end Inv

def limits (cache : Cache) : ℤ × ℤ × ℤ × ℤ :=
  (cache.index.maxperaccount,cache.last.max,cache.shash.max,cache.qcache.poolCacheSize)

variable (c toAddr cache) in
lemma limits_push (now : ℤ) (tx : Transaction) : (cache.push c toAddr now tx).2.limits = cache.limits := by
  have hs : (cache.shash.push c tx).max = cache.shash.max := by
    unfold SHashTxCache.push
    split_ifs <;> rfl
  unfold push SimpleQueue.push AccountTxIndex.push
  split_ifs <;> simp only [limits]
  split_ifs <;> simp [LastTxCache.push,hs]

lemma limits_remove (hash : Bytes) : (cache.remove c toAddr hash).limits = cache.limits := by
  unfold remove
  cases hg : cache.qcache.getItem hash with
  | none => rfl
  | some i =>
    have hi : (cache.index.remove c toAddr i.value).maxperaccount = cache.index.maxperaccount := by
      cases ha : cache.index.accMap (fromAddr toAddr i.value) with
      | none => rw [remove_none ha]
      | some lm =>
        rw [remove_some ha]
        rfl
    simp only [limits,hi,LastTxCache.remove,SHashTxCache.remove,SimpleQueue.remove,hg,Option.map_some,Option.getD_some]

lemma limits_removeTxs (hashes : List Bytes) : (cache.removeTxs c toAddr hashes).limits = cache.limits := by
  induction hashes generalizing cache with
  | nil => rfl
  | cons hash hashes ih => exact ih.trans (limits_remove hash)

variable (c toAddr cache) in
lemma limits_run (su : TxCache.Setup) (decode : Bytes → Option (List Transaction)) (ops : List Op) :
    (run su decode c toAddr cache ops).limits = cache.limits := by
  induction ops generalizing cache with
  | nil => rfl
  | cons op ops ih =>
    refine (ih _).trans ?_
    cases op with
    | push now tx => exact limits_push _ _ _ now tx
    | remove hash => exact limits_remove hash
    | removeExpired now height b => exact limits_removeTxs _

/-- The totals, the indexes and the queue describe the same transactions, within their limits. -/
structure Consistent (c : Crypto) (toAddr : Bytes → Bytes) (maxTxPerAccount sizeLast : ℤ) (cache : Cache) :
    Prop where
  fee : cache.totalFee = wrap 64 (cache.held.map Transaction.fee).sum
  bytes : cache.qcache.cacheBytes = wrap 64 (cache.held.map fun tx => (tx.size : ℤ)).sum
  senders : ∀ addr, (cache.index.getAccTxs addr).Perm (cache.held.filter fun tx => fromAddr toAddr tx = addr)
  account : ∀ addr, (cache.index.txNumOfAccount addr : ℤ) ≤ maxTxPerAccount
  recent : ∀ tx ∈ cache.last.l.values, tx ∈ cache.held
  few : (cache.last.l.size : ℤ) ≤ sizeLast
  queue : ∀ item hash, cache.qcache.getItem hash = some item ↔
    item ∈ cache.qcache.txList.values ∧ item.value.hash c = hash
  size : cache.qcache.txList.size = cache.qcache.txList.values.length

lemma Inv.consistent (h : cache.Inv c toAddr) (hl : 0 < cache.last.max) :
    cache.Consistent c toAddr cache.index.maxperaccount cache.last.max := by
  refine ⟨h.fee,h.bytes,h.getAccTxs_perm,h.txNumOfAccount_le,fun tx ht => ?_,h.few hl,fun i hash => ?_,h.queue.size_eq⟩
  · obtain ⟨key,hk⟩ := h.last.mem_values.mp ht
    have ha := h.recent key tx hk
    exact h.mem_held.mpr ((h.keyed key tx ha).symm ▸ ha)
  · rw [getItem,h.queue.mem_values]
    constructor
    · exact fun hg => ⟨⟨hash,hg⟩,h.keyed hash i.value (by rw [txAt,getItem,hg]; rfl)⟩
    · rintro ⟨⟨key,hg⟩,rfl⟩
      rw [h.keyed key i.value (by rw [txAt,getItem,hg]; rfl),hg]

end Cache

section
variable (su : TxCache.Setup) (decode : Bytes → Option (List Transaction)) (c : Crypto) (toAddr : Bytes → Bytes)

/-- With limits above zero, every state of the cache is consistent. -/
theorem run_consistent {maxTxPerAccount sizeLast : ℤ} (hm : 0 < maxTxPerAccount) (hla : 0 < sizeLast)
    (poolCacheSize queueSize : ℤ) (ops : List Op) :
    (run su decode c toAddr (newCache maxTxPerAccount sizeLast poolCacheSize queueSize) ops).Consistent c
      toAddr maxTxPerAccount sizeLast := by
  have hi := (inv_newCache c toAddr hm sizeLast poolCacheSize queueSize).run su decode ops
  have hl := limits_run c toAddr (newCache maxTxPerAccount sizeLast poolCacheSize queueSize) su decode ops
  obtain ⟨ha,hr⟩ := Prod.mk.inj hl
  have hma := (Prod.mk.inj hr).1
  have hc := hi.consistent (hma.symm ▸ hla)
  rwa [ha,hma] at hc

end

def paidCall (nonce : ℤ) : Transaction := ⟨[1],[],none,7,0,nonce,[],0,[],[]⟩

/-- An account that may have no transaction has one in the queue, and a list without room has one. -/
theorem run_inconsistent :
    ¬(run narrow (fun _ => none) framed id (newCache (-1) 10 10 10) [.push 0 (paidCall 0)]).Consistent
        framed id (-1) 10 ∧
      ¬(run narrow (fun _ => none) framed id (newCache 10 (-1) 10 10) [.push 0 (paidCall 0)]).Consistent
        framed id 10 (-1) := by
  refine ⟨fun h => ?_,fun h => ?_⟩
  · exact absurd h.fee (by decide +kernel)
  · exact absurd h.few (by decide +kernel)

theorem run_consistent_pushed : (run narrow (fun _ => none) framed id (newCache 1 1 10 10)
      [.push 0 (paidCall 0),.push 0 (paidCall 1),.remove ((paidCall 0).hash framed)]).Consistent framed id 1 1 :=
  run_consistent _ _ _ _ (by decide) (by decide) _ _ _

/-! ### The short hashes -/

namespace Cache
variable {c : Crypto} {toAddr : Bytes → Bytes} {cache : Cache}

/-- A held transaction is found by its short hash, or another one has it too. -/
def Findable (c : Crypto) (cache : Cache) : Prop :=
  ∀ tx ∈ cache.held, cache.shash.getSHashTxCache (shortHash c tx) = some tx ∨
    ∃ tx' ∈ cache.held, tx' ≠ tx ∧ shortHash c tx' = shortHash c tx

/-- No other held transaction has the short hash of the one with this hash. -/
def Alone (c : Crypto) (cache : Cache) (hash : Bytes) : Prop :=
  ∀ tx ∈ cache.held, tx.hash c = hash → ∀ tx' ∈ cache.held, shortHash c tx' = shortHash c tx → tx' = tx

/-- There is an entry for every short hash, and each entry is a held transaction. -/
structure ShortInv (c : Crypto) (cache : Cache) : Prop where
  wf : cache.shash.l.WF
  room : cache.qcache.poolCacheSize ≤ cache.shash.max
  entries : ∀ sHash tx, cache.shash.l.getItem sHash = some tx → tx ∈ cache.held ∧ shortHash c tx = sHash
  covered : ∀ tx ∈ cache.held, (cache.shash.l.getItem (shortHash c tx)).isSome

lemma ShortInv.findable (h : cache.ShortInv c) : cache.Findable c := by
  intro tx ht
  obtain ⟨tx',hg⟩ := Option.isSome_iff_exists.mp (h.covered tx ht)
  by_cases he : tx' = tx
  · exact .inl (he ▸ hg)
  · obtain ⟨hh,hs⟩ := h.entries _ tx' hg
    exact .inr ⟨tx',hh,he,hs⟩

lemma ShortInv.size_le (h : cache.ShortInv c) : cache.shash.l.size ≤ cache.held.length := by
  rw [h.wf.size_eq]
  refine (subperm_of_subset (h.wf.nodup_values (f:=shortHash c) fun key tx hk => (h.entries key tx hk).2)
    fun tx ht => ?_).length_le
  obtain ⟨key,hk⟩ := h.wf.mem_values.mp ht
  exact (h.entries key tx hk).1

/-- Where there is room, the first transaction of a short hash has its entry. -/
theorem shash_push {s : SHashTxCache} (hw : s.l.WF) (hr : ¬s.max ≤ (s.l.size : ℤ)) (tx : Transaction) :
    (s.push c tx).l.WF ∧ (s.push c tx).max = s.max ∧ ∀ sHash, (s.push c tx).l.getItem sHash =
      (s.l.getItem sHash).or (if sHash = shortHash c tx then some tx else none) := by
  unfold SHashTxCache.push
  rw [if_neg hr]
  split_ifs with he
  · refine ⟨hw,rfl,fun sHash => ?_⟩
    obtain ⟨t,ht⟩ := Option.isSome_iff_exists.mp (hw.exist_iff.mp he)
    by_cases hk : sHash = shortHash c tx
    · rw [hk,ht,Option.some_or]
    · rw [if_neg hk,Option.or_none]
  · have hn : s.l.getItem (shortHash c tx) = none := by simpa [hw.exist_iff] using he
    refine ⟨hw.push hn tx,rfl,fun sHash => ?_⟩
    rw [hw.getItem_push hn]
    split_ifs with hk
    · rw [hk,hn,Option.none_or]
    · rw [Option.or_none]

lemma ShortInv.push (hs : cache.ShortInv c) (h : cache.Inv c toAddr) (now : ℤ) (tx : Transaction) :
    (cache.push c toAddr now tx).2.ShortInv c := by
  rcases h.push_cases now tx with heq | ⟨hno,hr,index',-,heq⟩
  · rwa [heq]
  rw [heq]
  have hn : cache.qcache.txList.getItem (tx.hash c) = none := Option.map_eq_none_iff.mp hno
  generalize hc : Cache.mk index' _ _ _ _ = cache'
  have hh : cache'.held = cache.held ++ [tx] := by simp [← hc,held,h.queue.values_push hn]
  subst hc
  have hsi : ¬cache.shash.max ≤ (cache.shash.l.size : ℤ) := by
    have hl := hs.size_le
    rw [held,length_map,← h.queue.size_eq] at hl
    have hm := hs.room
    omega
  obtain ⟨hw,hm,hi⟩ := shash_push hs.wf hsi tx
  refine ⟨hw,hs.room.trans_eq hm.symm,fun sHash t hg => ?_,fun t ht => ?_⟩
  · rw [hi] at hg
    rw [hh]
    rcases Option.or_eq_some_iff.mp hg with hg | ⟨-,hg⟩
    · obtain ⟨hme,hso⟩ := hs.entries sHash t hg
      exact ⟨mem_append_left _ hme,hso⟩
    · split_ifs at hg with hk
      cases hg
      exact ⟨by simp,hk.symm⟩
  · rw [hi]
    rw [hh] at ht
    rcases mem_append.mp ht with ht | ht
    · simp [hs.covered t ht]
    · simp [mem_singleton.mp ht]

lemma Inv.mem_held_remove (h : cache.Inv c toAddr) (hash : Bytes) (tx : Transaction) :
    tx ∈ (cache.remove c toAddr hash).held ↔ tx ∈ cache.held ∧ tx.hash c ≠ hash := by
  rw [(h.remove hash).mem_held,h.mem_held]
  rcases h.remove_cases hash with ⟨he,hn⟩ | ⟨i,hg,hh,he⟩
  · rw [he]
    refine ⟨fun ha => ⟨ha,?_⟩,And.left⟩
    rintro rfl
    cases hn.symm.trans ha
  · rw [he]
    simp only [txAt,getItem,h.queue.getItem_remove]
    by_cases hk : tx.hash c = hash
    · simp [hk]
    · simp [hk]

lemma ShortInv.remove (hs : cache.ShortInv c) (h : cache.Inv c toAddr) {hash : Bytes} (hal : cache.Alone c hash) :
    (cache.remove c toAddr hash).ShortInv c := by
  have hm := h.mem_held_remove hash
  rcases h.remove_cases hash with ⟨he,hn⟩ | ⟨i,hg,hh,he⟩
  · rwa [he]
  have hit : i.value ∈ cache.held := h.mem_held.mpr (by rw [hh,txAt,getItem,hg]; rfl)
  rw [he] at hm ⊢
  have hi : ∀ sHash, (cache.shash.remove c i.value).l.getItem sHash =
      if sHash = shortHash c i.value then none else cache.shash.l.getItem sHash := hs.wf.getItem_remove _
  refine ⟨hs.wf.remove _,hs.room,fun sHash t ht => ?_,fun t ht => ?_⟩
  · rw [hi] at ht
    split_ifs at ht with hk
    obtain ⟨hhe,hsh⟩ := hs.entries sHash t ht
    refine ⟨(hm t).mpr ⟨hhe,fun hh' => hk ?_⟩,hsh⟩
    have ha := h.mem_held.mp hhe
    rw [hh',← hh,h.mem_held.mp hit] at ha
    rw [← hsh,Option.some.inj ha]
  · obtain ⟨hhe,hne⟩ := (hm t).mp ht
    rw [hi,if_neg]
    · exact hs.covered t hhe
    · intro hsh
      exact hne ((hal _ hit hh t hhe hsh) ▸ hh)

lemma ShortInv.removeTxs (hs : cache.ShortInv c) (h : cache.Inv c toAddr) {hashes : List Bytes}
    (ha : ∀ hash ∈ hashes, cache.Alone c hash) : (cache.removeTxs c toAddr hashes).ShortInv c := by
  induction hashes generalizing cache with
  | nil => exact hs
  | cons hash hashes ih =>
    refine ih (hs.remove h (ha hash (mem_cons_self ..))) (h.remove hash) fun k hk tx ht hke tx' ht' => ?_
    exact ha k (mem_cons_of_mem _ hk) tx ((h.mem_held_remove hash tx).mp ht).1 hke tx'
      ((h.mem_held_remove hash tx').mp ht').1

lemma shortInv_newCache (m sl : ℤ) {pcs qs : ℤ} (hs : qs ≤ pcs) : (newCache m sl pcs qs).ShortInv c where
  wf := ListMap.wf_empty
  room := hs
  entries := by simp [newCache,ListMap.getItem,ListMap.empty]
  covered := by simp [newCache,held,ListMap.values,ListMap.empty]

end Cache

section
variable (su : TxCache.Setup) (decode : Bytes → Option (List Transaction)) (c : Crypto) (toAddr : Bytes → Bytes)

/-- A transaction is removed only while it is alone with its short hash. -/
def StepAlone (cache : Cache) : Op → Prop
  | .push _ _ => True
  | .remove hash => cache.Alone c hash
  | .removeExpired now height blocktime => ∀ item ∈ cache.qcache.txList.values,
      isExpired su decode now item height blocktime = true → cache.Alone c (item.value.hash c)

def RunAlone (cache : Cache) : List Op → Prop
  | [] => True
  | op :: ops => StepAlone su decode c cache op ∧ RunAlone (step su decode c toAddr cache op) ops

variable {su decode c toAddr} {cache : Cache}

lemma Cache.ShortInv.step (hs : cache.ShortInv c) (h : cache.Inv c toAddr) {op : Op}
    (ho : StepAlone su decode c cache op) : (step su decode c toAddr cache op).ShortInv c := by
  cases op with
  | push now tx => exact hs.push h now tx
  | remove hash => exact hs.remove h ho
  | removeExpired now height b =>
    refine hs.removeTxs h fun hash hh => ?_
    obtain ⟨i,hi,rfl⟩ := mem_map.mp hh
    obtain ⟨hm,he⟩ := mem_filter.mp hi
    exact ho i hm he

lemma Cache.ShortInv.run (hs : cache.ShortInv c) (h : cache.Inv c toAddr) {ops : List Op}
    (ho : RunAlone su decode c toAddr cache ops) : (run su decode c toAddr cache ops).ShortInv c := by
  induction ops generalizing cache with
  | nil => exact hs
  | cons op ops ih => exact ih (hs.step h ho.1) (h.step su decode op) ho.2

/-- If only transactions that are alone with their short hash are removed, held transactions are found by it. -/
theorem run_findable {maxTxPerAccount sizeLast poolCacheSize queueSize : ℤ} (hm : 0 < maxTxPerAccount)
    (hs : queueSize ≤ poolCacheSize) {ops : List Op}
    (ho : RunAlone su decode c toAddr (newCache maxTxPerAccount sizeLast poolCacheSize queueSize) ops) :
    (run su decode c toAddr (newCache maxTxPerAccount sizeLast poolCacheSize queueSize) ops).Findable c :=
  ((shortInv_newCache _ _ hs).run (inv_newCache c toAddr hm _ _ _) ho).findable

end

/-- Two transactions share a short hash: the second one has no entry, and with the first one the entry goes. -/
theorem run_not_findable : ¬(run narrow (fun _ => none) framed id (newCache 10 10 10 10)
      [.push 0 (paidCall 0),.push 0 (paidCall 1),.remove ((paidCall 0).hash framed)]).Findable framed := by
  intro h
  have hh : (run narrow (fun _ => none) framed id (newCache 10 10 10 10)
      [.push 0 (paidCall 0),.push 0 (paidCall 1),.remove ((paidCall 0).hash framed)]).held = [paidCall 1] := by
    decide +kernel
  rcases h (paidCall 1) (by simp [hh]) with hg | ⟨tx,ht,hne,-⟩
  · revert hg
    decide +kernel
  · rw [hh] at ht
    exact hne (mem_singleton.mp ht)

theorem run_findable_single : (run narrow (fun _ => none) framed id (newCache 10 10 10 10)
      [.push 0 (paidCall 0),.remove ((paidCall 0).hash framed),.push 0 (paidCall 1)]).Findable framed := by
  refine run_findable (by decide) (by decide) ⟨trivial,?_,trivial,trivial⟩
  have hh : (step narrow (fun _ => none) framed id (newCache 10 10 10 10) (.push 0 (paidCall 0))).held =
      [paidCall 0] := by
    decide +kernel
  intro tx ht _ tx' ht' _
  rw [hh,mem_singleton] at ht ht'
  rw [ht,ht']

section
variable {su : TxCache.Setup} {decode : Bytes → Option (List Transaction)} {c : Crypto} {now height blocktime count : ℤ}
  {hashes : List Bytes}

lemma walk_filterItem {i : ℤ} {items : List Item} {txs : List Transaction} :
    walk count (filterItem su decode c now height blocktime hashes false) i items txs = txs ++
      ((if i < count then items.take (count-i).toNat else items).filter
        (packable su decode c now height blocktime hashes)).map Item.value := by
  induction items generalizing i txs with
  | nil => simp [walk]
  | cons item items ih =>
    have hf : filterItem su decode c now height blocktime hashes false item txs = (true,txs ++
        ([item].filter (packable su decode c now height blocktime hashes)).map Item.value) := by
      unfold filterItem packable
      split_ifs <;> simp_all
    simp only [walk,hf,true_and]
    by_cases hc : i+1 = count
    · rw [if_neg (not_not.mpr hc),if_pos (by omega),show (count-i).toNat = 1 by omega]
      rfl
    · rw [if_pos hc,ih,append_assoc,← map_append,← filter_append]
      by_cases hi : i < count
      · rw [if_pos hi,if_pos (by omega),show (count-i).toNat = (count-(i+1)).toNat+1 by omega]
        rfl
      · rw [if_neg hi,if_neg (by omega)]
        rfl

/-- Listed are the packable items that the walk gets to, as many as asked for or, if none is asked
for, all. -/
theorem getTxList_eq (cache : Cache) : cache.getTxList su decode c now height blocktime count hashes =
    ((if 0 < count then cache.qcache.txList.values.take count.toNat else cache.qcache.txList.values).filter
      (packable su decode c now height blocktime hashes)).map Item.value := by
  rw [getTxList,filterTxList,walk_filterItem,nil_append,sub_zero]

/-- The first of those that pass a test, against those that pass among the first. -/
theorem filter_take_eq_iff {α β : Type} (p : α → Bool) (f : α → β) (l : List α) (k : ℕ) :
    ((l.take k).filter p).map f = ((l.filter p).map f).take k ↔
      (∀ x ∈ l.take k, p x = true) ∨ ∀ x ∈ l.drop k, p x = false := by
  have hl : l.filter p = (l.take k).filter p ++ (l.drop k).filter p := by rw [← filter_append,take_append_drop]
  have ht : ((l.take k).filter p).map f = ((l.filter p).map f).take ((l.take k).filter p).length := by
    rw [hl,map_append,take_left' (length_map _)]
  have hle := length_filter_le p (l.take k)
  have hlen := length_take (i := k) (l := l)
  have hd := length_drop (i := k) (l := l)
  have hd' := length_filter_le p (l.drop k)
  have h1 : (∀ x ∈ l.take k, p x = true) ↔ ((l.take k).filter p).length = (l.take k).length :=
    length_filter_eq_length_iff.symm
  have h2 : (∀ x ∈ l.drop k, p x = false) ↔ ((l.drop k).filter p).length = 0 := by simp [filter_eq_nil_iff]
  rw [ht,take_eq_take_iff,length_map,h1,h2,hl,length_append]
  omega

/-- **The list for a block** has the first packable transactions, as many as asked for, exactly if the
walk sees no other item among its first or leaves no packable item behind. -/
theorem getTxList_first_iff (cache : Cache) : let items := cache.qcache.txList.values
    let p := packable su decode c now height blocktime hashes
    cache.getTxList su decode c now height blocktime count hashes =
        ((items.filter p).map Item.value).take (min count (items.filter p).length).toNat ↔
      if 0 < count then (∀ x ∈ items.take count.toNat, p x = true) ∨ ∀ x ∈ items.drop count.toNat, p x = false
      else ∀ x ∈ items, p x = false := by
  dsimp only
  rw [getTxList_eq]
  generalize packable su decode c now height blocktime hashes = p
  generalize cache.qcache.txList.values = items
  split_ifs with h
  · have hm : (min count (items.filter p).length).toNat = min count.toNat ((items.filter p).map Item.value).length := by
      rw [length_map]
      omega
    rw [← filter_take_eq_iff p Item.value,hm,← take_eq_take_min]
  · rw [show (min count _).toNat = 0 by omega]
    simp [filter_eq_nil_iff]

end

/-- An expired transaction takes the place of the one that was asked for. -/
theorem getTxList_expired_first : ∃ cache, cache = run narrow (fun _ => none) framed id (newCache 10 10 10 10)
      [.push 0 (paidCall 0),.push 700 (paidCall 1)] ∧
    cache.getTxList narrow (fun _ => none) framed 700 0 0 1 [] = [] ∧
    (cache.qcache.txList.values.filter (packable narrow (fun _ => none) framed 700 0 0 [])).map Item.value =
      [paidCall 1] := by
  refine ⟨_,rfl,?_,?_⟩ <;> decide +kernel

end Dpos.TxPool
