import Dpos.TableCache

/-! Runs of a table: row operations and saves, from an empty database. -/
namespace Dpos.Table

open List Table KeyIndex

variable {D : Type} {p : Bytes} {c' : Cache D} {row : Row D} {db : Store}

open DB (Store KeyValue applyKVs)
open KeyIndex (writeAll)

inductive Op (D : Type)
  | add (data : D)
  | replace (data : D)
  | update (primary : Bytes) (data : D)
  | del (primary : Bytes)
  | save

section
variable [DecidableEq D] (m : RowMeta D) (ints : IntCodec) (opt : Opt)

def saveAll (s : Store × Cache D) : Store × Cache D :=
  match save m ints opt s.2 with
  | (.error _,c) => (s.1,c)
  | (.ok kvs,c) => (applyKVs s.1 kvs,c)

def step (s : Store × Cache D) : Op D → Store × Cache D
  | .add data => (s.1,(add m ints opt s.1 s.2 data).2)
  | .replace data => (s.1,(replace m ints opt s.1 s.2 data).2)
  | .update primary data => (s.1,(update m opt s.1 s.2 primary data).2)
  | .del primary => (s.1,(del m opt s.1 s.2 primary).2)
  | .save => saveAll m ints opt s

def run (s : Store × Cache D) (ops : List (Op D)) : Store × Cache D := ops.foldl (step m ints opt) s

/-- Each operation meets its condition in the state before it. -/
def AllMeet (meets : Store × Cache D → Op D → Prop) (s : Store × Cache D) : List (Op D) → Prop
  | [] => True
  | op :: ops => meets s op ∧ AllMeet meets (step m ints opt s op) ops

variable {m ints opt}

/-- An invariant of steps that meet their conditions holds behind every run. -/
theorem run_induction {ms : Store × Cache D → Op D → Prop} {P : Store × Cache D → Prop}
    (hs : ∀ s op, P s → ms s op → P (step m ints opt s op)) {s : Store × Cache D} {ops : List (Op D)}
    (h : P s) (hme : AllMeet m ints opt ms s ops) : P (run m ints opt s ops) := by
  induction ops generalizing s with
  | nil => exact h
  | cons op ops ih => exact ih (hs s op h hme.1) hme.2

end

section
variable (m : RowMeta D) (ints : IntCodec) (opt : Opt) (db : Store) (c : Cache D)

/-- `findRow` has the row, in the cache or in the database. -/
def Held (p : Bytes) : Prop := c.rowmap p ≠ none ∨ db.get (opt.dataKey p) ≠ none

def Readable (p : Bytes) : Prop := ∀ data, Stored m opt db p data → p ++ m.encode data ≠ []

variable {m ints opt db c} (hm : m.Lawful) (hdb : Rows m opt db) (hc : CacheOk m opt db c) (p : Bytes) (d : D)
include hm hdb hc

lemma addAt_spec : ¬Held opt db c p ∧ Put m opt db c p d (addAt m opt db c p d).2 ∨
      Held opt db c p ∧ (addAt m opt db c p d).2 = c := by
  unfold addAt
  rcases findRow_cases hm hdb hc p with ⟨i,row,hmap,-,-,-,he⟩ | ⟨hmap,hv,he⟩ | ⟨hmap,old,hold,⟨-,he⟩ | ⟨-,he⟩⟩
  · exact .inr ⟨.inl (by simp [hmap]),by rw [he]⟩
  · rw [he]
    exact .inl ⟨by simp [Held,hmap,hv],.new hmap hv⟩
  · exact .inr ⟨.inr (by simp [hold.value]),by rw [he]⟩
  · exact .inr ⟨.inr (by simp [hold.value]),by rw [he]⟩

lemma replaceAt_spec : Put m opt db c p d (replaceAt m opt db c p d).2 ∨
      ¬Readable m opt db p ∧ (replaceAt m opt db c p d).2 = c := by
  unfold replaceAt
  rcases findRow_cases hm hdb hc p with ⟨i,row,hmap,-,-,-,he⟩ | ⟨hmap,hv,he⟩ | ⟨hmap,old,hold,⟨-,he⟩ | ⟨hem,he⟩⟩
  · rw [he]
    exact .inl (.again hmap)
  · rw [he]
    exact .inl (.new hmap hv)
  · rw [he]
    exact .inl (.change hmap hold)
  · exact .inr ⟨fun h => h old hold hem,by rw [he]⟩

lemma updateAt_spec : Held opt db c p ∧ Put m opt db c p d (updateAt m opt db c p d).2 ∨
      (Held opt db c p → ¬Readable m opt db p) ∧ (updateAt m opt db c p d).2 = c := by
  unfold updateAt
  rcases findRow_cases hm hdb hc p with ⟨i,row,hmap,-,-,-,he⟩ | ⟨hmap,hv,he⟩ | ⟨hmap,old,hold,⟨-,he⟩ | ⟨hem,he⟩⟩
  · rw [he]
    exact .inl ⟨.inl (by simp [hmap]),.again hmap⟩
  · exact .inr ⟨fun h => absurd h (by simp [Held,hmap,hv]),by rw [he]⟩
  · rw [he]
    exact .inl ⟨.inr (by simp [hold.value]),.change hmap hold⟩
  · exact .inr ⟨fun _ h => h old hold hem,by rw [he]⟩

lemma del_spec : Held opt db c p ∧ Drop m opt db c p (del m opt db c p).2 ∨
      (Held opt db c p → ¬Readable m opt db p) ∧ (del m opt db c p).2 = c := by
  unfold del
  rcases findRow_cases hm hdb hc p with ⟨i,row,hmap,hrow,-,hl,he⟩ | ⟨hmap,hv,he⟩ |
    ⟨hmap,old,hold,⟨-,he⟩ | ⟨hem,he⟩⟩
  · rw [he]
    refine .inl ⟨.inl (by simp [hmap]),?_⟩
    rcases hl with hty | hty
    · simpa [hty] using Drop.undo hmap hrow hty
    · simpa [hty] using Drop.cached hmap hrow hty
  · exact .inr ⟨fun h => absurd h (by simp [Held,hmap,hv]),by rw [he]⟩
  · rw [he]
    exact .inl ⟨.inr (by simp [hold.value]),.stored hmap hold⟩
  · exact .inr ⟨fun _ h => h old hold hem,by rw [he]⟩

end

variable {q : Bytes}

section
variable (m : RowMeta D) (ints : IntCodec) (opt : Opt) (db : Store) (c : Cache D)

/-- The key is that of a row, in the cache or in the database. -/
def Used (p : Bytes) : Prop := db.get (opt.dataKey p) ≠ none ∨ p ∈ c.rows.map Row.primary

/-- The numbers of automatic keys are those up to the counter. -/
def Counted : Prop :=
  opt.primary = auto → ∃ n < 2^63, countGet ints opt db c = .ok (BitVec.ofNat 64 n) ∧
    ∀ p, Used opt db c p → ∃ j, 0 < j ∧ j ≤ n ∧ p = pad (BitVec.ofNat 64 j)

def CanCount : Prop := opt.primary = auto → countGet ints opt db c ≠ .ok (BitVec.intMax 64)

structure Drawn (data : D) (p : Bytes) (num : BitVec 64) : Prop where
  eq : primaryKey m ints opt db c data = (.ok p,{ c with num := num })
  checked : Checked m opt data
  short : p.length+8 < 2^63
  fresh : opt.primary = auto → ∃ n, n+1 < 2^63 ∧ countGet ints opt db c = .ok (BitVec.ofNat 64 n) ∧
    num = BitVec.ofNat 64 (n+1) ∧ p = pad num ∧ ¬Used opt db c p
  given : opt.primary ≠ auto → num = c.num ∧ getPrimaryFromData m opt data = .ok p

variable {m ints opt db c} {d : D} {n i : ℕ}
lemma pad_ofNat (hn : n < 2^63) : pad (BitVec.ofNat 64 n) = Bytes.padded 20 n := Bytes.decimal_ofNat hn

lemma pad_inj {j : ℕ} (hi : i < 2^63) (hj : j < 2^63) (h : pad (BitVec.ofNat 64 i) = pad (BitVec.ofNat 64 j)) :
    i = j := by
  rw [pad_ofNat hi,pad_ofNat hj] at h
  have hij := (Bytes.padded_le_iff (w:=20) (by omega) (by omega)).mp h.le
  have hji := (Bytes.padded_le_iff (w:=20) (by omega) (by omega)).mp h.ge
  exact le_antisymm hij hji

lemma checkIndex_ok (h : checkIndex m opt d = .ok ()) :
    Checked m opt d ∧ ∃ p, getPrimaryFromData m opt d = .ok p := by
  unfold checkIndex at h
  by_cases ha : m.accepts d = true
  · rw [if_pos ha] at h
    cases hp : getPrimaryKey m opt.primary d with
    | error e => simp [hp] at h
    | ok p =>
      by_cases hi : ∀ na ∈ opt.index, (m.get na d).isSome
      · exact ⟨⟨ha,hi⟩,p,by rw [getPrimaryFromData,if_pos ha,hp]⟩
      · simp only [hp,if_neg hi] at h
        cases h
  · rw [if_neg ha] at h
    cases h

lemma short_of_primary (hm : m.Lawful) (h : getPrimaryFromData m opt d = .ok p) : p.length+8 < 2^63 := by
  unfold getPrimaryFromData getPrimaryKey at h
  split_ifs at h
  · split at h
    · cases h
    case h_2 key hk => exact Except.ok.inj h ▸ hm.short _ _ _ hk
  · cases h
    simp

lemma countGet_of_num (hn : n < 2^63) (h : c.num = BitVec.ofNat 64 n) :
    countGet ints opt db c = .ok (BitVec.ofNat 64 n) := by
  have hne : BitVec.ofNat 64 n ≠ unread := by
    intro he
    have := congrArg BitVec.toInt he
    rw [Bytes.toInt_ofNat hn] at this
    have hng : unread.toInt < 0 := by decide
    omega
  rw [countGet,if_neg (h ▸ hne),h]

lemma exists_drawn (hm : m.Lawful) (hct : Counted ints opt db c) (hca : CanCount ints opt db c)
    (hck : checkIndex m opt d = .ok ()) : ∃ p num, Drawn m ints opt db c d p num := by
  obtain ⟨hch,p,hp⟩ := checkIndex_ok hck
  by_cases ha : opt.primary = auto
  · obtain ⟨n,hn,hg,hu⟩ := hct ha
    have hlt : n+1 < 2^63 := by
      rcases Nat.lt_or_ge (n+1) (2^63) with h | h
      · exact h
      · obtain rfl : n = 2^63-1 := by omega
        exact absurd hg (hca ha)
    have had : BitVec.ofNat 64 n+1 = BitVec.ofNat 64 (n+1) := by
      rw [BitVec.ofNat_add]
      rfl
    refine ⟨pad (BitVec.ofNat 64 (n+1)),BitVec.ofNat 64 (n+1),?_,hch,?_,fun _ => ⟨n,hlt,hg,rfl,rfl,?_⟩,
      fun h => absurd ha h⟩
    · rw [primaryKey,if_pos ha,inc,hg,← had]
      rfl
    · rw [pad_ofNat hlt,Bytes.length_padded]
      decide
    · rintro h
      obtain ⟨j,-,hj,he⟩ := hu _ h
      have := pad_inj hlt (by omega) he
      omega
  · exact ⟨p,c.num,by rw [primaryKey,if_neg ha,hp],hch,short_of_primary hm hp,fun h => absurd h ha,
      fun _ => ⟨rfl,hp⟩⟩

lemma Counted.of_used (h : Counted ints opt db c) {db' : Store}
    (hg : countGet ints opt db' c' = countGet ints opt db c) (hu : ∀ q, Used opt db' c' q → Used opt db c q) :
    Counted ints opt db' c' := by
  intro ha
  obtain ⟨n,hn,hn',hal⟩ := h ha
  exact ⟨n,hn,hg.trans hn',fun q hq => hal q (hu q hq)⟩

lemma Counted.of_drawn (h : Counted ints opt db c) {num : BitVec 64} (hd : Drawn m ints opt db c d p num)
    (hnu : c'.num = num) (hu : ∀ q, Used opt db c' q → Used opt db c q ∨ q = p) : Counted ints opt db c' := by
  intro ha
  obtain ⟨n,hn,hg,hal⟩ := h ha
  obtain ⟨n',hlt,hg',rfl,rfl,-⟩ := hd.fresh ha
  have he : BitVec.ofNat 64 n = BitVec.ofNat 64 n' := Except.ok.inj (hg.symm.trans hg')
  refine ⟨n'+1,hlt,countGet_of_num hlt hnu,fun q hq => ?_⟩
  rcases hu q hq with hq | rfl
  · obtain ⟨j,hj,hjn,rfl⟩ := hal q hq
    refine ⟨j,hj,?_,rfl⟩
    have := congrArg BitVec.toNat he
    simp only [BitVec.toNat_ofNat] at this
    omega
  · exact ⟨n'+1,by omega,le_rfl,rfl⟩

lemma mem_primaries_of_modify {rows : List (Row D)} {f : Row D → Row D} (h : q ∈ (rows.modify i f).map Row.primary)
    (hf : ∀ row, (f row).primary = row.primary) : q ∈ rows.map Row.primary := by
  convert h using 1
  refine ext_getElem? fun j => ?_
  cases hj : rows[j]? <;> simp [getElem?_modify,hj,apply_ite Row.primary,hf]

lemma Used.of_push (h : Used opt db (c.addRowCache row) q) : Used opt db c q ∨ q = row.primary := by
  rcases h with h | h
  · exact .inl (.inl h)
  · rcases mem_append.mp (by simpa [Cache.addRowCache] using h : q ∈ c.rows.map Row.primary ++ [row.primary]) with h | h
    · exact .inl (.inr h)
    · exact .inr (mem_singleton.mp h)

lemma Used.of_setData (h : Used opt db (c.setData i d) q) : Used opt db c q := by
  refine h.imp_right fun h => ?_
  exact mem_primaries_of_modify h fun _ => rfl

lemma Used.of_delRowCache (h : Used opt db (c.delRowCache i row) q) : Used opt db c q := by
  refine h.imp_right fun h => ?_
  exact mem_primaries_of_modify h fun _ => rfl

lemma Put.used (h : Put m opt db c p d c') (hq : Used opt db c' q) : Used opt db c q ∨ q = p := by
  cases h with
  | new | change => exact hq.of_push
  | again => exact .inl hq.of_setData

lemma CacheOk.used (h : CacheOk m opt db c) (hh : Held opt db c p) : Used opt db c p := by
  rcases hh with hmap | hv
  · obtain ⟨i,hi⟩ := Option.ne_none_iff_exists'.mp hmap
    obtain ⟨row,hrow,hp,-⟩ := h.mapped p i hi
    exact .inr (mem_map.mpr ⟨row,mem_of_getElem? hrow,hp⟩)
  · exact .inl hv

lemma Drop.used (h : Drop m opt db c p c') (hq : Used opt db c' q) : Used opt db c q := by
  cases h with
  | undo => exact hq.of_delRowCache
  | @cached i row hmap hrow hty =>
    rcases hq.of_push with hq | rfl
    · exact hq.of_delRowCache
    · exact .inr (mem_map.mpr ⟨row,mem_of_getElem? hrow,rfl⟩)
  | stored hmap hold =>
    rcases hq.of_push with hq | rfl
    · exact hq
    · exact .inl (by simp [hold.value])

lemma Put.num (h : Put m opt db c p d c') : c'.num = c.num := by
  cases h <;> rfl

lemma Drop.num (h : Drop m opt db c p c') : c'.num = c.num := by
  cases h <;> rfl

end

section
variable [DecidableEq D] (m : RowMeta D) (ints : IntCodec) (opt : Opt) (c : Cache D)

def pairs : List KeyValue := c.rows.flatMap (rowKVs m opt) ++ countSave ints opt c

variable {m ints opt c}
lemma saveAll_eq (hc : CacheOk m opt db c) :
    saveAll m ints opt (db,c) = (applyKVs db (delDupKey (pairs m ints opt c)),
      { c with rows := [], rowmap := fun _ => none }) := by
  rw [saveAll,save_eq fun row hrow => (hc.rows row hrow).savable]
  rfl

lemma get_saveAll (hc : CacheOk m opt db c) :
    (saveAll m ints opt (db,c)).1.get = writeAll db.get (pairs m ints opt c) := by
  rw [saveAll_eq hc,DB.get_applyKVs,writeAll_delDupKey]

lemma mem_pairs {kv : KeyValue} (h : kv ∈ pairs m ints opt c) :
    (∃ row ∈ c.rows, kv ∈ rowKVs m opt row) ∨ kv.1 = opt.countKey := by
  rcases mem_append.mp h with h | h
  · exact .inl (mem_flatMap.mp h)
  · unfold countSave at h
    split_ifs at h
    · simp at h
    · exact .inr (congrArg Prod.fst (mem_singleton.mp h))

lemma mem_rowData {v : Option Bytes} (h : (opt.dataKey p,v) ∈ rowKVs m opt row) :
    row.primary = p ∧ (opt.dataKey p,v) ∈ rowData m opt row := by
  rcases mem_append.mp h with h | h
  · exact ⟨(Opt.dataKey_inj.mp (key_of_mem_rowData h)).symm,h⟩
  · obtain ⟨na,-,v,hk⟩ := (mem_rowIndex.mp h).key
    exact absurd hk Opt.dataKey_ne_indexKey

lemma mem_pairs_data {v : Option Bytes} (h : (opt.dataKey p,v) ∈ pairs m ints opt c) :
    ∃ row ∈ c.rows, row.primary = p ∧ (opt.dataKey p,v) ∈ rowData m opt row := by
  rcases mem_pairs h with ⟨row,hrow,h⟩ | h
  · exact ⟨row,hrow,mem_rowData h⟩
  · exact absurd h Opt.dataKey_ne_countKey

lemma mem_pairs_index {na v : Bytes} {va : Option Bytes} (h : (opt.indexKey na v p,va) ∈ pairs m ints opt c) :
    ∃ row ∈ c.rows, IndexKV m opt row (opt.indexKey na v p,va) := by
  rcases mem_pairs h with ⟨row,hrow,h⟩ | h
  · refine ⟨row,hrow,?_⟩
    rcases mem_append.mp h with h | h
    · exact absurd (key_of_mem_rowData h).symm Opt.dataKey_ne_indexKey
    · exact mem_rowIndex.mp h
  · exact absurd h Opt.indexKey_ne_countKey

lemma rowData_some {k v : Bytes} (h : (k,some v) ∈ rowData m opt row) :
    row.Live ∧ v = encodeRow row.primary (m.encode row.data) := by
  unfold rowData at h
  split at h
  · simp at h
  · cases (mem_dataKVs.mp h).2
  case h_3 hty =>
    cases (mem_dataKVs.mp h).2
    exact ⟨.inl hty,rfl⟩
  case h_4 hty =>
    split_ifs at h
    · simp at h
    · cases (mem_dataKVs.mp h).2
      exact ⟨.inr hty,rfl⟩

lemma writeAll_pairs (f : Bytes → Option Bytes) {i : ℕ} (hrow : c.rows[i]? = some row) {k : Bytes}
    (hct : k ≠ opt.countKey)
    (hl : ∀ (j : ℕ) (row' : Row D), i < j → c.rows[j]? = some row' → ∀ kv ∈ rowKVs m opt row', kv.1 ≠ k) :
    writeAll f (pairs m ints opt c) k =
      writeAll (writeAll f ((c.rows.take i).flatMap (rowKVs m opt))) (rowKVs m opt row) k := by
  obtain ⟨hi,rfl⟩ := List.getElem?_eq_some_iff.mp hrow
  have hs : c.rows = c.rows.take i ++ c.rows[i] :: c.rows.drop (i+1) := by
    rw [getElem_cons_drop,take_append_drop]
  have hf : c.rows.flatMap (rowKVs m opt) = (c.rows.take i).flatMap (rowKVs m opt) ++ rowKVs m opt c.rows[i] ++
      (c.rows.drop (i+1)).flatMap (rowKVs m opt) := by
    rw [append_assoc,← flatMap_cons,← flatMap_append,← hs]
  rw [pairs,hf,append_assoc]
  rw [writeAll_append f (_ ++ _) (_ ++ _),writeAll_append f _ (rowKVs m opt _)]
  refine writeAll_of_not_mem fun hme => ?_
  obtain ⟨kv,hk,rfl⟩ := mem_map.mp hme
  rcases mem_append.mp hk with hk | hk
  · obtain ⟨row',hrow',hk⟩ := mem_flatMap.mp hk
    obtain ⟨j,hj⟩ := mem_iff_getElem?.mp hrow'
    rw [getElem?_drop] at hj
    exact hl _ row' (by omega) hj kv hk rfl
  · unfold countSave at hk
    split_ifs at hk
    · simp at hk
    · rw [mem_singleton.mp hk] at hct
      exact hct rfl

def Row.Writes (row : Row D) : Prop := row.ty = .add ∨ (row.ty = .update ∧ some row.data ≠ row.old)

omit [DecidableEq D] in
lemma Row.Writes.live {row : Row D} (h : row.Writes) : row.Live := h.imp id And.left

lemma rowData_of_writes (hj : opt.join = false) (h : row.Writes) :
    rowData m opt row = [(opt.dataKey row.primary,some (encodeRow row.primary (m.encode row.data)))] := by
  unfold rowData
  rcases h with hty | ⟨hty,hne⟩
  · simp [hty,dataKVs,hj]
  · simp [hty,dataKVs,hj,hne]

lemma CacheOk.get_written (hc : CacheOk m opt db c) (hj : opt.join = false) (hrow : row ∈ c.rows)
    (h : row.Writes) : writeAll db.get (pairs m ints opt c) (opt.dataKey row.primary) =
      some (encodeRow row.primary (m.encode row.data)) := by
  obtain ⟨i,hi⟩ := mem_iff_getElem?.mp hrow
  rw [writeAll_pairs db.get hi Opt.dataKey_ne_countKey,rowKVs,rowData_of_writes hj h,singleton_append]
  · refine writeAll_cons_self fun hme => ?_
    obtain ⟨kv,hkv,hk⟩ := mem_map.mp hme
    obtain ⟨na,-,v,hv⟩ := (mem_rowIndex.mp hkv).key
    exact Opt.dataKey_ne_indexKey (hk.symm.trans hv)
  · rintro j row' hij hrow' ⟨k,v⟩ hkv rfl
    obtain ⟨hp,-⟩ := mem_rowData hkv
    exact hc.last i row hi h.live j row' hij hrow' hp

lemma Rows.saveAll (hdb : Rows m opt db) (hc : CacheOk m opt db c) :
    Rows m opt (saveAll m ints opt (db,c)).1 := by
  intro p v hv
  rw [get_saveAll hc] at hv
  rcases writeAll_cases db.get (pairs m ints opt c) (opt.dataKey p) with ⟨-,he⟩ | hme
  · obtain ⟨data,hst⟩ := hdb p v (he ▸ hv)
    exact ⟨data,by rw [get_saveAll hc,he,hst.value],hst.checked,hst.short⟩
  · rw [hv] at hme
    obtain ⟨row,hrow,rfl,hd⟩ := mem_pairs_data hme
    obtain ⟨hl,rfl⟩ := rowData_some hd
    obtain ⟨hch,hs⟩ := (hc.rows row hrow).checked hl.ne_none
    exact ⟨row.data,by rw [get_saveAll hc,hv],hch,hs⟩

lemma countGet_saveAll (hc : CacheOk m opt db c) :
    countGet ints opt (saveAll m ints opt (db,c)).1 (saveAll m ints opt (db,c)).2 =
      countGet ints opt db c := by
  have hn : (saveAll m ints opt (db,c)).2.num = c.num := by rw [saveAll_eq hc]
  unfold countGet
  rw [hn]
  split_ifs with hu
  · have hk : (saveAll m ints opt (db,c)).1.get opt.countKey = db.get opt.countKey := by
      rw [get_saveAll hc]
      refine writeAll_of_not_mem fun hme => ?_
      obtain ⟨kv,hkv,hk⟩ := mem_map.mp hme
      rcases mem_append.mp hkv with hkv | hkv
      · obtain ⟨row,-,hrow⟩ := mem_flatMap.mp hkv
        rcases own_of_mem hrow with ho | ⟨na,-,v,ho⟩
        · exact Opt.dataKey_ne_countKey (ho.symm.trans hk)
        · exact Opt.indexKey_ne_countKey (ho.symm.trans hk)
      · simp [countSave,hu] at hkv
    rw [hk]
  · rfl

lemma used_of_saveAll (hc : CacheOk m opt db c)
    (hq : Used opt (saveAll m ints opt (db,c)).1 (saveAll m ints opt (db,c)).2 q) :
    Used opt db c q := by
  rcases hq with hq | hq
  · rw [get_saveAll hc] at hq
    rcases writeAll_cases db.get (pairs m ints opt c) (opt.dataKey q) with ⟨-,he⟩ | hme
    · exact .inl (he ▸ hq)
    · obtain ⟨row,hrow,rfl,-⟩ := mem_pairs_data hme
      exact .inr (mem_map.mpr ⟨row,hrow,rfl⟩)
  · simp [saveAll_eq hc] at hq

lemma Counted.saveAll (h : Counted ints opt db c) (hc : CacheOk m opt db c) :
    Counted ints opt (saveAll m ints opt (db,c)).1 (saveAll m ints opt (db,c)).2 :=
  h.of_used (countGet_saveAll hc) fun _ => used_of_saveAll hc

end

section
variable (m : RowMeta D) (ints : IntCodec) (opt : Opt)

structure Ok (s : Store × Cache D) : Prop where
  rows : Rows m opt s.1
  cache : CacheOk m opt s.1 s.2
  counted : Counted ints opt s.1 s.2

variable {m ints opt} {c : Cache D} {data : D}

lemma Ok.start : Ok m ints opt (SortedStore.empty,(Cache.empty : Cache D)) := by
  refine ⟨fun p v hv => by simp at hv,CacheOk.empty,fun _ => ⟨0,by decide,?_,?_⟩⟩
  · simp [countGet,Cache.empty,ints.decode_nil]
  · rintro p (h | h)
    · simp at h
    · simp [Cache.empty] at h

lemma CacheOk.withNum (h : CacheOk m opt db c) (num : BitVec 64) : CacheOk m opt db { c with num := num } :=
  ⟨h.mapped,h.live,h.last,h.rows⟩

variable {num : BitVec 64}

section
variable (h : Ok m ints opt (db,c))
include h

omit h in
lemma countGet_of_num_eq (hn : c'.num = c.num) : countGet ints opt db c' = countGet ints opt db c := by
  rw [countGet,hn,countGet]

lemma Ok.of_eq (hc : c' = c) : Ok m ints opt (db,c') := hc ▸ h

lemma Ok.drawn (hd : Drawn m ints opt db c data p num) : Ok m ints opt (db,{ c with num := num }) :=
  ⟨h.rows,h.cache.withNum num,h.counted.of_drawn hd rfl fun _ hq => .inl hq⟩

lemma Ok.putDrawn (hd : Drawn m ints opt db c data p num)
    (hp : Put m opt db { c with num := num } p data c') : Ok m ints opt (db,c') :=
  ⟨h.rows,(h.cache.withNum num).put hp hd.checked hd.short,h.counted.of_drawn hd hp.num fun _ hq => hp.used hq⟩

lemma Ok.putHeld (hp : Put m opt db c p data c')
    (hh : Held opt db c p) (hd : Checked m opt data) (hs : p.length+8 < 2^63) : Ok m ints opt (db,c') := by
  refine ⟨h.rows,h.cache.put hp hd hs,h.counted.of_used (countGet_of_num_eq hp.num) fun q hq => ?_⟩
  rcases hp.used hq with hq | rfl
  · exact hq
  · exact h.cache.used hh

lemma Ok.drop (hd : Drop m opt db c p c') : Ok m ints opt (db,c') :=
  ⟨h.rows,h.cache.drop hd,h.counted.of_used (countGet_of_num_eq hd.num) fun _ hq => hd.used hq⟩

lemma Ok.saveAll [DecidableEq D] : Ok m ints opt (saveAll m ints opt (db,c)) := by
  refine ⟨h.rows.saveAll h.cache,?_,h.counted.saveAll h.cache⟩
  rw [saveAll_eq h.cache]
  exact ⟨by simp,by simp,by simp,by simp⟩

end

section
variable (hck : checkIndex m opt data = .ok ()) (hd : Drawn m ints opt db c data p num)
include hck hd

lemma add_eq :
    add m ints opt db c data = addAt m opt db { c with num := num } p data := by
  simp only [add,hck,hd.eq]

lemma replace_eq :
    replace m ints opt db c data =
      if opt.primary = auto then (.ok (),({ c with num := num } : Cache D).addRowCache ⟨.add,p,data,none⟩)
      else replaceAt m opt db { c with num := num } p data := by
  simp only [replace,hck,hd.eq]

end

lemma Drawn.put_new (h : Ok m ints opt (db,c)) (hd : Drawn m ints opt db c data p num)
    (ha : opt.primary = auto) :
    Put m opt db { c with num := num } p data (({ c with num := num } : Cache D).addRowCache ⟨.add,p,data,none⟩) := by
  obtain ⟨n,-,-,-,-,hf⟩ := hd.fresh ha
  have hn : ¬Held opt db c p := fun hh => hf (h.cache.used hh)
  exact .new (by simpa using fun hmap => hn (.inl hmap)) (by simpa using fun hv => hn (.inr hv))

section
variable [DecidableEq D]

/-- The operation may draw a key. -/
def Op.Draws : Op D → Prop
  | .add _ | .replace _ => True
  | _ => False

/-- What a row operation does: it leaves the rows, it puts one or it takes one. -/
theorem step_cases (hm : m.Lawful) (h : Ok m ints opt (db,c)) {op : Op D} (hsave : op ≠ .save)
    (hca : op.Draws → CanCount ints opt db c) :
    ∃ c0, c0.rows = c.rows ∧ c0.rowmap = c.rowmap ∧ ∃ c', step m ints opt (db,c) op = (db,c') ∧ Ok m ints opt (db,c') ∧
      (c' = c0 ∨ (∃ p data, Put m opt db c0 p data c') ∨ ∃ p, op = .del p ∧ Drop m opt db c0 p c') := by
  cases op with
  | save => exact absurd rfl hsave
  | add data =>
    cases hck : checkIndex m opt data with
    | error e => exact ⟨c,rfl,rfl,c,by simp [step,add,hck],h,.inl rfl⟩
    | ok u =>
      obtain ⟨p,num,hd⟩ := exists_drawn hm h.counted (hca trivial) hck
      refine ⟨{ c with num := num },rfl,rfl,_,rfl,?_⟩
      rw [add_eq hck hd]
      rcases addAt_spec hm h.rows (h.cache.withNum num) p data with ⟨-,hpu⟩ | ⟨-,hs⟩
      · exact ⟨h.putDrawn hd hpu,.inr (.inl ⟨p,data,hpu⟩)⟩
      · exact ⟨(h.drawn hd).of_eq hs,.inl hs⟩
  | replace data =>
    cases hck : checkIndex m opt data with
    | error e => exact ⟨c,rfl,rfl,c,by simp [step,replace,hck],h,.inl rfl⟩
    | ok u =>
      obtain ⟨p,num,hd⟩ := exists_drawn hm h.counted (hca trivial) hck
      refine ⟨{ c with num := num },rfl,rfl,_,rfl,?_⟩
      rw [replace_eq hck hd]
      split_ifs with ha
      · have hpu := hd.put_new h ha
        exact ⟨h.putDrawn hd hpu,.inr (.inl ⟨p,data,hpu⟩)⟩
      · rcases replaceAt_spec hm h.rows (h.cache.withNum num) p data with hpu | ⟨-,hs⟩
        · exact ⟨h.putDrawn hd hpu,.inr (.inl ⟨p,data,hpu⟩)⟩
        · exact ⟨(h.drawn hd).of_eq hs,.inl hs⟩
  | update p data =>
    cases hck : checkIndex m opt data with
    | error e => exact ⟨c,rfl,rfl,c,by simp [step,update,hck],h,.inl rfl⟩
    | ok u =>
      obtain ⟨hch,p',hp'⟩ := checkIndex_ok hck
      refine ⟨c,rfl,rfl,_,rfl,?_⟩
      simp only [update,hck,hp']
      split_ifs with hpp
      · subst hpp
        rcases updateAt_spec hm h.rows h.cache p' data with ⟨hh,hpu⟩ | ⟨-,hs⟩
        · exact ⟨h.putHeld hpu hh hch (short_of_primary hm hp'),.inr (.inl ⟨p',data,hpu⟩)⟩
        · exact ⟨h.of_eq hs,.inl hs⟩
      · exact ⟨h,.inl rfl⟩
  | del p =>
    refine ⟨c,rfl,rfl,_,rfl,?_⟩
    rcases del_spec hm h.rows h.cache p with ⟨-,hdr⟩ | ⟨-,hs⟩
    · exact ⟨h.drop hdr,.inr (.inr ⟨p,rfl,hdr⟩)⟩
    · exact ⟨h.of_eq hs,.inl hs⟩

end

end

end Dpos.Table
