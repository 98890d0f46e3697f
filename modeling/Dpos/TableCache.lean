import Dpos.Table

/-! What the cache of a table holds between two saves: a row that is added is not stored, a
row that is changed or deleted is, and the row that the map has for a key is the last one
of that key. -/
namespace Dpos.Table

open List Option

variable {D : Type} {data : D} {row : Row D}

open DB (Store KeyValue applyKVs)
open KeyIndex (writeAll)

section
variable [DecidableEq D] (m : RowMeta D) (opt : Opt)

/-- What `checkIndex` leaves of the data. -/
structure Checked (data : D) : Prop where
  accepts : m.accepts data = true
  index : ∀ name ∈ opt.index, (m.get name data).isSome

def value (name : Bytes) (data : D) : Bytes := (m.get name data).getD []

def rowData (row : Row D) : List KeyValue :=
  match row.ty with
  | .none => []
  | .del => dataKVs opt row.primary none
  | .add => dataKVs opt row.primary (some (encodeRow row.primary (m.encode row.data)))
  | .update => if some row.data = row.old then []
      else dataKVs opt row.primary (some (encodeRow row.primary (m.encode row.data)))

/-- The pairs of a row's entries, where the indexes have values. -/
def rowIndex (row : Row D) : List KeyValue :=
  match row.ty with
  | .none => []
  | .del => opt.index.map fun name => (opt.indexKey name (value m name row.data) row.primary,none)
  | .add => opt.index.map fun name => (opt.indexKey name (value m name row.data) row.primary,some row.primary)
  | .update => if some row.data = row.old then []
      else opt.index.flatMap fun name => row.old.elim [] fun old =>
        if value m name row.data = value m name old then []
        else [(opt.indexKey name (value m name old) row.primary,none),
          (opt.indexKey name (value m name row.data) row.primary,some row.primary)]

def rowKVs (row : Row D) : List KeyValue := rowData m opt row ++ rowIndex m opt row

inductive IndexKV (row : Row D) : KeyValue → Prop
  | del {name : Bytes} (hname : name ∈ opt.index) (hty : row.ty = .del) :
    IndexKV row (opt.indexKey name (value m name row.data) row.primary,none)
  | add {name : Bytes} (hname : name ∈ opt.index) (hty : row.ty = .add) :
    IndexKV row (opt.indexKey name (value m name row.data) row.primary,some row.primary)
  | old {name : Bytes} {old : D} (hname : name ∈ opt.index) (hty : row.ty = .update) (hold : row.old = some old)
    (hne : value m name row.data ≠ value m name old) :
    IndexKV row (opt.indexKey name (value m name old) row.primary,none)
  | new {name : Bytes} {old : D} (hname : name ∈ opt.index) (hty : row.ty = .update) (hold : row.old = some old)
    (hne : value m name row.data ≠ value m name old) :
    IndexKV row (opt.indexKey name (value m name row.data) row.primary,some row.primary)

structure Savable (row : Row D) : Prop where
  data : row.ty ≠ .none → Checked m opt row.data
  old : row.ty = .update → ∃ old, row.old = some old ∧ Checked m opt old

variable {m opt} {name : Bytes}
omit [DecidableEq D] in
lemma Checked.get (h : Checked m opt data) (hname : name ∈ opt.index) : m.get name data = some (value m name data) := by
  obtain ⟨v,hv⟩ := isSome_iff_exists.mp (h.index name hname)
  rw [value,hv,getD_some]

omit [DecidableEq D] in
lemma Checked.index_eq (h : Checked m opt data) (hname : name ∈ opt.index) :
    Table.index m name data = .ok (value m name data) := by
  rw [Table.index,if_pos h.accepts,h.get hname]

lemma mapM_ok {α β : Type} {f : α → Except Err β} {g : α → β} {l : List α} (h : ∀ x ∈ l, f x = .ok (g x)) :
    l.mapM f = .ok (l.map g) := by
  induction l with
  | nil => rfl
  | cons x l ih =>
    rw [mapM_cons,h x (by simp),ih fun y hy => h y (by simp [hy])]
    rfl

lemma saveRow_eq (h : Savable m opt row) : saveRow m opt row = .ok (rowKVs m opt row) := by
  unfold saveRow rowKVs rowData rowIndex
  cases hty : row.ty with
  | none => rfl
  | del =>
    have hd := h.data (by simp [hty])
    simp only [delRow]
    rw [mapM_ok (g:=fun name => (opt.indexKey name (value m name row.data) row.primary,none)) fun name hname => by
      rw [hd.index_eq hname]; rfl]
    rfl
  | add =>
    have hd := h.data (by simp [hty])
    simp only [addRow]
    rw [mapM_ok (g:=fun name => (opt.indexKey name (value m name row.data) row.primary,some row.primary))
      fun name hname => by rw [hd.index_eq hname]; rfl]
    rfl
  | update =>
    have hd := h.data (by simp [hty])
    obtain ⟨old,hold,hc⟩ := h.old hty
    simp only [updateRow,hold,elim_some]
    split_ifs with he
    · rfl
    · rw [mapM_ok (g:=fun name => if value m name row.data = value m name old then []
          else [((opt.indexKey name (value m name old) row.primary,none) : KeyValue),
            (opt.indexKey name (value m name row.data) row.primary,some row.primary)]) fun name hname => ?_]
      · rw [flatMap_def]
        rfl
      · rw [getModify,hd.index_eq hname]
        simp only [Except.bind,hc.index_eq hname,Except.map]
        split_ifs <;> rfl

variable {ints : IntCodec} {c : Cache D}

lemma save_eq (h : ∀ row ∈ c.rows, Savable m opt row) :
    save m ints opt c = (.ok (delDupKey (c.rows.flatMap (rowKVs m opt) ++ countSave ints opt c)),
      { c with rows := [], rowmap := fun _ => none }) := by
  rw [save,mapM_ok (g:=rowKVs m opt) fun row hrow => saveRow_eq (h row hrow),flatMap_def]

def Own (opt : Opt) (p k : Bytes) : Prop := k = opt.dataKey p ∨ ∃ name ∈ opt.index, ∃ v, k = opt.indexKey name v p

variable {kv : KeyValue}

lemma mem_rowIndex : kv ∈ rowIndex m opt row ↔ IndexKV m opt row kv := by
  constructor
  · intro h
    unfold rowIndex at h
    split at h
    · simp at h
    case h_2 hty =>
      obtain ⟨name,hname,rfl⟩ := mem_map.mp h
      exact .del hname hty
    case h_3 hty =>
      obtain ⟨name,hname,rfl⟩ := mem_map.mp h
      exact .add hname hty
    case h_4 hty =>
      split_ifs at h with he
      · simp at h
      · obtain ⟨name,hname,h⟩ := mem_flatMap.mp h
        cases hold : row.old with
        | none => simp [hold] at h
        | some old =>
          rw [hold,elim_some] at h
          split_ifs at h with hne
          · simp at h
          · rcases mem_pair.mp h with rfl | rfl
            · exact .old hname hty hold hne
            · exact .new hname hty hold hne
  · intro h
    unfold rowIndex
    cases h with
    | del hname hty => simpa [hty] using ⟨_,hname,rfl⟩
    | add hname hty => simpa [hty] using ⟨_,hname,rfl⟩
    | @old name old hname hty hold hne
    | @new name old hname hty hold hne =>
      have hd : row.data ≠ old := fun he => hne (by rw [he])
      simp only [hty,hold,some.injEq,hd,if_false,elim_some]
      exact mem_flatMap.mpr ⟨name,hname,by simp [hne]⟩

lemma mem_dataKVs {p : Bytes} {v : Option Bytes} :
    kv ∈ dataKVs opt p v ↔ opt.join = false ∧ kv = (opt.dataKey p,v) := by
  unfold dataKVs
  cases opt.join <;> simp

lemma key_of_mem_rowData (h : kv ∈ rowData m opt row) : kv.1 = opt.dataKey row.primary := by
  unfold rowData at h
  split at h
  · simp at h
  · rw [(mem_dataKVs.mp h).2]
  · rw [(mem_dataKVs.mp h).2]
  · split_ifs at h
    · simp at h
    · rw [(mem_dataKVs.mp h).2]

omit [DecidableEq D] in
lemma IndexKV.key (h : IndexKV m opt row kv) :
    ∃ name ∈ opt.index, ∃ v, kv.1 = opt.indexKey name v row.primary := by
  cases h with
  | del hname | add hname | old hname | new hname => exact ⟨_,hname,_,rfl⟩

lemma own_of_mem (h : kv ∈ rowKVs m opt row) : Own opt row.primary kv.1 := by
  rcases mem_append.mp h with h | h
  · exact .inl (key_of_mem_rowData h)
  · exact .inr (mem_rowIndex.mp h).key

end

section
variable (m : RowMeta D) (ints : IntCodec) (opt : Opt) (db : Store) (c : Cache D)

structure Stored (p : Bytes) (data : D) : Prop where
  value : db.get (opt.dataKey p) = some (encodeRow p (m.encode data))
  checked : Checked m opt data
  short : p.length+8 < 2^63

def Rows : Prop := ∀ p v, db.get (opt.dataKey p) = some v → ∃ data, Stored m opt db p data

/-- A row of the cache as it stands to the database. -/
def RowOk (row : Row D) : Prop :=
  match row.ty with
  | .none => True
  | .add => Checked m opt row.data ∧ row.primary.length+8 < 2^63 ∧ db.get (opt.dataKey row.primary) = none
  | .update => Checked m opt row.data ∧ ∃ old, row.old = some old ∧ Stored m opt db row.primary old
  | .del => Checked m opt row.data ∧ ∃ old, Stored m opt db row.primary old

/-- The row is one that the map of the cache has. -/
def Row.Live (row : Row D) : Prop := row.ty = .add ∨ row.ty = .update

/-- The map has the rows that are added or changed, each the last one of its key. -/
structure CacheOk : Prop where
  mapped : ∀ p i, c.rowmap p = some i → ∃ row, c.rows[i]? = some row ∧ row.primary = p ∧ row.Live
  live : ∀ (i : ℕ) (row : Row D), c.rows[i]? = some row → row.Live → c.rowmap row.primary = some i
  last : ∀ (i : ℕ) (row : Row D), c.rows[i]? = some row → row.Live →
    ∀ (j : ℕ) (row' : Row D), i < j → c.rows[j]? = some row' → row'.primary ≠ row.primary
  rows : ∀ row ∈ c.rows, RowOk m opt db row

inductive Put (p : Bytes) (data : D) : Cache D → Prop
  | new (hmap : c.rowmap p = none) (hdb : db.get (opt.dataKey p) = none) :
    Put p data (c.addRowCache ⟨.add,p,data,none⟩)
  | again {i : ℕ} (hmap : c.rowmap p = some i) : Put p data (c.setData i data)
  | change {old : D} (hmap : c.rowmap p = none) (hold : Stored m opt db p old) :
    Put p data (c.addRowCache ⟨.update,p,data,some old⟩)

inductive Drop (p : Bytes) : Cache D → Prop
  | undo {i : ℕ} {row : Row D} (hmap : c.rowmap p = some i) (hrow : c.rows[i]? = some row) (hty : row.ty = .add) :
    Drop p (c.delRowCache i row)
  | cached {i : ℕ} {row : Row D} (hmap : c.rowmap p = some i) (hrow : c.rows[i]? = some row)
    (hty : row.ty = .update) : Drop p ((c.delRowCache i row).addRowCache { row with ty := .del })
  | stored {data : D} (hmap : c.rowmap p = none) (hold : Stored m opt db p data) :
    Drop p (c.addRowCache ⟨.del,p,data,none⟩)

variable {m ints opt db c} {p : Bytes} {data' : D} {i : ℕ} {row' : Row D} {j : ℕ} {c' : Cache D}

lemma RowMeta.Lawful.encodeRow_inj (hm : m.Lawful)
    (h : encodeRow p (m.encode data) = encodeRow p (m.encode data')) : data = data' :=
  some.inj ((hm.decode_encode data).symm.trans (by rw [append_cancel_left h,hm.decode_encode]))

lemma Stored.unique (hm : m.Lawful) (h : Stored m opt db p data) (h' : Stored m opt db p data') :
    data = data' := hm.encodeRow_inj (some.inj (h.value.symm.trans h'.value))

lemma Rows.stored (hm : m.Lawful) (h : Rows m opt db)
    (hd : db.get (opt.dataKey p) = some (encodeRow p (m.encode data))) : Stored m opt db p data := by
  obtain ⟨data',hs⟩ := h p _ hd
  obtain rfl : data = data' := hm.encodeRow_inj (some.inj (hd.symm.trans hs.value))
  exact hs

lemma Stored.getData (hm : m.Lawful) (h : Stored m opt db p data) (hne : p ++ m.encode data ≠ []) :
    Table.getData m opt db p = .ok ⟨.none,p,data,none⟩ := by
  rw [Table.getData,h.value]
  simp only [getRow,decodeRow_encodeRow h.short hne,hm.decode_encode]

lemma Stored.getData_empty (h : Stored m opt db p data) (he : p ++ m.encode data = []) :
    Table.getData m opt db p = .error .decode := by
  obtain ⟨rfl,hd⟩ := append_eq_nil_iff.mp he
  rw [Table.getData,h.value,hd]
  simp only [getRow,decodeRow_empty]

lemma cached_some (hmap : c.rowmap p = some i) (hrow : c.rows[i]? = some row) : c.cached p = some (i,row) := by
  simp [Cache.cached,hmap,hrow]

lemma findRow_cases (hm : m.Lawful) (hdb : Rows m opt db) (h : CacheOk m opt db c) (p : Bytes) :
    (∃ i row, c.rowmap p = some i ∧ c.rows[i]? = some row ∧ row.primary = p ∧ row.Live ∧
      findRow m opt db c p = .ok (row,some i)) ∨
    (c.rowmap p = none ∧ db.get (opt.dataKey p) = none ∧ findRow m opt db c p = .error .notFound) ∨
    (c.rowmap p = none ∧ ∃ data, Stored m opt db p data ∧
      (p ++ m.encode data ≠ [] ∧ findRow m opt db c p = .ok (⟨.none,p,data,none⟩,none) ∨
        p ++ m.encode data = [] ∧ findRow m opt db c p = .error .decode)) := by
  cases hmap : c.rowmap p with
  | some i =>
    obtain ⟨row,hrow,hp,hl⟩ := h.mapped p i hmap
    exact .inl ⟨i,row,rfl,hrow,hp,hl,by simp [findRow,cached_some hmap hrow]⟩
  | none =>
    have hc : c.cached p = none := by simp [Cache.cached,hmap]
    cases hv : db.get (opt.dataKey p) with
    | none => exact .inr (.inl ⟨rfl,rfl,by simp [findRow,hc,getData,hv,Except.map]⟩)
    | some v =>
      obtain ⟨data,hd⟩ := hdb p v hv
      refine .inr (.inr ⟨rfl,data,hd,?_⟩)
      by_cases hne : p ++ m.encode data = []
      · exact .inr ⟨hne,by simp only [findRow,hc,hd.getData_empty hne]; rfl⟩
      · exact .inl ⟨hne,by simp only [findRow,hc,hd.getData hm hne]; rfl⟩

lemma CacheOk.empty : CacheOk m opt db (Cache.empty : Cache D) :=
  ⟨by simp [Cache.empty],by simp [Cache.empty],by simp [Cache.empty],by simp [Cache.empty]⟩

lemma getElem?_push :
    (c.addRowCache row).rows[i]? = some row' ↔ c.rows[i]? = some row' ∨ (i = c.rows.length ∧ row' = row) := by
  have hr : (c.addRowCache row).rows = c.rows ++ [row] := rfl
  rw [hr]
  rcases lt_trichotomy i c.rows.length with hlt | rfl | hg
  · rw [getElem?_append_left hlt]
    exact ⟨.inl,fun h => h.resolve_right fun h => hlt.ne h.1⟩
  · rw [getElem?_concat_length,some_inj]
    simp [eq_comm]
  · simp [getElem?_eq_none hg.le,hg.ne',hg]

lemma getElem?_setData : (c.setData i data).rows[j]? = some row' ↔
      ∃ row, c.rows[j]? = some row ∧ row' = if i = j then { row with data := data } else row := by
  simp [Cache.setData,getElem?_modify,eq_comm]

lemma getElem?_delRowCache : (c.delRowCache i row).rows[j]? = some row' ↔
      ∃ row, c.rows[j]? = some row ∧ row' = if i = j then { row with ty := .none } else row := by
  simp [Cache.delRowCache,getElem?_modify,eq_comm]

lemma CacheOk.push (h : CacheOk m opt db c) (hmap : c.rowmap row.primary = none)
    (hok : RowOk m opt db row) (hty : row.ty ≠ .none) : CacheOk m opt db (c.addRowCache row) := by
  have ho : ∀ p, p ≠ row.primary → (c.addRowCache row).rowmap p = c.rowmap p := by
    intro p hp
    cases ht : row.ty <;> simp [Cache.addRowCache,ht,hp]
  have hs : row.Live → (c.addRowCache row).rowmap row.primary = some c.rows.length := by
    rintro (ht | ht) <;> simp [Cache.addRowCache,ht]
  have hn : ∀ (i : ℕ) (row' : Row D), c.rows[i]? = some row' → row'.Live → row'.primary ≠ row.primary := by
    intro i row' hrow' hl hp
    have hso := h.live i row' hrow' hl
    rw [hp,hmap] at hso
    cases hso
  refine ⟨fun p i hp => ?_,fun i row' hrow' hl => ?_,fun i row' hrow' hl j row'' hi hrow'' => ?_,fun row' hrow' => ?_⟩
  · by_cases hpr : p = row.primary
    · subst hpr
      cases ht : row.ty with
      | none => exact absurd ht hty
      | del => simp [Cache.addRowCache,ht] at hp
      | add =>
        rw [hs (.inl ht)] at hp
        exact ⟨row,getElem?_push.mpr (.inr ⟨(some.inj hp).symm,rfl⟩),rfl,.inl ht⟩
      | update =>
        rw [hs (.inr ht)] at hp
        exact ⟨row,getElem?_push.mpr (.inr ⟨(some.inj hp).symm,rfl⟩),rfl,.inr ht⟩
    · rw [ho p hpr] at hp
      obtain ⟨row',hrow',hpi,hl⟩ := h.mapped p i hp
      exact ⟨row',getElem?_push.mpr (.inl hrow'),hpi,hl⟩
  · rcases getElem?_push.mp hrow' with hrow' | ⟨rfl,rfl⟩
    · rw [ho _ (hn i row' hrow' hl)]
      exact h.live i row' hrow' hl
    · exact hs hl
  · rcases getElem?_push.mp hrow' with hrow1 | ⟨rfl,rfl⟩
    · rcases getElem?_push.mp hrow'' with hrow2 | ⟨rfl,rfl⟩
      · exact h.last i row' hrow1 hl j row'' hi hrow2
      · exact (hn i row' hrow1 hl).symm
    · rcases getElem?_push.mp hrow'' with hrow'' | ⟨rfl,-⟩
      · exact absurd (List.getElem?_eq_some_iff.mp hrow'').1 (by omega)
      · omega
  · rcases mem_append.mp hrow' with hrow' | hrow'
    · exact h.rows row' hrow'
    · rw [mem_singleton.mp hrow']
      exact hok

lemma RowOk.added (h : RowOk m opt db row) (hty : row.ty = .add) :
    Checked m opt row.data ∧ row.primary.length+8 < 2^63 ∧ db.get (opt.dataKey row.primary) = none := by
  simpa only [RowOk,hty] using h

lemma RowOk.updated (h : RowOk m opt db row) (hty : row.ty = .update) :
    Checked m opt row.data ∧ ∃ old, row.old = some old ∧ Stored m opt db row.primary old := by
  simpa only [RowOk,hty] using h

lemma RowOk.setData (h : RowOk m opt db row) (hd : Checked m opt data) :
    RowOk m opt db { row with data := data } := by
  unfold RowOk at h ⊢
  cases hty : row.ty with
  | none => simp
  | add | update | del =>
    simp only [hty] at h ⊢
    exact ⟨hd,h.2⟩

section
variable (h : CacheOk m opt db c)
include h

lemma CacheOk.setData (hd : Checked m opt data) (i : ℕ) :
    CacheOk m opt db (c.setData i data) := by
  have hb : ∀ (j : ℕ) (row' : Row D), (c.setData i data).rows[j]? = some row' →
      ∃ row, c.rows[j]? = some row ∧ row'.primary = row.primary ∧ (row'.Live ↔ row.Live) := by
    intro j row' hrow'
    obtain ⟨row,hrow,rfl⟩ := getElem?_setData.mp hrow'
    refine ⟨row,hrow,?_⟩
    split_ifs
    · exact ⟨rfl,Iff.rfl⟩
    · exact ⟨rfl,Iff.rfl⟩
  refine ⟨fun p j hp => ?_,fun j row' hrow' hl => ?_,fun j row' hrow' hl k row'' hjk hrow'' => ?_,fun row' hrow' => ?_⟩
  · obtain ⟨row,hrow,hpi,hl⟩ := h.mapped p j hp
    refine ⟨_,getElem?_setData.mpr ⟨row,hrow,rfl⟩,?_⟩
    split_ifs
    · exact ⟨hpi,hl⟩
    · exact ⟨hpi,hl⟩
  · obtain ⟨row,hrow,hp,hi⟩ := hb j row' hrow'
    rw [hp]
    exact h.live j row hrow (hi.mp hl)
  · obtain ⟨row,hrow,hp,hi⟩ := hb j row' hrow'
    obtain ⟨row2,hrow2,hp2,-⟩ := hb k row'' hrow''
    rw [hp,hp2]
    exact h.last j row hrow (hi.mp hl) k row2 hjk hrow2
  · obtain ⟨j,hj⟩ := mem_iff_getElem?.mp hrow'
    obtain ⟨row,hrow,rfl⟩ := getElem?_setData.mp hj
    have ho := h.rows row (mem_of_getElem? hrow)
    split_ifs
    · exact ho.setData hd
    · exact ho

lemma CacheOk.delRowCache (hrow : c.rows[i]? = some row)
    (hl : row.Live) : CacheOk m opt db (c.delRowCache i row) := by
  -- what is live behind the step was live before, and is another row
  have hb : ∀ (j : ℕ) (row' : Row D), (c.delRowCache i row).rows[j]? = some row' → row'.Live →
      j ≠ i ∧ c.rows[j]? = some row' := by
    intro j row' hrow' hl'
    obtain ⟨row1,hrow1,rfl⟩ := getElem?_delRowCache.mp hrow'
    split_ifs at hl' ⊢ with hi
    · rcases hl' with h | h <;> cases h
    · exact ⟨Ne.symm hi,hrow1⟩
  have ho : ∀ p, p ≠ row.primary → (c.delRowCache i row).rowmap p = c.rowmap p :=
    fun p hp => Function.update_of_ne hp ..
  refine ⟨fun p j hp => ?_,fun j row' hrow' hl' => ?_,fun j row' hrow' hl' k row'' hjk hrow'' => ?_,fun row' hrow' => ?_⟩
  · by_cases hpr : p = row.primary
    · subst hpr
      simp [Cache.delRowCache] at hp
    · rw [ho p hpr] at hp
      obtain ⟨row',hrow',hpi,hl'⟩ := h.mapped p j hp
      have hi : i ≠ j := by
        rintro rfl
        exact hpr (hpi.symm.trans (congrArg Row.primary (some.inj (hrow'.symm.trans hrow))))
      exact ⟨row',getElem?_delRowCache.mpr ⟨row',hrow',by rw [if_neg hi]⟩,hpi,hl'⟩
  · obtain ⟨hji,hrow1⟩ := hb j row' hrow' hl'
    have hmap := h.live j row' hrow1 hl'
    have hp : row'.primary ≠ row.primary := by
      intro hp
      rw [hp,h.live i row hrow hl] at hmap
      exact hji (some.inj hmap).symm
    rw [ho _ hp,hmap]
  · obtain ⟨-,hrow1⟩ := hb j row' hrow' hl'
    obtain ⟨row2,hrow2,rfl⟩ := getElem?_delRowCache.mp hrow''
    have hne := h.last j row' hrow1 hl' k row2 hjk hrow2
    split_ifs
    · exact hne
    · exact hne
  · obtain ⟨j,hj⟩ := mem_iff_getElem?.mp hrow'
    obtain ⟨row1,hrow1,rfl⟩ := getElem?_delRowCache.mp hj
    split_ifs
    · trivial
    · exact h.rows row1 (mem_of_getElem? hrow1)

lemma CacheOk.put (hp : Put m opt db c p data c')
    (hd : Checked m opt data) (hs : p.length+8 < 2^63) : CacheOk m opt db c' := by
  cases hp with
  | new hmap hdb => exact h.push hmap ⟨hd,hs,hdb⟩ (by simp)
  | again hmap => exact h.setData hd _
  | change hmap hold => exact h.push hmap ⟨hd,_,rfl,hold⟩ (by simp)

lemma CacheOk.drop (hd : Drop m opt db c p c') : CacheOk m opt db c' := by
  cases hd with
  | undo hmap hrow hty => exact h.delRowCache hrow (.inl hty)
  | @cached i row hmap hrow hty =>
    obtain ⟨hda,old,-,hold⟩ := (h.rows row (mem_of_getElem? hrow)).updated hty
    exact (h.delRowCache hrow (.inr hty)).push (by simp [Cache.delRowCache]) ⟨hda,old,hold⟩ (by simp)
  | stored hmap hold => exact h.push hmap ⟨hold.checked,_,hold⟩ (by simp)

end

section
lemma RowOk.checked (h : RowOk m opt db row) (hty : row.ty ≠ .none) :
    Checked m opt row.data ∧ row.primary.length+8 < 2^63 := by
  cases ht : row.ty with
  | none => exact absurd ht hty
  | add => exact (h.added ht).imp_right And.left
  | update =>
    obtain ⟨hd,old,-,hs⟩ := h.updated ht
    exact ⟨hd,hs.short⟩
  | del =>
    simp only [RowOk,ht] at h
    obtain ⟨hd,old,hs⟩ := h
    exact ⟨hd,hs.short⟩

lemma RowOk.savable (h : RowOk m opt db row) : Savable m opt row := by
  refine ⟨fun hty => (h.checked hty).1,fun hty => ?_⟩
  obtain ⟨-,old,hold,hs⟩ := h.updated hty
  exact ⟨old,hold,hs.checked⟩

lemma Row.Live.ne_none (h : row.Live) : row.ty ≠ .none := by rcases h with h | h <;> simp [h]

end

end

end Dpos.Table
