import Dpos.TableRun

/-! Index entries of a saved table refer to stored rows, if no row is deleted whose pending
change has changed an index. -/
namespace Dpos.Table

open List SortedStore Cache

open DB (Store KeyValue)
open KeyIndex (writeAll)

section
variable {D : Type} (m : RowMeta D) (ints : IntCodec) (opt : Opt)

/-- Every entry names a stored row, which has the entry's value for the index. -/
def IndexOk (db : Store) : Prop :=
  ∀ name ∈ opt.index, ∀ key p, db.get key = some p → opt.indexPrefix name <+: key →
    ∃ data v, db.get (opt.dataKey p) = some (encodeRow p (m.encode data)) ∧ m.get name data = some v ∧
      key = opt.indexKey name v p

/-- The counter goes on, and the pending change of a deleted row leaves its indexes. -/
def IndexMeets (s : Store × Cache D) : Op D → Prop
  | .add _ | .replace _ => CanCount ints opt s.1 s.2
  | .del p => ∀ i row old, s.2.cached p = some (i,row) → row.ty = .update → row.old = some old →
      ∀ name ∈ opt.index, m.get name row.data = m.get name old
  | _ => True

/-- Rows to be deleted have the entries of the stored rows. -/
def DelOk (db : Store) (c : Cache D) : Prop :=
  ∀ row ∈ c.rows, row.ty = .del → ∀ old, Stored m opt db row.primary old →
    ∀ name ∈ opt.index, value m name row.data = value m name old

def Plain : Prop := ∀ name ∈ opt.index, sep ∉ name

variable {m ints opt} {db : Store} {c : Cache D} {p : Bytes} {data : D}

lemma newTable_ok {opt' : Opt} (h : newTable m opt = .ok (opt',c)) :
    Plain opt' ∧ opt'.join = opt.join ∧ c = empty := by
  unfold newTable at h
  split_ifs at h with hl hi hp
  all_goals
    simp only at h
    split at h
    · cases h
    · split_ifs at h
      cases h
      exact ⟨fun name hname hs => hi ⟨name,hname,.inl hs⟩,rfl,rfl⟩

section
variable {P : Row D → Prop} (h : ∀ row ∈ c.rows, row.ty = .del → P row)
include h

lemma dels_push {row : Row D} (hrow : row.ty = .del → P row) : ∀ row' ∈ (c.addRowCache row).rows, row'.ty = .del → P row' := by
  intro row' hrow'
  rcases mem_append.mp hrow' with hrow' | hrow'
  · exact h row' hrow'
  · rw [mem_singleton.mp hrow']
    exact hrow

lemma dels_delRowCache (i : ℕ) (row : Row D) : ∀ row' ∈ (c.delRowCache i row).rows, row'.ty = .del → P row' := by
  intro row' hrow' hty
  obtain ⟨j,hj⟩ := mem_iff_getElem?.mp hrow'
  obtain ⟨row1,hrow1,rfl⟩ := getElem?_delRowCache.mp hj
  split_ifs at hty ⊢
  exact h row1 (mem_of_getElem? hrow1) hty

lemma dels_put (hc : CacheOk m opt db c) {c' : Cache D} (hp : Put m opt db c p data c') :
    ∀ row ∈ c'.rows, row.ty = .del → P row := by
  cases hp with
  | new => exact dels_push h fun hty => by cases hty
  | change => exact dels_push h fun hty => by cases hty
  | @again i hmap =>
    intro row' hrow' hty
    obtain ⟨j,hj⟩ := mem_iff_getElem?.mp hrow'
    obtain ⟨row,hrow,rfl⟩ := getElem?_setData.mp hj
    split_ifs at hty ⊢ with hi
    · -- the row that is set is one of the map
      subst hi
      obtain ⟨row',hrow',-,hl⟩ := hc.mapped p i hmap
      cases hrow.symm.trans hrow'
      rcases hl with h | h <;> simp [h] at hty
    · exact h row (mem_of_getElem? hrow) hty

end

lemma DelOk.drop (hm : m.Lawful) (h : DelOk m opt db c) (hc : CacheOk m opt db c)
    (hme : IndexMeets m ints opt (db,c) (.del p)) {c' : Cache D} (hd : Drop m opt db c p c') :
    DelOk m opt db c' := by
  cases hd with
  | undo => exact dels_delRowCache h _ _
  | @cached i row hmap hrow hty =>
    refine dels_push (dels_delRowCache h _ _) fun _ old hold name hname => ?_
    obtain ⟨-,old',hold',hs⟩ := (hc.rows row (mem_of_getElem? hrow)).updated hty
    obtain rfl := hold.unique hm hs
    have hg := hme i row old (cached_some hmap hrow) hty hold' name hname
    rw [value,value,hg]
  | stored hmap hold => exact dels_push h fun _ old hold' name _ => by rw [hold.unique hm hold']

variable {name : Bytes}

lemma not_indexPrefix_dataKey : ¬opt.indexPrefix name <+: opt.dataKey p := by
  rintro ⟨rest,h⟩
  rw [Opt.indexPrefix_eq,Opt.dataKey_eq,append_assoc] at h
  exact absurd (cons.inj (append_cancel_left h)).1 (by decide)

lemma not_indexPrefix_countKey : ¬opt.indexPrefix name <+: opt.countKey := by
  rintro ⟨rest,h⟩
  rw [Opt.indexPrefix_eq,Opt.countKey_eq,append_assoc] at h
  exact absurd (cons.inj (append_cancel_left h)).1 (by decide)

variable [DecidableEq D] {row : Row D}

lemma mem_pairs_entry {kv : KeyValue} (h : kv ∈ pairs m ints opt c)
    (hp : opt.indexPrefix name <+: kv.1) : ∃ row ∈ c.rows, IndexKV m opt row kv := by
  rcases mem_pairs h with ⟨row,hrow,h⟩ | h
  · refine ⟨row,hrow,?_⟩
    rcases mem_append.mp h with h | h
    · exact absurd (key_of_mem_rowData h ▸ hp) not_indexPrefix_dataKey
    · exact mem_rowIndex.mp h
  · exact absurd (h ▸ hp) not_indexPrefix_countKey

lemma DelOk.named (h : DelOk m opt db c) (hrow : row ∈ c.rows) (hty : row.ty = .del)
    (hs : Stored m opt db row.primary data) (hname : name ∈ opt.index) :
    (opt.indexKey name (value m name data) row.primary,none) ∈ pairs m ints opt c := by
  rw [← h row hrow hty data hs name hname]
  exact mem_append_left _ (mem_flatMap.mpr ⟨row,hrow,mem_append_right _ (mem_rowIndex.mpr (.del hname hty))⟩)

/-- Where no pair names the entry of a stored row, a row with that entry is stored behind the save. -/
theorem stored_of_not_named (hm : m.Lawful) (hc : CacheOk m opt db c) (hdel : DelOk m opt db c)
    (hs : Stored m opt db p data) (hname : name ∈ opt.index)
    (hn : ∀ v, (opt.indexKey name (value m name data) p,v) ∉ pairs m ints opt c) :
    ∃ data', writeAll db.get (pairs m ints opt c) (opt.dataKey p) = some (encodeRow p (m.encode data')) ∧
      Checked m opt data' ∧ value m name data' = value m name data := by
  rcases KeyIndex.writeAll_cases db.get (pairs m ints opt c) (opt.dataKey p) with ⟨-,he⟩ | hmm
  · exact ⟨data,he.trans hs.value,hs.checked,rfl⟩
  · obtain ⟨row,hrow,rfl,hd⟩ := mem_pairs_data hmm
    have ho := hc.rows row hrow
    cases hty : row.ty with
    | none => simp [rowData,hty] at hd
    | del => exact absurd (hdel.named hrow hty hs hname) (hn _)
    | add => cases (ho.added hty).2.2.symm.trans hs.value
    | update =>
      obtain ⟨hch,old,hold,hs'⟩ := ho.updated hty
      obtain rfl := hs.unique hm hs'
      have hw : some row.data ≠ row.old := by
        intro he
        simp [rowData,hty,he] at hd
      refine ⟨row.data,?_,hch,?_⟩
      · simp only [rowData,hty,if_neg hw] at hd
        exact congrArg Prod.snd (mem_dataKVs.mp hd).2
      · by_contra hne
        exact hn _ (mem_append_left _ (mem_flatMap.mpr
          ⟨row,hrow,mem_append_right _ (mem_rowIndex.mpr (.old hname hty hold hne))⟩))

/-- The entry that a live row puts is one of that row, which is stored behind the save. -/
theorem entry_of_live (hp : Plain opt) (hj : opt.join = false) (hc : CacheOk m opt db c)
    (hrow : row ∈ c.rows) (hw : row.Writes) {name' : Bytes}
    (hname : name ∈ opt.index) (hname' : name' ∈ opt.index)
    (hpr : opt.indexPrefix name <+: opt.indexKey name' (value m name' row.data) row.primary) :
    ∃ data v, writeAll db.get (pairs m ints opt c) (opt.dataKey row.primary) =
        some (encodeRow row.primary (m.encode data)) ∧ m.get name data = some v ∧
      opt.indexKey name' (value m name' row.data) row.primary = opt.indexKey name v row.primary := by
  obtain rfl := Opt.name_eq_of_indexPrefix (hp name hname) (hp name' hname') hpr
  have hch := ((hc.rows row hrow).checked hw.live.ne_none).1
  exact ⟨row.data,_,hc.get_written hj hrow hw,hch.get hname,rfl⟩

lemma IndexOk.saveAll (hm : m.Lawful) (hpl : Plain opt) (hj : opt.join = false) (ho : Ok m ints opt (db,c))
    (hdel : DelOk m opt db c) (h : IndexOk m opt db) : IndexOk m opt (Table.saveAll m ints opt (db,c)).1 := by
  intro name hname key p hp hpr
  rw [get_saveAll ho.cache] at hp ⊢
  rcases KeyIndex.writeAll_cases db.get (pairs m ints opt c) key with ⟨hn,he⟩ | hmm
  · obtain ⟨data,v,hd,hv,rfl⟩ := h name hname key p (he ▸ hp) hpr
    have hs := ho.rows.stored hm hd
    obtain rfl : value m name data = v := by rw [value,hv,Option.getD_some]
    obtain ⟨data',hd',hc,hva⟩ := stored_of_not_named hm ho.cache hdel hs hname hn
    exact ⟨data',_,hd',hva ▸ hc.get hname,rfl⟩
  · rw [hp] at hmm
    obtain ⟨row,hrow,hk⟩ := mem_pairs_entry hmm hpr
    cases hk with
    | add hname' hty => exact entry_of_live hpl hj ho.cache hrow (.inl hty) hname hname' hpr
    | @new name' old hname' hty hold hne =>
      have hw : row.Writes := by
        refine .inr ⟨hty,fun he => hne ?_⟩
        rw [Option.some.inj (he.trans hold)]
      exact entry_of_live hpl hj ho.cache hrow hw hname hname' hpr

/-- What the conditions of the operations keep. -/
structure Entries (m : RowMeta D) (ints : IntCodec) (opt : Opt) (s : Store × Cache D) : Prop where
  ok : Ok m ints opt s
  del : DelOk m opt s.1 s.2
  index : IndexOk m opt s.1

omit [DecidableEq D] in
lemma Entries.start : Entries m ints opt (empty,(Cache.empty : Cache D)) :=
  ⟨Ok.start,by simp [DelOk,Cache.empty],fun name hname key p hp => by simp at hp⟩

lemma Entries.step (hm : m.Lawful) (hp : Plain opt) (hj : opt.join = false) {s : Store × Cache D} {op : Op D}
    (h : Entries m ints opt s) (hme : IndexMeets m ints opt s op) : Entries m ints opt (Table.step m ints opt s op) := by
  obtain ⟨db,c⟩ := s
  by_cases hsave : op = .save
  · subst hsave
    refine ⟨h.ok.saveAll,?_,h.index.saveAll hm hp hj h.ok h.del⟩
    simp [Table.step,saveAll_eq h.ok.cache,DelOk]
  · have hc : op.Draws → CanCount ints opt db c := by
      cases op with
      | add data => exact fun _ => hme
      | replace data => exact fun _ => hme
      | update p data => exact fun hd => hd.elim
      | del p => exact fun hd => hd.elim
      | save => exact fun hd => hd.elim
    obtain ⟨c0,hr,hmap,c',hs,ho,hcs⟩ := step_cases hm h.ok hsave hc
    rw [hs]
    obtain ⟨rows,rowmap,num⟩ := c0
    obtain rfl : rows = c.rows := hr
    obtain rfl : rowmap = c.rowmap := hmap
    have hdel : DelOk m opt db { c with num := num } := h.del
    refine ⟨ho,?_,h.index⟩
    rcases hcs with rfl | ⟨p,data,hpu⟩ | ⟨p,rfl,hdr⟩
    · exact hdel
    · exact dels_put hdel (h.ok.cache.withNum num) hpu
    · have hme' : IndexMeets m ints opt (db,{ c with num := num }) (.del p) := hme
      exact hdel.drop hm (h.ok.cache.withNum num) hme' hdr

/-- Behind a save, every index entry in the database names a stored row that has the entry's
value, if each delete comes when the row has no pending change of an index. -/
theorem index_entries_name_rows (hm : m.Lawful) {opt' : Opt} (hn : newTable m opt = .ok (opt',c))
    (hj : opt.join = false) {ops : List (Op D)}
    (hme : AllMeet m ints opt' (IndexMeets m ints opt') (empty,c) ops) :
    IndexOk m opt' (run m ints opt' (empty,c) (ops ++ [.save])).1 := by
  obtain ⟨hp,hj',rfl⟩ := newTable_ok hn
  have hj1 : opt'.join = false := hj'.trans hj
  have hrun : Entries m ints opt' (run m ints opt' (empty,empty) ops) :=
    run_induction (fun s op h hme => h.step hm hp hj1 hme) Entries.start hme
  have hs : Entries m ints opt' (step m ints opt' (run m ints opt' (empty,empty) ops) .save) :=
    hrun.step hm hp hj1 trivial
  rw [run,foldl_append]
  exact hs.index

end

def pairMeta : RowMeta (UInt8 × UInt8) where
  accepts _ := true
  get key data := if key = Bytes.ofString "id" then some [data.1] else if key = Bytes.ofString "v" then some [data.2] else none
  encode data := [data.1,data.2]
  decode
    | [a,b] => some (a,b)
    | _ => none
  payload := (0,0)
  created := (0,0)

lemma pairMeta_lawful : pairMeta.Lawful := by
  refine ⟨fun _ => rfl,fun key data v h => ?_⟩
  simp only [pairMeta] at h
  split_ifs at h <;> cases h <;> simp

def pairOpt : Opt := ⟨Bytes.ofString "p",Bytes.ofString "t",Bytes.ofString "id",false,[Bytes.ofString "v"]⟩

def eightBytes : IntCodec where
  encode := encodeInt64
  decode bs := if bs = [] then some 0 else some (decodeInt64 bs)
  decode_encode n := by
    rw [if_neg (ne_nil_of_length_pos (by rw [length_encodeInt64]; decide)),decodeInt64_encodeInt64]
  decode_nil := rfl

/-- A row is stored, its index is changed, and it is deleted before the change is saved. -/
def changeThenDel : List (Op (UInt8 × UInt8)) := [.add (1,5),.save,.update [1] (1,6),.del [1]]

/-- The entry of the old value stays, without a row. -/
theorem index_entry_stays : newTable pairMeta pairOpt = .ok (pairOpt,empty) ∧ ¬IndexOk pairMeta pairOpt
        (run pairMeta eightBytes pairOpt (empty,empty) (changeThenDel ++ [.save])).1 := by
  refine ⟨rfl,fun h => ?_⟩
  have he : (run pairMeta eightBytes pairOpt (empty,empty) (changeThenDel ++ [.save])).1.get
      (pairOpt.indexKey (Bytes.ofString "v") [5] [1]) = some [1] := by decide +kernel
  have hrow : (run pairMeta eightBytes pairOpt (empty,empty) (changeThenDel ++ [.save])).1.get
      (pairOpt.dataKey [1]) = none := by decide +kernel
  obtain ⟨data,v,hd,-⟩ := h _ (mem_singleton.mpr rfl) _ _ he Opt.indexPrefix_indexKey
  rw [hrow] at hd
  cases hd

/-- The change is saved before the row is deleted. -/
theorem index_entries_name_rows_saved :
    IndexOk pairMeta pairOpt (run pairMeta eightBytes pairOpt (empty,empty)
      ([.add (1,5),.save,.update [1] (1,6),.save,.del [1]] ++ [.save])).1 := by
  have hn : newTable pairMeta pairOpt = .ok (pairOpt,empty) := rfl
  refine index_entries_name_rows pairMeta_lawful hn rfl ?_
  exact ⟨fun h => absurd h (by decide),trivial,trivial,trivial,fun i row old h => (Option.some_ne_none _ h.symm).elim,trivial⟩

end Dpos.Table
