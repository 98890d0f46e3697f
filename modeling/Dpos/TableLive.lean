import Dpos.TableIndex

/-! A saved table has the rows that are live by its operations, each with its entries, if no
row is put back whose deletion is pending. -/
namespace Dpos.Table

open List Function SortedStore Cache Option

variable {D : Type} {p : Bytes} {row : Row D} {c' : Cache D}

open DB (Store KeyValue)
open KeyIndex (writeAll)

/-- The rows of a table without a cache, and how many keys were drawn. -/
structure Book (D : Type) where
  live : Bytes → Option D
  drawn : ℕ

namespace Book
variable (m : RowMeta D) (opt : Opt) (b : Book D)

def empty : Book D := ⟨fun _ => none,0⟩

def key (data : D) : Bytes :=
  if opt.primary = auto then pad (BitVec.ofNat 64 (b.drawn+1))
  else match getPrimaryFromData m opt data with
    | .error _ => []
    | .ok p => p

def draw : Book D := if opt.primary = auto then { b with drawn := b.drawn+1 } else b

def set (p : Bytes) (data : Option D) : Book D := { b with live := Function.update b.live p data }

def step : Op D → Book D
  | .add data =>
    match checkIndex m opt data with
    | .error _ => b
    | .ok _ => if (b.live (b.key m opt data)).isSome then b.draw opt
        else (b.draw opt).set (b.key m opt data) (some data)
  | .replace data =>
    match checkIndex m opt data with
    | .error _ => b
    | .ok _ => (b.draw opt).set (b.key m opt data) (some data)
  | .update p data =>
    match checkIndex m opt data, getPrimaryFromData m opt data with
    | .ok _,.ok p' => if p' = p ∧ (b.live p).isSome then b.set p (some data) else b
    | _,_ => b
  | .del p => b.set p none
  | .save => b

def run (ops : List (Op D)) : Book D := ops.foldl (step m opt) b

@[simp] lemma live_set (p : Bytes) (data : Option D) : (b.set p data).live = Function.update b.live p data := rfl

@[simp] lemma drawn_set (p : Bytes) (data : Option D) : (b.set p data).drawn = b.drawn := rfl

@[simp] lemma live_draw : (b.draw opt).live = b.live := by
  unfold draw
  split_ifs <;> rfl

end Book

section
variable (m : RowMeta D) (ints : IntCodec) (opt : Opt) (db : Store) (c : Cache D)

def Pending (p : Bytes) : Prop := ∃ row ∈ c.rows, row.ty = .del ∧ row.primary = p

/-- The row as the cache and the database have it. -/
structure Shown (p : Bytes) (x : Option D) : Prop where
  cached : ∀ i row, c.rowmap p = some i → c.rows[i]? = some row → x = some row.data
  pending : c.rowmap p = none → Pending c p → x = none
  stored : c.rowmap p = none → ¬Pending c p → db.get (opt.dataKey p) = x.map fun data => encodeRow p (m.encode data)

/-- The counter goes on, no row is put whose deletion is pending, and no row is without bytes. -/
def LiveMeets (s : Store × Cache D) : Op D → Prop
  | .add data | .replace data => CanCount ints opt s.1 s.2 ∧ (opt.primary ≠ auto → ∀ p,
      getPrimaryFromData m opt data = .ok p → ¬Pending s.2 p ∧ p ++ m.encode data ≠ [])
  | .update p data => ¬Pending s.2 p ∧ p ++ m.encode data ≠ []
  | _ => True

/-- The keys of the data are free of the separator. -/
def Op.Plain : Op D → Prop
  | .add data | .replace data | .update _ data => ∀ p, getPrimaryFromData m opt data = .ok p → sep ∉ p
  | _ => True

/-- All entries of the stored rows are there. -/
def HasEntries : Prop := ∀ p data, Stored m opt db p data → ∀ name ∈ opt.index,
  db.get (opt.indexKey name (value m name data) p) = some p

/-- The state of a table against its rows by the operations. -/
structure Mirrors (b : Book D) : Prop where
  ok : Ok m ints opt (db,c)
  drawn : opt.primary = auto → b.drawn < 2^63 ∧ countGet ints opt db c = .ok (BitVec.ofNat 64 b.drawn)
  shown : ∀ p, Shown m opt db c p (b.live p)
  revive : ∀ row ∈ c.rows, row.Live → ¬Pending c row.primary
  entries : HasEntries m opt db
  readable : ∀ p, Readable m opt db p
  filled : ∀ row ∈ c.rows, row.Live → row.primary ++ m.encode row.data ≠ []
  plain : ∀ p, Used opt db c p → sep ∉ p

variable {m ints opt db c} {q : Bytes} {d : D} {i : ℕ}

lemma pending_push : Pending (c.addRowCache row) q ↔ Pending c q ∨ (row.ty = .del ∧ row.primary = q) := by
  unfold Pending addRowCache
  simp only [mem_append,mem_singleton,or_and_right,exists_or,exists_eq_left]

lemma pending_iff : Pending c q ↔ ∃ (j : ℕ) (row : Row D), c.rows[j]? = some row ∧ row.ty = .del ∧ row.primary = q := by
  simp only [Pending,mem_iff_getElem?]
  constructor
  · rintro ⟨row,⟨j,hj⟩,h⟩
    exact ⟨j,row,hj,h⟩
  · rintro ⟨j,row,hj,h⟩
    exact ⟨row,⟨j,hj⟩,h⟩

lemma pending_congr {f : ℕ → Row D → Row D}
    (hr : ∀ j row', c'.rows[j]? = some row' ↔ ∃ row, c.rows[j]? = some row ∧ row' = f j row)
    (hf : ∀ j row, c.rows[j]? = some row →
      ((f j row).ty = .del ∧ (f j row).primary = q ↔ row.ty = .del ∧ row.primary = q)) : Pending c' q ↔ Pending c q := by
  rw [pending_iff,pending_iff]
  refine exists_congr fun j => ⟨?_,?_⟩
  · rintro ⟨row',hrow',h⟩
    obtain ⟨row,hrow,rfl⟩ := (hr j row').mp hrow'
    exact ⟨row,hrow,(hf j row hrow).mp h⟩
  · rintro ⟨row,hrow,h⟩
    exact ⟨_,(hr j _).mpr ⟨row,hrow,rfl⟩,(hf j row hrow).mpr h⟩

lemma pending_setData : Pending (c.setData i d) q ↔ Pending c q :=
  pending_congr (fun _ _ => getElem?_setData) fun j row _ => by split_ifs <;> rfl

lemma pending_delRowCache (hrow : c.rows[i]? = some row) (hl : row.Live) :
    Pending (c.delRowCache i row) q ↔ Pending c q := by
  refine pending_congr (fun _ _ => getElem?_delRowCache) fun j row1 hrow1 => ?_
  split_ifs with hi
  · -- the row that is taken from the map is no deletion
    subst hi
    cases hrow.symm.trans hrow1
    rcases hl with hty | hty <;> simp [hty]
  · rfl

lemma Pending.used (h : Pending c p) : Used opt db c p := by
  obtain ⟨row,hrow,-,rfl⟩ := h
  exact .inr (mem_map.mpr ⟨row,hrow,rfl⟩)

lemma rowmap_push_of_ne (hq : q ≠ row.primary) : (c.addRowCache row).rowmap q = c.rowmap q := by
  cases ht : row.ty <;> simp [addRowCache,ht,hq]

lemma rowmap_push_live (hl : row.Live) : (c.addRowCache row).rowmap row.primary = some c.rows.length := by
  rcases hl with ht | ht <;> simp [addRowCache,ht]

variable {row' : Row D}

variable {j : ℕ} {x : Option D} {l : Bytes → Option D} {kv : KeyValue} {n : Bytes}

lemma CacheOk.getElem_ne (hc : CacheOk m opt db c) (hmap : c.rowmap q = some j)
    (hrow : (c.addRowCache row).rows[j]? = some row') : c.rows[j]? = some row' := by
  rcases getElem?_push.mp hrow with h | ⟨rfl,-⟩
  · exact h
  · obtain ⟨row1,hrow1,-⟩ := hc.mapped q _ hmap
    exact absurd (List.getElem?_eq_some_iff.mp hrow1).1 (lt_irrefl _)

lemma Shown.congr (h : Shown m opt db c q x) (hm : c'.rowmap q = c.rowmap q) (hp : Pending c' q ↔ Pending c q)
    (hr : ∀ j row', c.rowmap q = some j → c'.rows[j]? = some row' →
      ∃ row, c.rows[j]? = some row ∧ row.data = row'.data) : Shown m opt db c' q x := by
  refine ⟨fun j row' hmap hrow' => ?_,fun hmap hpe => h.pending (hm ▸ hmap) (hp.mp hpe),
    fun hmap hpe => h.stored (hm ▸ hmap) (mt hp.mpr hpe)⟩
  rw [hm] at hmap
  obtain ⟨row,hrow,hd⟩ := hr j row' hmap hrow'
  exact hd ▸ h.cached j row hmap hrow

lemma Shown.push_of_ne (hc : CacheOk m opt db c) (h : Shown m opt db c q x) (hq : q ≠ row.primary) :
    Shown m opt db (c.addRowCache row) q x := by
  refine h.congr (rowmap_push_of_ne hq) ?_ fun j row' hmap hrow' => ⟨row',hc.getElem_ne hmap hrow',rfl⟩
  rw [pending_push]
  exact ⟨fun h => h.resolve_right fun h => hq h.2.symm,.inl⟩

lemma Shown.withNum (h : Shown m opt db c q x) (num : BitVec 64) : Shown m opt db { c with num := num } q x :=
  ⟨h.cached,h.pending,h.stored⟩

lemma Shown.of_cached (hmap : c.rowmap p = some i) (hd : ∀ row, c.rows[i]? = some row → x = some row.data) :
    Shown m opt db c p x := by
  refine ⟨fun j row hj hrow => ?_,fun hn => ?_,fun hn => ?_⟩
  · cases hmap.symm.trans hj
    exact hd row hrow
  · cases hmap.symm.trans hn
  · cases hmap.symm.trans hn

lemma Shown.of_none (hmap : c.rowmap p = none) (hv : ¬Pending c p → db.get (opt.dataKey p) = none) :
    Shown m opt db c p none :=
  ⟨fun _ _ hj => absurd (hmap.symm.trans hj) (by simp),fun _ _ => rfl,fun _ => hv⟩

lemma Shown.push_live (row : Row D) (hl : row.Live) : Shown m opt db (c.addRowCache row) row.primary (some row.data) := by
  refine .of_cached (rowmap_push_live hl) fun row' hrow' => ?_
  have hs : (c.addRowCache row).rows[c.rows.length]? = some row := getElem?_concat_length
  rw [some.inj (hrow'.symm.trans hs)]

lemma Shown.push_del (row : Row D) (hty : row.ty = .del) : Shown m opt db (c.addRowCache row) row.primary none :=
  .of_none (by simp [addRowCache,hty]) fun hp => absurd (pending_push.mpr (.inr ⟨hty,rfl⟩)) hp

lemma CacheOk.primary_eq (hc : CacheOk m opt db c) (hmap : c.rowmap q = some i) (hrow : c.rows[i]? = some row) :
    q = row.primary := by
  obtain ⟨row',hrow',rfl,-⟩ := hc.mapped q i hmap
  rw [some.inj (hrow'.symm.trans hrow)]

lemma CacheOk.place_ne (hc : CacheOk m opt db c) (hrow : c.rows[i]? = some row) (hmap : c.rowmap q = some j)
    (hq : q ≠ row.primary) : i ≠ j := by
  rintro rfl
  exact hq (hc.primary_eq hmap hrow)

lemma Shown.setData_of_ne (hc : CacheOk m opt db c) (h : Shown m opt db c q x)
    (hrow : c.rows[i]? = some row) (hq : q ≠ row.primary) : Shown m opt db (c.setData i d) q x := by
  refine h.congr rfl pending_setData fun j row' hmap hrow' => ?_
  obtain ⟨row1,hrow1,rfl⟩ := getElem?_setData.mp hrow'
  exact ⟨row1,hrow1,by rw [if_neg (hc.place_ne hrow hmap hq)]⟩

lemma Shown.setData_self (hmap : c.rowmap p = some i) : Shown m opt db (c.setData i d) p (some d) := by
  refine .of_cached hmap fun row' hrow' => ?_
  obtain ⟨row,-,rfl⟩ := getElem?_setData.mp hrow'
  simp

lemma Shown.delRowCache_of_ne (hc : CacheOk m opt db c) (h : Shown m opt db c q x)
    (hrow : c.rows[i]? = some row) (hl : row.Live) (hq : q ≠ row.primary) :
    Shown m opt db (c.delRowCache i row) q x := by
  refine h.congr (update_of_ne hq ..) (pending_delRowCache hrow hl) fun j row' hmap hrow' => ?_
  obtain ⟨row1,hrow1,rfl⟩ := getElem?_delRowCache.mp hrow'
  exact ⟨row1,hrow1,by rw [if_neg (hc.place_ne hrow hmap hq)]⟩

lemma Shown.update (hp : Shown m opt db c p x) (h : ∀ q, q ≠ p → Shown m opt db c q (l q)) (q : Bytes) :
    Shown m opt db c q (Function.update l p x q) := by
  by_cases hq : q = p
  · rwa [hq,update_self]
  · rw [update_of_ne hq]
    exact h q hq

lemma Put.shown (hc : CacheOk m opt db c) (hp : Put m opt db c p d c')
    (h : ∀ q, Shown m opt db c q (l q)) : ∀ q, Shown m opt db c' q (Function.update l p (some d) q) := by
  cases hp with
  | new => exact (Shown.push_live ⟨.add,p,d,none⟩ (.inl rfl)).update fun q => (h q).push_of_ne hc
  | again hmap =>
    obtain ⟨row,hrow,rfl,-⟩ := hc.mapped p _ hmap
    exact (Shown.setData_self hmap).update fun q => (h q).setData_of_ne hc hrow
  | @change old => exact (Shown.push_live ⟨.update,p,d,some old⟩ (.inr rfl)).update fun q => (h q).push_of_ne hc

lemma Drop.shown (hc : CacheOk m opt db c) (hd : Drop m opt db c p c')
    (h : ∀ q, Shown m opt db c q (l q)) : ∀ q, Shown m opt db c' q (Function.update l p none q) := by
  cases hd with
  | @undo i row hmap hrow hty =>
    obtain rfl := hc.primary_eq hmap hrow
    have ho := (hc.rows row (mem_of_getElem? hrow)).added hty
    exact (Shown.of_none (update_self ..) fun _ => ho.2.2).update fun q => (h q).delRowCache_of_ne hc hrow (.inl hty)
  | @cached i row hmap hrow hty =>
    obtain rfl := hc.primary_eq hmap hrow
    refine (Shown.push_del { row with ty := .del } rfl).update fun q hq => ?_
    exact ((h q).delRowCache_of_ne hc hrow (.inr hty) hq).push_of_ne (hc.delRowCache hrow (.inr hty)) hq
  | @stored d hmap hold => exact (Shown.push_del ⟨.del,p,d,none⟩ rfl).update fun q => (h q).push_of_ne hc

variable (hc : CacheOk m opt db c)
include hc

/-- The live rows of a new cache: they were live before, or are the new row. -/
theorem Put.live_row (hp : Put m opt db c p d c') (hrow : row ∈ c'.rows)
    (hl : row.Live) : (∃ row1 ∈ c.rows, row1.Live ∧ row1.primary = row.primary ∧ row1.data = row.data) ∨
      (row.primary = p ∧ row.data = d) := by
  cases hp with
  | new | change =>
    rcases mem_append.mp hrow with hrow | hrow
    · exact .inl ⟨row,hrow,hl,rfl,rfl⟩
    · rw [mem_singleton.mp hrow]
      exact .inr ⟨rfl,rfl⟩
  | @again i hmap =>
    obtain ⟨row',hrow',rfl,hl'⟩ := hc.mapped p i hmap
    obtain ⟨j,hj⟩ := mem_iff_getElem?.mp hrow
    obtain ⟨row1,hrow1,rfl⟩ := getElem?_setData.mp hj
    split_ifs at hl ⊢ with hi
    · subst hi
      cases hrow'.symm.trans hrow1
      exact .inr ⟨rfl,rfl⟩
    · exact .inl ⟨row1,mem_of_getElem? hrow1,hl,rfl,rfl⟩

omit hc in
lemma Put.pending (hp : Put m opt db c p d c') : Pending c' q ↔ Pending c q := by
  cases hp with
  | new => simp [pending_push]
  | again => exact pending_setData
  | change => simp [pending_push]

lemma live_of_delRowCache (hrow : c.rows[i]? = some row) (hl : row.Live)
    (hrow' : row' ∈ (c.delRowCache i row).rows) (hl' : row'.Live) :
    row' ∈ c.rows ∧ row'.primary ≠ row.primary := by
  obtain ⟨j,hj⟩ := mem_iff_getElem?.mp hrow'
  obtain ⟨row1,hrow1,rfl⟩ := getElem?_delRowCache.mp hj
  split_ifs at hl' ⊢ with hi
  · rcases hl' with h | h <;> cases h
  · refine ⟨mem_of_getElem? hrow1,fun hp => hi ?_⟩
    have hmap := hc.live j row1 hrow1 hl'
    rw [hp,hc.live i row hrow hl] at hmap
    exact some.inj hmap

lemma not_live_of_rowmap (hmap : c.rowmap p = none) (hrow : row ∈ c.rows) (hp : row.primary = p) : ¬row.Live := by
  subst hp
  intro hl
  obtain ⟨i,hi⟩ := mem_iff_getElem?.mp hrow
  cases hmap.symm.trans (hc.live i row hi hl)

lemma Drop.live_row (hd : Drop m opt db c p c') (hrow : row ∈ c'.rows)
    (hl : row.Live) : row ∈ c.rows ∧ row.primary ≠ p := by
  cases hd with
  | undo hmap hrow1 hty =>
    obtain rfl := hc.primary_eq hmap hrow1
    exact live_of_delRowCache hc hrow1 (.inl hty) hrow hl
  | cached hmap hrow1 hty =>
    obtain rfl := hc.primary_eq hmap hrow1
    rcases mem_append.mp hrow with hrow | hrow
    · exact live_of_delRowCache hc hrow1 (.inr hty) hrow hl
    · rw [mem_singleton.mp hrow] at hl
      rcases hl with h | h <;> cases h
  | stored hmap hold =>
    rcases mem_append.mp hrow with hrow | hrow
    · exact ⟨hrow,fun hp => not_live_of_rowmap hc hmap hrow hp hl⟩
    · rw [mem_singleton.mp hrow] at hl
      rcases hl with h | h <;> cases h

lemma Drop.pending (hd : Drop m opt db c p c') (h : Pending c' q) : Pending c q ∨ q = p := by
  cases hd with
  | undo hmap hrow hty => exact .inl ((pending_delRowCache hrow (.inl hty)).mp h)
  | cached hmap hrow hty =>
    obtain rfl := hc.primary_eq hmap hrow
    rcases pending_push.mp h with h | ⟨-,h⟩
    · exact .inl ((pending_delRowCache hrow (.inr hty)).mp h)
    · exact .inr h.symm
  | stored hmap hold =>
    rcases pending_push.mp h with h | ⟨-,h⟩
    · exact .inl h
    · exact .inr h.symm

/-! ### A save -/

lemma live_unique (hrow : row ∈ c.rows) (hrow' : row' ∈ c.rows) (hl : row.Live)
    (hl' : row'.Live) (hp : row.primary = row'.primary) : row = row' := by
  obtain ⟨i,hi⟩ := mem_iff_getElem?.mp hrow
  obtain ⟨j,hj⟩ := mem_iff_getElem?.mp hrow'
  have hmap := hc.live i row hi hl
  rw [hp,hc.live j row' hj hl'] at hmap
  rw [some.inj hmap,hi] at hj
  exact some.inj hj

variable [DecidableEq D] (hr : ∀ row ∈ c.rows, row.Live → ¬Pending c row.primary)

omit hc in
lemma ty_of_mem_rowData (h : kv ∈ rowData m opt row) : row.ty = .del ∧ kv.2 = none ∨ row.Writes := by
  unfold rowData at h
  split at h
  · simp at h
  case h_2 hty => exact .inl ⟨hty,by rw [(mem_dataKVs.mp h).2]⟩
  case h_3 hty => exact .inr (.inl hty)
  case h_4 hty =>
    split_ifs at h with he
    · simp at h
    · exact .inr (.inr ⟨hty,he⟩)

include hr

lemma Shown.saveAll (hjo : opt.join = false) (h : Shown m opt db c p x) :
    writeAll db.get (pairs m ints opt c) (opt.dataKey p) = x.map fun d => encodeRow p (m.encode d) := by
  cases hmap : c.rowmap p with
  | some i =>
    obtain ⟨row,hrow,rfl,hl⟩ := hc.mapped p i hmap
    have hmm := mem_of_getElem? hrow
    rw [h.cached i row hmap hrow,map_some]
    by_cases hw : row.Writes
    · exact hc.get_written hjo hmm hw
    · rcases KeyIndex.writeAll_cases db.get (pairs m ints opt c) (opt.dataKey row.primary) with ⟨-,he⟩ | hi
      · -- the change leaves the data
        rcases hl with hty | hty
        · exact absurd (.inl hty) hw
        · obtain ⟨-,old,hold,hs⟩ := (hc.rows row hmm).updated hty
          have hd : some row.data = row.old := by
            by_contra hne
            exact hw (.inr ⟨hty,hne⟩)
          rw [he,hs.value,some.inj (hd.trans hold)]
      · obtain ⟨row',hrow',hp,hd⟩ := mem_pairs_data hi
        rcases ty_of_mem_rowData hd with ⟨hty,-⟩ | hw'
        · exact absurd ⟨row',hrow',hty,hp⟩ (hr row hmm hl)
        · exact absurd (live_unique hc hrow' hmm hw'.live hl hp ▸ hw') hw
  | none =>
    by_cases hp : Pending c p
    · rw [h.pending hmap hp,map_none]
      rcases KeyIndex.writeAll_cases db.get (pairs m ints opt c) (opt.dataKey p) with ⟨hn,-⟩ | hi
      · obtain ⟨row,hrow,hty,rfl⟩ := hp
        have hi : (opt.dataKey row.primary,none) ∈ rowKVs m opt row :=
          mem_append_left _ (by simp [rowData,hty,mem_dataKVs,hjo])
        exact absurd (mem_append_left _ (mem_flatMap.mpr ⟨row,hrow,hi⟩)) (hn _)
      · obtain ⟨row,hrow,hp',hd⟩ := mem_pairs_data hi
        rcases ty_of_mem_rowData hd with ⟨-,hnn⟩ | hw
        · exact hnn
        · exact absurd hw.live (not_live_of_rowmap hc hmap hrow hp')
    · rw [← h.stored hmap hp]
      rcases KeyIndex.writeAll_cases db.get (pairs m ints opt c) (opt.dataKey p) with ⟨-,he⟩ | hi
      · exact he
      · obtain ⟨row,hrow,hp',hd⟩ := mem_pairs_data hi
        rcases ty_of_mem_rowData hd with ⟨hty,-⟩ | hw
        · exact absurd ⟨row,hrow,hty,hp'⟩ hp
        · exact absurd hw.live (not_live_of_rowmap hc hmap hrow hp')

omit hc hr [DecidableEq D] in
lemma IndexKV.ty (h : IndexKV m opt row kv) : row.ty = .del ∨ row.Live := by
  cases h with
  | del _ hty => exact .inl hty
  | add _ hty => exact .inr (.inl hty)
  | old _ hty | new _ hty => exact .inr (.inr hty)

omit [DecidableEq D] in
lemma IndexKV.of_live (hpl : Plain opt) (hs : ∀ row ∈ c.rows, sep ∉ row.primary)
    (hrow : row ∈ c.rows) (hl : row.Live) (hrow' : row' ∈ c.rows)
    (hname : n ∈ opt.index) (h : IndexKV m opt row' kv)
    (hk : kv.1 = opt.indexKey n (value m n row.data) row.primary) : kv.2 = some row.primary := by
  have hinj := fun n' v (hname' : n' ∈ opt.index) (hk' : kv.1 = opt.indexKey n' v row'.primary) =>
    Opt.indexKey_inj (hpl _ hname') (hpl _ hname) (hs row' hrow') (hs row hrow) (hk'.symm.trans hk)
  cases h with
  | del hname' hty => exact absurd ⟨row',hrow',hty,(hinj _ _ hname' rfl).2.2⟩ (hr row hrow hl)
  | add hname' | new hname' => rw [(hinj _ _ hname' rfl).2.2]
  | old hname' hty hold hne =>
    obtain ⟨rfl,hv,hp⟩ := hinj _ _ hname' rfl
    obtain rfl := live_unique hc hrow' hrow (.inr hty) hl hp
    exact absurd hv.symm hne

lemma entry_of_cached (hpl : Plain opt) (hse : ∀ row ∈ c.rows, sep ∉ row.primary)
    (he : HasEntries m opt db) (hrow : row ∈ c.rows) (hl : row.Live) (hname : n ∈ opt.index) :
    writeAll db.get (pairs m ints opt c) (opt.indexKey n (value m n row.data) row.primary) = some row.primary := by
  rcases KeyIndex.writeAll_cases db.get (pairs m ints opt c)
    (opt.indexKey n (value m n row.data) row.primary) with ⟨hno,heq⟩ | hi
  · -- no pair names the entry, so the row is a change that leaves the index
    have hn : ∀ v, ¬IndexKV m opt row (opt.indexKey n (value m n row.data) row.primary,v) := fun v h =>
      hno v (mem_append_left _ (mem_flatMap.mpr ⟨row,hrow,mem_append_right _ (mem_rowIndex.mpr h)⟩))
    rcases hl with hty | hty
    · exact absurd (.add hname hty) (hn _)
    · obtain ⟨-,old,hold,hs⟩ := (hc.rows row hrow).updated hty
      have hv : value m n row.data = value m n old := by
        by_contra hne
        exact hn _ (.new hname hty hold hne)
      rw [heq,hv]
      exact he _ old hs n hname
  · obtain ⟨row',hrow',h⟩ := mem_pairs_index hi
    exact h.of_live hc hr hpl hse hrow hl hrow' hname rfl

lemma entry_saveAll (hm : m.Lawful) (hdb : Rows m opt db) (hpl : Plain opt) (hse : ∀ p, Used opt db c p → sep ∉ p)
    (he : HasEntries m opt db) (h : Shown m opt db c p (some d)) (hname : n ∈ opt.index) :
    writeAll db.get (pairs m ints opt c) (opt.indexKey n (value m n d) p) = some p := by
  have hsp : ∀ row ∈ c.rows, sep ∉ row.primary := fun row hrow => hse _ (.inr (mem_map.mpr ⟨row,hrow,rfl⟩))
  cases hmap : c.rowmap p with
  | some i =>
    obtain ⟨row,hrow,rfl,hl⟩ := hc.mapped p i hmap
    cases h.cached i row hmap hrow
    exact entry_of_cached hc hr hpl hsp he (mem_of_getElem? hrow) hl hname
  | none =>
    have hn : ¬Pending c p := fun hp => absurd (h.pending hmap hp) (by simp)
    have hs := hdb.stored hm (h.stored hmap hn)
    have hp : sep ∉ p := hse p (.inl (by simp [hs.value]))
    rcases KeyIndex.writeAll_cases db.get (pairs m ints opt c) (opt.indexKey n (value m n d) p) with ⟨-,heq⟩ | hi
    · rw [heq]
      exact he p d hs n hname
    · obtain ⟨row,hrow,hkv⟩ := mem_pairs_index hi
      obtain ⟨n',hname',v,hk⟩ := hkv.key
      obtain ⟨-,-,rfl⟩ := Opt.indexKey_inj (hpl _ hname) (hpl _ hname') hp (hsp row hrow) hk
      have hd := not_live_of_rowmap hc hmap hrow rfl
      rcases hkv.ty with hty | hl
      · exact absurd ⟨row,hrow,hty,rfl⟩ hn
      · exact absurd hl hd

end

section Mirrors
variable {m : RowMeta D} {ints : IntCodec} {opt : Opt} {db : Store} {c : Cache D} {b : Book D}
  {data : D}

lemma Shown.held_iff {x : Option D} (h : Shown m opt db c p x) (hc : CacheOk m opt db c)
    (hp : ¬Pending c p) : Held opt db c p ↔ x.isSome := by
  cases hmap : c.rowmap p with
  | some i =>
    obtain ⟨row,hrow,-,-⟩ := hc.mapped p i hmap
    simp [Held,hmap,h.cached i row hmap hrow]
  | none =>
    cases x with
    | none => simp [Held,hmap,h.stored hmap hp]
    | some data => simp [Held,hmap,h.stored hmap hp]

lemma sep_not_mem_pad {n : ℕ} (hn : n < 2^63) : sep ∉ pad (BitVec.ofNat 64 n) := by
  rw [pad_ofNat hn]
  intro h
  exact absurd (Bytes.mem_padded h).1 (by decide)

variable {num : BitVec 64}

lemma Drawn.free (hd : Drawn m ints opt db c data p num)
    (hg : opt.primary ≠ auto → ¬Pending c p ∧ p ++ m.encode data ≠ [])
    (hpl : ∀ p, getPrimaryFromData m opt data = .ok p → sep ∉ p) :
    ¬Pending c p ∧ p ++ m.encode data ≠ [] ∧ sep ∉ p := by
  by_cases ha : opt.primary = auto
  · obtain ⟨n,hn,-,rfl,rfl,hf⟩ := hd.fresh ha
    refine ⟨fun hp => hf hp.used,?_,sep_not_mem_pad hn⟩
    rw [pad_ofNat hn]
    exact append_ne_nil_of_left_ne_nil (ne_nil_of_length_pos (by simp)) _
  · obtain ⟨hp,hne⟩ := hg ha
    exact ⟨hp,hne,hpl p (hd.given ha).2⟩

namespace Mirrors
variable (h : Mirrors m ints opt db c b)
include h

section
variable (hd : Drawn m ints opt db c data p num)
include hd

lemma next (ha : opt.primary = auto) :
    b.drawn+1 < 2^63 ∧ num = BitVec.ofNat 64 (b.drawn+1) ∧ p = pad num := by
  obtain ⟨hlt,hg⟩ := h.drawn ha
  obtain ⟨n,hn,hg',hnu,hp,-⟩ := hd.fresh ha
  have he := congrArg BitVec.toNat (Except.ok.inj (hg.symm.trans hg'))
  simp only [BitVec.toNat_ofNat] at he
  obtain rfl : b.drawn = n := by omega
  exact ⟨hn,hnu,hp⟩

lemma key : b.key m opt data = p := by
  unfold Book.key
  split_ifs with ha
  · obtain ⟨-,rfl,rfl⟩ := h.next hd ha
    rfl
  · rw [(hd.given ha).2]

lemma draw (hnu : c'.num = num) (ha : opt.primary = auto) :
    (b.draw opt).drawn < 2^63 ∧ countGet ints opt db c' = .ok (BitVec.ofNat 64 (b.draw opt).drawn) := by
  obtain ⟨hn,rfl,-⟩ := h.next hd ha
  rw [Book.draw,if_pos ha]
  exact ⟨hn,countGet_of_num hn hnu⟩

end

lemma put (num : BitVec 64) (hpu : Put m opt db { c with num := num } p data c')
    (ho : Ok m ints opt (db,c')) (hf : ¬Pending c p ∧ p ++ m.encode data ≠ [] ∧ sep ∉ p) {b' : Book D}
    (hdr : opt.primary = auto → b'.drawn < 2^63 ∧ countGet ints opt db c' = .ok (BitVec.ofNat 64 b'.drawn))
    (hli : b'.live = Function.update b.live p (some data)) : Mirrors m ints opt db c' b' := by
  obtain ⟨hpe,hne,hs⟩ := hf
  have hc := h.ok.cache.withNum num
  refine ⟨ho,hdr,fun q => ?_,fun row hrow hl => ?_,h.entries,h.readable,fun row hrow hl => ?_,fun q hq => ?_⟩
  · rw [hli]
    exact hpu.shown hc (fun q => (h.shown q).withNum num) q
  · rw [hpu.pending]
    rcases hpu.live_row hc hrow hl with ⟨row1,hrow1,hl1,hp,-⟩ | ⟨hp,-⟩
    · exact hp ▸ h.revive row1 hrow1 hl1
    · exact hp ▸ hpe
  · rcases hpu.live_row hc hrow hl with ⟨row1,hrow1,hl1,hp,hd⟩ | ⟨hp,hd⟩
    · exact hp ▸ hd ▸ h.filled row1 hrow1 hl1
    · exact hp ▸ hd ▸ hne
  · rcases hpu.used hq with hq | rfl
    · exact h.plain q hq
    · exact hs

lemma withDraw (hd : Drawn m ints opt db c data p num) :
    Mirrors m ints opt db { c with num := num } (b.draw opt) :=
  ⟨h.ok.drawn hd,h.draw hd rfl,fun q => Book.live_draw opt b ▸ (h.shown q).withNum num,h.revive,h.entries,h.readable,
    h.filled,h.plain⟩

lemma drop (hd : Drop m opt db c p c') : Mirrors m ints opt db c' (b.set p none) := by
  have hc := h.ok.cache
  refine ⟨h.ok.drop hd,fun ha => ?_,hd.shown hc h.shown,fun row hrow hl hp => ?_,h.entries,h.readable,
    fun row hrow hl => ?_,fun q hq => h.plain q (hd.used hq)⟩
  · rw [countGet_of_num_eq hd.num]
    exact h.drawn ha
  · obtain ⟨hrow,hne⟩ := hd.live_row hc hrow hl
    exact (hd.pending hc hp).elim (h.revive row hrow hl) hne
  · exact h.filled row (hd.live_row hc hrow hl).1 hl

lemma drop_none (hh : ¬Held opt db c p) : Mirrors m ints opt db c (b.set p none) := by
  have hmap : c.rowmap p = none := by
    by_contra hmap
    exact hh (.inl hmap)
  have hv : db.get (opt.dataKey p) = none := by
    by_contra hv
    exact hh (.inr hv)
  exact ⟨h.ok,h.drawn,(Shown.of_none hmap fun _ => hv).update fun q _ => h.shown q,h.revive,h.entries,h.readable,
    h.filled,h.plain⟩

lemma add (hm : m.Lawful) (hme : LiveMeets m ints opt (db,c) (.add data))
    (ho : ∀ p, getPrimaryFromData m opt data = .ok p → sep ∉ p) :
    Mirrors m ints opt db (Table.add m ints opt db c data).2 (b.step m opt (.add data)) := by
  cases hck : checkIndex m opt data with
  | error e => simpa [Table.add,Book.step,hck] using h
  | ok u =>
    obtain ⟨p,num,hd⟩ := exists_drawn hm h.ok.counted hme.1 hck
    have hf := hd.free (fun ha => hme.2 ha p (hd.given ha).2) ho
    have hh : Held opt db { c with num := num } p ↔ (b.live p).isSome := (h.shown p).held_iff h.ok.cache hf.1
    simp only [Book.step,hck,h.key hd,add_eq hck hd]
    rcases addAt_spec hm h.ok.rows (h.ok.cache.withNum num) p data with ⟨hn,hp⟩ | ⟨hy,hs⟩
    · rw [if_neg (mt hh.mpr hn)]
      exact h.put num hp (h.ok.putDrawn hd hp) hf (h.draw hd hp.num) (by simp)
    · rw [if_pos (hh.mp hy),hs]
      exact h.withDraw hd

lemma replace (hm : m.Lawful) (hme : LiveMeets m ints opt (db,c) (.replace data))
    (ho : ∀ p, getPrimaryFromData m opt data = .ok p → sep ∉ p) :
    Mirrors m ints opt db (Table.replace m ints opt db c data).2 (b.step m opt (.replace data)) := by
  cases hck : checkIndex m opt data with
  | error e => simpa [Table.replace,Book.step,hck] using h
  | ok u =>
    obtain ⟨p,num,hd⟩ := exists_drawn hm h.ok.counted hme.1 hck
    have hf := hd.free (fun ha => hme.2 ha p (hd.given ha).2) ho
    have hp : Put m opt db { c with num := num } p data (Table.replace m ints opt db c data).2 := by
      rw [replace_eq hck hd]
      split_ifs with ha
      · exact hd.put_new h.ok ha
      · rcases replaceAt_spec hm h.ok.rows (h.ok.cache.withNum num) p data with hp | ⟨hn,-⟩
        · exact hp
        · exact absurd (h.readable p) hn
    simp only [Book.step,hck,h.key hd]
    exact h.put num hp (h.ok.putDrawn hd hp) hf (h.draw hd hp.num) (by simp)

lemma update (hm : m.Lawful) (hme : LiveMeets m ints opt (db,c) (.update p data))
    (ho : ∀ p, getPrimaryFromData m opt data = .ok p → sep ∉ p) :
    Mirrors m ints opt db (Table.update m opt db c p data).2 (b.step m opt (.update p data)) := by
  cases hck : checkIndex m opt data with
  | error e => simpa [Table.update,Book.step,hck] using h
  | ok u =>
    obtain ⟨hch,p',hp'⟩ := checkIndex_ok hck
    simp only [Table.update,Book.step,hck,hp']
    by_cases hpp : p' = p
    · subst hpp
      have hh := (h.shown p').held_iff h.ok.cache hme.1
      rw [if_pos rfl]
      rcases updateAt_spec hm h.ok.rows h.ok.cache p' data with ⟨hy,hpu⟩ | ⟨hn,hs⟩
      · rw [if_pos ⟨rfl,hh.mp hy⟩]
        exact h.put c.num hpu (h.ok.putHeld hpu hy hch (short_of_primary hm hp'))
          ⟨hme.1,hme.2,ho p' hp'⟩ (fun ha => by rw [countGet_of_num_eq hpu.num]; exact h.drawn ha) rfl
      · rw [hs,if_neg fun hl => hn (hh.mpr hl.2) (h.readable p')]
        exact h
    · rw [if_neg hpp,if_neg fun hl => hpp hl.1]
      exact h

lemma del (hm : m.Lawful) : Mirrors m ints opt db (Table.del m opt db c p).2 (b.step m opt (.del p)) := by
  rcases del_spec hm h.ok.rows h.ok.cache p with ⟨-,hd⟩ | ⟨hn,hs⟩
  · exact h.drop hd
  · rw [hs]
    exact h.drop_none fun hh => hn hh (h.readable p)

variable [DecidableEq D]

lemma get_saveAll (hjo : opt.join = false) (p : Bytes) : (Table.saveAll m ints opt (db,c)).1.get (opt.dataKey p) =
    (b.live p).map fun data => encodeRow p (m.encode data) := by
  rw [Table.get_saveAll h.ok.cache]
  exact (h.shown p).saveAll h.ok.cache h.revive hjo

section
variable (hm : m.Lawful) (hpl : Plain opt) (hjo : opt.join = false)
include hm hpl hjo

lemma saveAll :
    Mirrors m ints opt (Table.saveAll m ints opt (db,c)).1 (Table.saveAll m ints opt (db,c)).2 b := by
  have hc := h.ok.cache
  have hca : (Table.saveAll m ints opt (db,c)).2 = { c with rows := [], rowmap := fun _ => none } := by
    rw [saveAll_eq hc]
  have hg := h.get_saveAll hjo
  have hli : ∀ p data, Stored m opt (Table.saveAll m ints opt (db,c)).1 p data → b.live p = some data := by
    intro p data hs
    have he := (hg p).symm.trans hs.value
    obtain ⟨data',hd',he⟩ := map_eq_some_iff.mp he
    rw [hd',hm.encodeRow_inj he]
  refine ⟨h.ok.saveAll,fun ha => ?_,fun q => ?_,?_,fun p data hs name hname => ?_,fun p data hs => ?_,?_,
    fun q hq => h.plain q (used_of_saveAll hc hq)⟩
  · rw [countGet_saveAll hc]
    exact h.drawn ha
  · rw [hca]
    exact ⟨by simp,by simp [Pending],fun _ _ => hg q⟩
  · simp [hca]
  · rw [Table.get_saveAll hc]
    exact entry_saveAll hc h.revive hm h.ok.rows hpl h.plain h.entries (hli p data hs ▸ h.shown p) hname
  · have hsh := hli p data hs ▸ h.shown p
    cases hmap : c.rowmap p with
    | some i =>
      obtain ⟨row,hrow,rfl,hl⟩ := hc.mapped p i hmap
      rw [some.inj (hsh.cached i row hmap hrow)]
      exact h.filled row (mem_of_getElem? hrow) hl
    | none =>
      have hn : ¬Pending c p := fun hp => absurd (hsh.pending hmap hp) (by simp)
      exact h.readable p data (h.ok.rows.stored hm (hsh.stored hmap hn))
  · simp [hca]

lemma step {op : Op D} (hme : LiveMeets m ints opt (db,c) op) (ho : op.Plain m opt) :
    Mirrors m ints opt (Table.step m ints opt (db,c) op).1 (Table.step m ints opt (db,c) op).2 (b.step m opt op) := by
  cases op with
  | add data => exact h.add hm hme ho
  | replace data => exact h.replace hm hme ho
  | update p data => exact h.update hm hme ho
  | del p => exact h.del hm
  | save => exact h.saveAll hm hpl hjo

lemma run {ops : List (Op D)}
    (hme : AllMeet m ints opt (LiveMeets m ints opt) (db,c) ops) (ho : ∀ op ∈ ops, op.Plain m opt) :
    Mirrors m ints opt (Table.run m ints opt (db,c) ops).1 (Table.run m ints opt (db,c) ops).2 (b.run m opt ops) := by
  induction ops generalizing db c b with
  | nil => exact h
  | cons op ops ih =>
    exact ih (h.step hm hpl hjo hme.1 (ho op (by simp))) hme.2 fun op hop => ho op (by simp [hop])

end

end Mirrors

lemma Mirrors.start : Mirrors m ints opt empty (Cache.empty : Cache D) Book.empty := by
  have hn : ∀ p (data : D), ¬Stored m opt empty p data := fun p data hs => by simpa using hs.value
  refine ⟨Ok.start,fun _ => ⟨Nat.two_pow_pos 63,?_⟩,fun p => ?_,by simp [Cache.empty],fun p data hs => (hn p data hs).elim,
    fun p data hs => (hn p data hs).elim,by simp [Cache.empty],fun p hp => ?_⟩
  · simp [countGet,Cache.empty,ints.decode_nil,Book.empty]
  · exact ⟨by simp [Cache.empty],fun _ _ => rfl,fun _ _ => rfl⟩
  · rcases hp with hp | hp
    · simp at hp
    · simp [Cache.empty] at hp

/-- The database has exactly the rows, and for each of them all its entries. -/
structure HoldsLive (m : RowMeta D) (opt : Opt) (db : Store) (live : Bytes → Option D) : Prop where
  rows : ∀ p, db.get (opt.dataKey p) = (live p).map fun data => encodeRow p (m.encode data)
  entries : ∀ p data, live p = some data → ∀ name ∈ opt.index, ∃ v, m.get name data = some v ∧
    db.get (opt.indexKey name v p) = some p

variable [DecidableEq D]

/-- Behind a save the database has the rows that are live by the operations, with their last
data and with all their entries, if no row is put whose deletion is pending. -/
theorem saved_rows_are_live (hm : m.Lawful) {opt' : Opt} (hn : newTable m opt = .ok (opt',c))
    (hjo : opt.join = false) {ops : List (Op D)} (ho : ∀ op ∈ ops, op.Plain m opt')
    (hme : AllMeet m ints opt' (LiveMeets m ints opt') (empty,c) ops) :
    HoldsLive m opt' (run m ints opt' (empty,c) (ops ++ [.save])).1 (Book.empty.run m opt' ops).live := by
  obtain ⟨hpl,hjo',rfl⟩ := newTable_ok hn
  have hjo1 : opt'.join = false := hjo'.trans hjo
  have hst : Mirrors m ints opt' empty empty Book.empty := Mirrors.start
  have hrun := hst.run hm hpl hjo1 hme ho
  have hsv := hrun.saveAll hm hpl hjo1
  have hg := hrun.get_saveAll hjo1
  rw [run,foldl_append]
  refine ⟨hg,fun p data hl name hname => ?_⟩
  have hs := hsv.ok.rows.stored hm ((hg p).trans (by rw [hl,map_some]))
  exact ⟨_,hs.checked.get hname,hsv.entries p data hs name hname⟩

end Mirrors

/-- A stored row is deleted and put back before the deletion is saved. -/
def delThenReplace : List (Op (UInt8 × UInt8)) := [.add (1,5),.save,.del [1],.replace (1,5)]

lemma pair_plain {data : UInt8 × UInt8} (h : data.1 ≠ sep) :
    ∀ p, getPrimaryFromData pairMeta pairOpt data = .ok p → sep ∉ p := by
  intro p hp
  obtain rfl : [data.1] = p := Except.ok.inj hp
  simpa using h.symm

/-- The row is lost, since it is as the stored one. -/
theorem saved_row_is_lost :
    newTable pairMeta pairOpt = .ok (pairOpt,empty) ∧ (∀ op ∈ delThenReplace, op.Plain pairMeta pairOpt) ∧
      ¬HoldsLive pairMeta pairOpt
        (run pairMeta eightBytes pairOpt (empty,empty) (delThenReplace ++ [.save])).1
        (Book.empty.run pairMeta pairOpt delThenReplace).live := by
  refine ⟨rfl,?_,fun h => ?_⟩
  · simp only [delThenReplace,forall_mem_cons,not_mem_nil,false_imp_iff,implies_true,and_true]
    exact ⟨pair_plain (by decide),trivial,trivial,pair_plain (by decide)⟩
  · have hrow : (run pairMeta eightBytes pairOpt (empty,empty) (delThenReplace ++ [.save])).1.get
        (pairOpt.dataKey [1]) = none := by decide +kernel
    have hl : (Book.empty.run pairMeta pairOpt delThenReplace).live [1] = some (1,5) := by decide +kernel
    have := h.rows [1]
    rw [hrow,hl] at this
    cases this

/-- The deletion is saved before the row is put back. -/
theorem saved_rows_are_live_again :
    HoldsLive pairMeta pairOpt (run pairMeta eightBytes pairOpt (empty,empty)
        ([.add (1,5),.save,.del [1],.save,.replace (1,5)] ++ [.save])).1
      (Book.empty.run pairMeta pairOpt [.add (1,5),.save,.del [1],.save,.replace (1,5)]).live := by
  have hn : newTable pairMeta pairOpt = .ok (pairOpt,empty) := rfl
  refine saved_rows_are_live pairMeta_lawful hn rfl ?_ ?_
  · simp only [forall_mem_cons,not_mem_nil,false_imp_iff,implies_true,and_true]
    exact ⟨pair_plain (by decide),trivial,trivial,trivial,pair_plain (by decide)⟩
  · have hcn : ∀ s : Store × Cache (UInt8 × UInt8), CanCount eightBytes pairOpt s.1 s.2 := fun s h => absurd h (by decide)
    refine ⟨⟨hcn _,fun _ p _ => ⟨fun ⟨_,hrow,_⟩ => not_mem_nil hrow,by simp [pairMeta]⟩⟩,trivial,trivial,trivial,
      ⟨hcn _,fun _ p _ => ⟨fun ⟨_,hrow,_⟩ => not_mem_nil hrow,by simp [pairMeta]⟩⟩,trivial⟩

end Dpos.Table
