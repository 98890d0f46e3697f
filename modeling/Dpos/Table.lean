import Dpos.Decimal
import Dpos.ListHelper

/-! Tables of rows with indexes in one database, as in `common/db/table`: row operations
collect in a cache, and `Save` turns the cache into pairs for the database. -/
namespace Dpos.Table

open List KeyIndex

variable {D : Type}

open DB (Store KeyValue)
open KeyIndex (writeAll)

def sep : UInt8 := 45
def joinsep : UInt8 := 35
def auto : Bytes := Bytes.ofString "auto"
def primaryName : Bytes := Bytes.ofString "primary"

inductive Err
  | tooManyIndex | indexKey | primaryKey | emptyPrimaryKey | tablePrefixOrTableName | dupPrimaryKey
  | nilValue | invalidParam | notFound | decode
  /-- an error of `SetPayload` or `Get` of the meta -/
  | payload
  /-- a nil pointer, or a slice out of its range -/
  | panics
  deriving DecidableEq, Repr

inductive Ty
  | none | add | update | del
  deriving DecidableEq, Repr

structure Row (D : Type) where
  ty : Ty
  primary : Bytes
  data : D
  old : Option D

/-- `RowMeta` with the encoding of the messages. Messages are equal if `proto.Equal` holds. -/
structure RowMeta (D : Type) where
  /-- `SetPayload` has no error. -/
  accepts : D → Bool
  /-- `Get` behind `SetPayload`, `none` for an error. -/
  get : Bytes → D → Option Bytes
  encode : D → Bytes
  decode : Bytes → Option D
  /-- The payload before any is set. -/
  payload : D
  /-- The data of `CreateRow`. -/
  created : D

/-- What is known of a meta: messages are read back, and the length of a row is an `int`. -/
structure RowMeta.Lawful {D : Type} (m : RowMeta D) : Prop where
  decode_encode : ∀ d, m.decode (m.encode d) = some d
  short : ∀ key d v, m.get key d = some v → v.length+8 < 2^63

structure IntCodec where
  encode : BitVec 64 → Bytes
  decode : Bytes → Option (BitVec 64)
  decode_encode : ∀ n, decode (encode n) = some n
  decode_nil : decode [] = some 0

structure Opt where
  pre : Bytes
  name : Bytes
  primary : Bytes
  join : Bool
  index : List Bytes
  deriving DecidableEq, Repr

/-- The last `w` bytes of a number, the lowest first. -/
def littleEndian : ℕ → ℕ → Bytes
  | 0,_ => []
  | w+1,n => UInt8.ofNat n :: littleEndian w (n/256)

def encodeInt64 (p : BitVec 64) : Bytes := littleEndian 8 p.toNat

def decodeInt64 (p : Bytes) : BitVec 64 := BitVec.ofNat 64 (p.foldr (fun b n => b.toNat+256*n) 0)

def encodeRow (primary data : Bytes) : Bytes := encodeInt64 (BitVec.ofNat 64 primary.length) ++ primary ++ data

/-- `DecodeRow`, where `stop` is `int(l)+8`. -/
def decodeRow (value : Bytes) : Except Err (Bytes × Bytes) :=
  if value.length ≤ 8 then .error .decode
  else
    let stop := (decodeInt64 (value.take 8)+8).toInt
    if (value.length : ℤ) < stop then .error .decode
    else if stop < 8 then .error .panics
    else .ok ((value.take stop.toNat).drop 8,value.drop stop.toNat)

@[simp] lemma length_littleEndian (w n : ℕ) : (littleEndian w n).length = w := by
  induction w generalizing n with
  | zero => rfl
  | succ w ih => simp [littleEndian,ih]

lemma foldr_littleEndian (w n : ℕ) : (littleEndian w n).foldr (fun b n => b.toNat+256*n) 0 = n%256^w := by
  induction w generalizing n with
  | zero => simp [littleEndian,Nat.mod_one]
  | succ w ih =>
    have hm : n%256^(w+1) = n%256+256*(n/256%256^w) := by rw [pow_succ',Nat.mod_mul]
    rw [hm,littleEndian,foldr_cons,ih,UInt8.toNat_ofNat']

lemma length_encodeInt64 (p : BitVec 64) : (encodeInt64 p).length = 8 := length_littleEndian ..

lemma decodeInt64_encodeInt64 (p : BitVec 64) : decodeInt64 (encodeInt64 p) = p := by
  have hlt : p.toNat < 256^8 := p.isLt
  rw [decodeInt64,encodeInt64,foldr_littleEndian,Nat.mod_eq_of_lt hlt,BitVec.ofNat_toNat,BitVec.setWidth_eq]

lemma length_encodeRow (pr d : Bytes) : (encodeRow pr d).length = 8+pr.length+d.length := by
  simp [encodeRow,length_encodeInt64]
  omega

lemma decodeRow_encodeRow {primary data : Bytes} (hs : primary.length+8 < 2^63) (hne : primary ++ data ≠ []) :
    decodeRow (encodeRow primary data) = .ok (primary,data) := by
  have hl : ¬(encodeRow primary data).length ≤ 8 := by
    have hp := length_pos_iff.mpr hne
    rw [length_append] at hp
    rw [length_encodeRow]
    omega
  have hrow : encodeRow primary data = encodeInt64 (BitVec.ofNat 64 primary.length) ++ (primary ++ data) :=
    append_assoc ..
  have hst : (decodeInt64 ((encodeRow primary data).take 8)+8).toInt = ((primary.length+8 : ℕ) : ℤ) := by
    rw [hrow,take_left' (length_encodeInt64 _),decodeInt64_encodeInt64]
    have ha : BitVec.ofNat 64 primary.length+8 = BitVec.ofNat 64 (primary.length+8) := by
      rw [BitVec.ofNat_add]
      rfl
    rw [ha,Bytes.toInt_ofNat hs]
  have ht : (encodeRow primary data).take (primary.length+8) = encodeInt64 (BitVec.ofNat 64 primary.length) ++ primary :=
    take_left' (by rw [length_append,length_encodeInt64]; omega)
  have hd : (encodeRow primary data).drop (primary.length+8) = data :=
    drop_left' (by rw [length_append,length_encodeInt64]; omega)
  simp only [decodeRow,if_neg hl,hst,Int.toNat_natCast,ht,hd,drop_left' (length_encodeInt64 _)]
  rw [if_neg (by rw [length_encodeRow]; omega),if_neg (by omega)]

lemma decodeRow_empty : decodeRow (encodeRow [] []) = .error .decode := by decide

/-- `DecodeRow` reads back what `Encode` wrote, and a value of more than eight bytes panics
exactly if its length is negative or overflows with the eight bytes. -/
theorem decodeRow_sound_iff (primary data value : Bytes) :
    (primary ≠ [] → (encodeRow primary data).length < 2^63 → decodeRow (encodeRow primary data) = .ok (primary,data)) ∧
    (decodeRow value ≠ .error .panics ↔ value.length ≤ 8 ∨ 8 ≤ (decodeInt64 (value.take 8)+8).toInt) := by
  refine ⟨fun hp hl => ?_,?_⟩
  · rw [length_encodeRow] at hl
    exact decodeRow_encodeRow (by omega) (append_ne_nil_of_left_ne_nil hp _)
  · simp only [decodeRow]
    generalize (decodeInt64 (value.take 8)+8).toInt = stop
    split_ifs <;> simp <;> omega

/-- The length is read as -1. -/
theorem decodeRow_negative : decodeRow (replicate 8 255 ++ [0]) = .error .panics := by decide

namespace Opt
variable (opt : Opt)

def dataPrefix : Bytes := opt.pre ++ [sep] ++ opt.name ++ [sep,100,sep]

def metaPrefix : Bytes := opt.pre ++ [sep] ++ opt.name ++ [sep,109,sep]

def countKey : Bytes := opt.pre ++ [sep] ++ (opt.name ++ [sep] ++ Bytes.ofString "autoinc" ++ [sep])

def dataKey (primary : Bytes) : Bytes := opt.dataPrefix ++ primary

def indexPrefix (name : Bytes) : Bytes := opt.metaPrefix ++ (name ++ [sep])

def indexKey (name index primary : Bytes) : Bytes := opt.indexPrefix name ++ index ++ [sep] ++ primary

end Opt

def pad (i : BitVec 64) : Bytes := Bytes.decimal 20 i.toInt

/-- `rows`, `rowmap` and the number of the counter. The map has the place of a row that it
shares with `rows`. -/
structure Cache (D : Type) where
  rows : List (Row D)
  rowmap : Bytes → Option ℕ
  num : BitVec 64

/-- `math.MinInt64`, for a counter that is not read. -/
def unread : BitVec 64 := BitVec.intMin 64

namespace Cache
variable (c : Cache D)

def empty : Cache D := ⟨[],fun _ => none,unread⟩

def addRowCache (row : Row D) : Cache D :=
  { c with
    rowmap := match row.ty with
      | .del => Function.update c.rowmap row.primary none
      | .add => Function.update c.rowmap row.primary (some c.rows.length)
      | .update => Function.update c.rowmap row.primary (some c.rows.length)
      | .none => c.rowmap
    rows := c.rows ++ [row] }

def delRowCache (i : ℕ) (row : Row D) : Cache D :=
  { c with
    rows := c.rows.modify i fun row => { row with ty := .none }
    rowmap := Function.update c.rowmap row.primary none }

def setData (i : ℕ) (data : D) : Cache D :=
  { c with rows := c.rows.modify i fun row => { row with data := data } }

def cached (primary : Bytes) : Option (ℕ × Row D) :=
  (c.rowmap primary).bind fun i => c.rows[i]?.map fun row => (i,row)

end Cache

section
variable (m : RowMeta D) (ints : IntCodec) (opt : Opt) (db : Store) (c : Cache D)

def getPrimaryKey (primary : Bytes) (data : D) : Except Err Bytes :=
  if primary = [] then .error .emptyPrimaryKey
  else if sep ∈ primary then .error .primaryKey
  else if primary ≠ auto then
    match m.get primary data with
    | none => .error .payload
    | some key => .ok key
  else .ok []

/-- `NewTable`: the option with its default, and the table without rows. -/
def newTable : Except Err (Opt × Cache D) :=
  if 16 < opt.index.length then .error .tooManyIndex
  else if ∃ index ∈ opt.index, sep ∈ index ∨ index = primaryName ∨ (opt.join = false ∧ joinsep ∈ index) then
    .error .indexKey
  else
    let opt := if opt.primary = [] then { opt with primary := auto } else opt
    match getPrimaryKey m opt.primary m.payload with
    | .error e => .error e
    | .ok _ =>
      if sep ∈ opt.name ∨ (opt.join = false ∧ joinsep ∈ opt.name) then .error .tablePrefixOrTableName
      else .ok (opt,Cache.empty)

def checkIndex (data : D) : Except Err Unit :=
  if m.accepts data then
    match getPrimaryKey m opt.primary data with
    | .error e => .error e
    | .ok _ => if ∀ index ∈ opt.index, (m.get index data).isSome then .ok () else .error .payload
  else .error .payload

def countGet : Except Err (BitVec 64) :=
  if c.num = unread then
    match ints.decode ((db.get opt.countKey).getD []) with
    | none => .error .decode
    | some num => .ok num
  else .ok c.num

/-- `Inc`, which leaves 0 behind if the counter cannot be read. -/
def inc : Except Err (BitVec 64) × Cache D :=
  match countGet ints opt db c with
  | .error e => (.error e,{ c with num := 0 })
  | .ok num => (.ok (num+1),{ c with num := num+1 })

def getPrimaryFromData (data : D) : Except Err Bytes :=
  if m.accepts data then getPrimaryKey m opt.primary data else .error .payload

def primaryKey (data : D) : Except Err Bytes × Cache D :=
  if opt.primary = auto then ((inc ints opt db c).1.map pad,(inc ints opt db c).2)
  else (getPrimaryFromData m opt data,c)

def getRow (value : Bytes) : Except Err (Row D) :=
  match decodeRow value with
  | .error e => .error e
  | .ok (primary,data) =>
    match m.decode data with
    | none => .error .decode
    | some data => .ok ⟨.none,primary,data,none⟩

def getData (primary : Bytes) : Except Err (Row D) :=
  match db.get (opt.dataKey primary) with
  | none => .error .notFound
  | some value => getRow m value

/-- `findRow`, with the place of a row of the cache. -/
def findRow (primary : Bytes) : Except Err (Row D × Option ℕ) :=
  match c.cached primary with
  | some (i,row) => .ok (row,some i)
  | none => (getData m opt db primary).map fun row => (row,none)

/-- The end of `Replace`. An error other than a missing row leaves a nil row, which is read. -/
def replaceAt (primary : Bytes) (data : D) : Except Err Unit × Cache D :=
  match findRow m opt db c primary with
  | .error .notFound => (.ok (),c.addRowCache ⟨.add,primary,data,none⟩)
  | .error _ => (.error .panics,c)
  | .ok (_,some i) => (.ok (),c.setData i data)
  | .ok (row,none) => (.ok (),c.addRowCache ⟨.update,primary,data,some row.data⟩)

def replace (data : D) : Except Err Unit × Cache D :=
  match checkIndex m opt data with
  | .error e => (.error e,c)
  | .ok _ =>
    match primaryKey m ints opt db c data with
    | (.error e,c) => (.error e,c)
    | (.ok primary,c) =>
      if opt.primary = auto then (.ok (),c.addRowCache ⟨.add,primary,data,none⟩)
      else replaceAt m opt db c primary data

def addAt (primary : Bytes) (data : D) : Except Err Unit × Cache D :=
  match findRow m opt db c primary with
  | .error .notFound => (.ok (),c.addRowCache ⟨.add,primary,data,none⟩)
  | _ => (.error .dupPrimaryKey,c)

def add (data : D) : Except Err Unit × Cache D :=
  match checkIndex m opt data with
  | .error e => (.error e,c)
  | .ok _ =>
    match primaryKey m ints opt db c data with
    | (.error e,c) => (.error e,c)
    | (.ok primary,c) => addAt m opt db c primary data

def updateAt (primary : Bytes) (data : D) : Except Err Unit × Cache D :=
  match findRow m opt db c primary with
  | .error e => (.error e,c)
  | .ok (_,some i) => (.ok (),c.setData i data)
  | .ok (row,none) => (.ok (),c.addRowCache ⟨.update,primary,data,some row.data⟩)

def update (primary : Bytes) (data : D) : Except Err Unit × Cache D :=
  match checkIndex m opt data with
  | .error e => (.error e,c)
  | .ok _ =>
    match getPrimaryFromData m opt data with
    | .error e => (.error e,c)
    | .ok p1 => if p1 = primary then updateAt m opt db c primary data else (.error .invalidParam,c)

def del (primary : Bytes) : Except Err Unit × Cache D :=
  match findRow m opt db c primary with
  | .error e => (.error e,c)
  | .ok (row,some i) =>
    if row.ty = .add then (.ok (),c.delRowCache i row)
    else (.ok (),(c.delRowCache i row).addRowCache { row with ty := .del })
  | .ok (row,none) => (.ok (),c.addRowCache { row with ty := .del })

end

/-- A pair takes the place of the one with its key. -/
def putKV (done : List KeyValue) (kv : KeyValue) : List KeyValue :=
  if kv.1 ∈ done.map Prod.fst then done.map fun old => if old.1 = kv.1 then kv else old
  else done ++ [kv]

def delDupKey (kvs : List KeyValue) : List KeyValue := kvs.foldl putKV []

section
variable [DecidableEq D] (m : RowMeta D) (ints : IntCodec) (opt : Opt) (c : Cache D)

def index (name : Bytes) (data : D) : Except Err Bytes :=
  if m.accepts data then
    match m.get name data with
    | none => .error .payload
    | some v => .ok v
  else .error .payload

/-- The pairs of a row's data, which only a table that is no join has. -/
def dataKVs (primary : Bytes) (value : Option Bytes) : List KeyValue :=
  if opt.join then [] else [(opt.dataKey primary,value)]

def delRow (row : Row D) : Except Err (List KeyValue) :=
  (opt.index.mapM fun name => (index m name row.data).map fun v =>
    ((opt.indexKey name v row.primary,none) : KeyValue)).map (dataKVs opt row.primary none ++ ·)

def addRow (row : Row D) : Except Err (List KeyValue) :=
  (opt.index.mapM fun name => (index m name row.data).map fun v =>
    ((opt.indexKey name v row.primary,some row.primary) : KeyValue)).map
      (dataKVs opt row.primary (some (encodeRow row.primary (m.encode row.data))) ++ ·)

/-- `getModify`: the value of the index and the one before, if they differ. -/
def getModify (data : D) (old : Option D) (name : Bytes) : Except Err (Option (Bytes × Bytes)) :=
  match old with
  | none => .error .nilValue
  | some old => (index m name data).bind fun v => (index m name old).map fun v' =>
    if v = v' then none else some (v,v')

def updateRow (row : Row D) : Except Err (List KeyValue) :=
  if some row.data = row.old then .ok []
  else (opt.index.mapM fun name => (getModify m row.data row.old name).map fun modified =>
    match modified with
    | none => []
    | some (v,v') => [((opt.indexKey name v' row.primary,none) : KeyValue),
        (opt.indexKey name v row.primary,some row.primary)]).map fun kvs =>
      dataKVs opt row.primary (some (encodeRow row.primary (m.encode row.data))) ++ kvs.flatten

def saveRow (row : Row D) : Except Err (List KeyValue) :=
  match row.ty with
  | .del => delRow m opt row
  | .add => addRow m opt row
  | .update => updateRow m opt row
  | .none => .ok []

def countSave : List KeyValue := if c.num = unread then [] else [(opt.countKey,some (ints.encode c.num))]

def save : Except Err (List KeyValue) × Cache D :=
  match c.rows.mapM (saveRow m opt) with
  | .error e => (.error e,c)
  | .ok kvs => (.ok (delDupKey (kvs.flatten ++ countSave ints opt c)),{ c with rows := [], rowmap := fun _ => none })

end

section
variable {x x' y y' : Bytes} {s : UInt8}

lemma split_first (hx : s ∉ x) (hx' : s ∉ x') (h : x ++ s :: y = x' ++ s :: y') : x = x' ∧ y = y' := by
  induction x generalizing x' with
  | nil =>
    cases x' with
    | nil => exact ⟨rfl,(cons.inj h).2⟩
    | cons b x' => exact absurd (by simp [(cons.inj h).1]) hx'
  | cons a x ih =>
    cases x' with
    | nil => exact absurd (by simp [(cons.inj h).1]) hx
    | cons b x' =>
      obtain ⟨rfl,hr⟩ := cons.inj h
      obtain ⟨rfl,rfl⟩ := ih (fun hs => hx (mem_cons_of_mem _ hs)) (fun hs => hx' (mem_cons_of_mem _ hs)) hr
      exact ⟨rfl,rfl⟩

lemma split_last (hy : s ∉ y) (hy' : s ∉ y') (h : x ++ s :: y = x' ++ s :: y') : x = x' ∧ y = y' := by
  have hr := congrArg reverse h
  simp only [reverse_append,reverse_cons,append_assoc,singleton_append] at hr
  obtain ⟨hy,hx⟩ := split_first (by simpa using hy) (by simpa using hy') hr
  exact ⟨reverse_inj.mp hx,reverse_inj.mp hy⟩

namespace Opt
variable (opt : Opt) {name name' v v' p p' : Bytes}

def stem : Bytes := opt.pre ++ [sep] ++ opt.name ++ [sep]

lemma dataKey_eq : opt.dataKey p = opt.stem ++ 100 :: sep :: p := by simp [dataKey,dataPrefix,stem]

lemma indexPrefix_eq : opt.indexPrefix name = opt.stem ++ 109 :: sep :: (name ++ [sep]) := by
  simp [indexPrefix,metaPrefix,stem]

lemma indexKey_eq : opt.indexKey name v p = opt.stem ++ 109 :: sep :: (name ++ sep :: (v ++ sep :: p)) := by
  simp [indexKey,indexPrefix_eq]

lemma countKey_eq : opt.countKey = opt.stem ++ 97 :: (Bytes.ofString "utoinc" ++ [sep]) := by
  simp [countKey,stem,Bytes.ofString,Bytes.ofChars]

variable {opt}

@[simp] lemma dataKey_inj : opt.dataKey p = opt.dataKey p' ↔ p = p' := append_right_inj _

lemma dataKey_ne_indexKey : opt.dataKey p ≠ opt.indexKey name v p' := by
  rw [dataKey_eq,indexKey_eq]
  intro h
  exact absurd (cons.inj (append_cancel_left h)).1 (by decide)

lemma dataKey_ne_countKey : opt.dataKey p ≠ opt.countKey := by
  rw [dataKey_eq,countKey_eq]
  intro h
  exact absurd (cons.inj (append_cancel_left h)).1 (by decide)

lemma indexKey_ne_countKey : opt.indexKey name v p ≠ opt.countKey := by
  rw [indexKey_eq,countKey_eq]
  intro h
  exact absurd (cons.inj (append_cancel_left h)).1 (by decide)

lemma name_eq_of_indexPrefix (hname : sep ∉ name) (hname' : sep ∉ name')
    (h : opt.indexPrefix name <+: opt.indexKey name' v p) : name = name' := by
  obtain ⟨rest,h⟩ := h
  rw [indexPrefix_eq,indexKey_eq,append_assoc] at h
  have hr : name ++ [sep] ++ rest = name' ++ sep :: (v ++ sep :: p) :=
    (cons.inj (cons.inj (append_cancel_left h)).2).2
  rw [append_assoc] at hr
  exact (split_first hname hname' hr).1

lemma indexPrefix_indexKey : opt.indexPrefix name <+: opt.indexKey name v p :=
  ⟨v ++ [sep] ++ p,by simp [indexKey]⟩

lemma indexKey_inj (hname : sep ∉ name) (hname' : sep ∉ name') (hp : sep ∉ p) (hp' : sep ∉ p')
    (h : opt.indexKey name v p = opt.indexKey name' v' p') : name = name' ∧ v = v' ∧ p = p' := by
  rw [indexKey_eq,indexKey_eq] at h
  obtain ⟨hn,h⟩ := split_first hname hname' (cons.inj (cons.inj (append_cancel_left h)).2).2
  exact ⟨hn,split_last hp hp' h⟩

end Opt

end

section
variable {done : List KeyValue} {kv : KeyValue}

lemma map_fst_replace : (done.map fun old => if old.1 = kv.1 then kv else old).map Prod.fst = done.map Prod.fst := by
  rw [map_map]
  refine map_congr_left fun old _ => ?_
  by_cases h : old.1 = kv.1
  · simp [h]
  · simp [h]

lemma nodup_putKV (h : (done.map Prod.fst).Nodup) : ((putKV done kv).map Prod.fst).Nodup := by
  unfold putKV
  split_ifs with hm
  · rw [map_fst_replace]
    exact h
  · rw [map_append,map_singleton]
    exact List.Nodup.append h (nodup_singleton _) (by simpa using hm)

lemma writeAll_putKV (h : (done.map Prod.fst).Nodup) (db : Bytes → Option Bytes) :
    writeAll db (putKV done kv) = write (writeAll db done) kv := by
  unfold putKV
  split_ifs with hm
  · have hn : ((done.map fun old => if old.1 = kv.1 then kv else old).map Prod.fst).Nodup := by
      rw [map_fst_replace]
      exact h
    funext k
    by_cases hk : k = kv.1
    · obtain ⟨old,hold,hke⟩ := mem_map.mp hm
      have hi : (kv.1,kv.2) ∈ done.map fun old => if old.1 = kv.1 then kv else old :=
        mem_map.mpr ⟨old,hold,by simp [hke]⟩
      rw [hk,writeAll_of_mem hn hi]
      simp [write]
    · have hw : write (writeAll db done) kv k = writeAll db done k := Function.update_of_ne hk ..
      rw [hw]
      rcases writeAll_cases db done k with ⟨hno,he⟩ | hi
      · rw [he,writeAll_of_not_mem]
        rw [map_fst_replace]
        rintro hke
        obtain ⟨⟨k',v⟩,hv,rfl⟩ := mem_map.mp hke
        exact hno v hv
      · exact writeAll_of_mem hn (mem_map.mpr ⟨_,hi,by simp [hk]⟩)
  · rw [writeAll_append]
    rfl

lemma writeAll_delDupKey (db : Bytes → Option Bytes) (kvs : List KeyValue) :
    writeAll db (delDupKey kvs) = writeAll db kvs := by
  suffices h : ∀ (done : List KeyValue), (done.map Prod.fst).Nodup →
      writeAll db (kvs.foldl putKV done) = writeAll (writeAll db done) kvs from h [] nodup_nil
  induction kvs with
  | nil => exact fun done _ => rfl
  | cons kv kvs ih =>
    intro done hd
    rw [foldl_cons,ih _ (nodup_putKV hd),writeAll_putKV hd]
    rfl

end

end Dpos.Table
