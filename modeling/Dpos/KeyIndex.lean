import Mathlib.Tactic
import Mathlib.Order.CompletePartialOrder

/-! Tables that are changed by batches of writes, where a write without a value
deletes its key, and tables that hold a key for each item of a list. -/
namespace Dpos.KeyIndex
open List

variable {K V I : Type} [DecidableEq K]

def write (db : K → Option V) (w : K × Option V) : K → Option V := Function.update db w.1 w.2

def writeAll (db : K → Option V) (ws : List (K × Option V)) : K → Option V := ws.foldl write db

lemma writeAll_cases (db : K → Option V) (ws : List (K × Option V)) (k : K) :
    ((∀ v, (k,v) ∉ ws) ∧ writeAll db ws k = db k) ∨ (k,writeAll db ws k) ∈ ws := by
  induction ws generalizing db with
  | nil => simp [writeAll]
  | cons w ws ih =>
    obtain ⟨k',v'⟩ := w
    have hc : writeAll db ((k',v') :: ws) = writeAll (write db (k',v')) ws := rfl
    rw [hc]
    rcases ih (write db (k',v')) with ⟨hn,he⟩ | hm
    · by_cases hk : k = k'
      · subst hk
        right
        rw [he]
        simp [write]
      · left
        refine ⟨fun v hv => ?_,by rw [he]; simp [write,hk]⟩
        rcases mem_cons.mp hv with hv | hv
        · exact hk (Prod.ext_iff.mp hv).1
        · exact hn v hv
    · exact .inr (mem_cons_of_mem _ hm)

variable {db : K → Option V} {ws : List (K × Option V)} {k : K} {v : Option V} {top : K → Option V} {ws' : List (K × Option V)} {P : Option V → Prop}

lemma writeAll_of_not_mem (h : k ∉ ws.map Prod.fst) : writeAll db ws k = db k := by
  rcases writeAll_cases db ws k with ⟨-,he⟩ | hm
  · exact he
  · exact absurd (mem_map.mpr ⟨_,hm,rfl⟩) h

lemma writeAll_cons_self (h : k ∉ ws.map Prod.fst) : writeAll db ((k,v) :: ws) k = v :=
  (writeAll_of_not_mem h).trans (Function.update_self ..)

lemma writeAll_append (db : K → Option V) (ws ws' : List (K × Option V)) :
    writeAll db (ws ++ ws') = writeAll (writeAll db ws) ws' := foldl_append

lemma writeAll_of_mem (hn : (ws.map Prod.fst).Nodup) (h : (k,v) ∈ ws) : writeAll db ws k = v := by
  rcases writeAll_cases db ws k with ⟨hno,-⟩ | hm
  · exact absurd h (hno v)
  · exact congrArg Prod.snd (inj_on_of_nodup_map hn hm h rfl)

lemma writeAll_congr {db' : K → Option V}
    (h : db k = db' k ∨ ∃ v, (k,v) ∈ ws) : writeAll db ws k = writeAll db' ws k := by
  induction ws generalizing db db' with
  | nil => simpa [writeAll] using h
  | cons w ws ih =>
    apply ih
    by_cases hk : k = w.1
    · left
      simp [write,hk]
    · rcases h with h | ⟨v,hv⟩
      · left
        simp [write,hk,h]
      · right
        rcases mem_cons.mp hv with hv | hv
        · exact absurd (congrArg Prod.fst hv) hk
        · exact ⟨v,hv⟩

/-- Under distinct names for the keys, the batch does the same to the named table. -/
theorem writeAll_rename {L : Type} [DecidableEq L] {f : K → L} (hf : Function.Injective f)
    (db : L → Option V) (ws : List (K × Option V)) (k : K) :
    writeAll db (ws.map (Prod.map f id)) (f k) = writeAll (db ∘ f) ws k := by
  induction ws generalizing db with
  | nil => rfl
  | cons w ws ih =>
    have hwr : write db (f w.1,w.2) ∘ f = write (db ∘ f) w := Function.update_comp_eq_of_injective db hf w.1 w.2
    have hc : writeAll db ((w :: ws).map (Prod.map f id)) =
      writeAll (write db (f w.1,w.2)) (ws.map (Prod.map f id)) := rfl
    rw [hc,ih,hwr]
    rfl

/-- The table `top` laid over the table `db`. -/
def overlay (top db : K → Option V) : K → Option V := fun k => (top k).or (db k)

omit [DecidableEq K] in
@[simp] lemma overlay_empty (db : K → Option V) : overlay (fun _ => none) db = db := rfl

omit [DecidableEq K] in
lemma overlay_assoc (a b c : K → Option V) : overlay (overlay a b) c = overlay a (overlay b c) := by
  funext k
  exact Option.or_assoc

lemma overlay_write_some (top db : K → Option V) (k : K) (v : V) :
    overlay (write top (k,some v)) db = write (overlay top db) (k,some v) := by
  funext k'
  by_cases h : k' = k
  · subst h
    simp [overlay,write]
  · simp [overlay,write,h]

lemma overlay_writeAll_some (h : ∀ w ∈ ws, w.2.isSome)
    (top db : K → Option V) : overlay (writeAll top ws) db = writeAll (overlay top db) ws := by
  induction ws generalizing top with
  | nil => rfl
  | cons w ws ih =>
    obtain ⟨v,hv⟩ := Option.isSome_iff_exists.mp (h w mem_cons_self)
    have hw : w = (w.1,some v) := Prod.ext rfl hv
    calc overlay (writeAll (write top w) ws) db = writeAll (overlay (write top w) db) ws :=
          ih (fun w' hw' => h w' (mem_cons_of_mem _ hw')) _
      _ = writeAll (write (overlay top db) w) ws := by rw [hw,overlay_write_some]

lemma overlay_write_eq_iff {w : K × Option V} :
    overlay (write top w) db = write (overlay top db) w ↔ (w.2 = none → db w.1 = none) := by
  obtain ⟨k,_ | v⟩ := w
  · refine ⟨fun h _ => by simpa [overlay,write] using congrFun h k,fun h => funext fun k' => ?_⟩
    by_cases hk : k' = k
    · subst hk
      simpa [overlay,write] using h
    · simp [overlay,write,hk]
  · simpa using overlay_write_some top db k v

omit [DecidableEq K] in
lemma overlay_eq_right_iff : overlay top db = db ↔ ∀ k v, top k = some v → db k = some v := by
  refine ⟨fun h k v hv => ?_,fun h => funext fun k => ?_⟩
  · rw [← h,overlay,hv,Option.some_or]
  · unfold overlay
    cases hv : top k with
    | none => rfl
    | some v => exact (h k v hv).symm

lemma overlay_writeAll_of_held (h : ∀ k v, (k,v) ∈ ws → v.isSome ∧ db k = v) :
    overlay (writeAll (fun _ => none) (ws ++ ws')) db = overlay (writeAll (fun _ => none) ws') db := by
  funext k
  rw [writeAll_append]
  rcases writeAll_cases (fun _ => none) ws k with ⟨-,he⟩ | hm
  · have hsa : writeAll (writeAll (fun _ => none) ws) ws' k = writeAll (fun _ => none) ws' k :=
      writeAll_congr (.inl he)
    simp only [overlay,hsa]
  · obtain ⟨hs,hdb⟩ := h k _ hm
    rcases writeAll_cases (writeAll (fun _ => none) ws) ws' k with ⟨hn,he⟩ | hm'
    · rcases writeAll_cases (V := V) (fun _ => none) ws' k with ⟨-,he'⟩ | hm'
      · simp only [overlay,he,he',hdb,Option.none_or,Option.or_self]
      · exact absurd hm' (hn _)
    · have hsa : writeAll (writeAll (fun _ => none) ws) ws' k = writeAll (fun _ => none) ws' k :=
        writeAll_congr (.inr ⟨_,hm'⟩)
      simp only [overlay,hsa]

variable (dom : Set K) (keys : I → Set K)

/-- Within `dom` the table holds exactly the keys of the items. -/
def Indexes (items : List I) (db : K → Option V) : Prop := ∀ k ∈ dom, ((db k).isSome ↔ ∃ i ∈ items, k ∈ keys i)

/-- Within `dom` the batch names exactly the keys of the items, with values in `P`. -/
structure Covers (items : List I) (P : Option V → Prop) (ws : List (K × Option V)) : Prop where
  named : ∀ k ∈ dom, ((∃ v, (k,v) ∈ ws) ↔ ∃ i ∈ items, k ∈ keys i)
  values : ∀ k ∈ dom, ∀ v, (k,v) ∈ ws → P v

variable {dom keys} {its new g : List I} {db : K → Option V} {ws : List (K × Option V)}

lemma Indexes.insert (h : Indexes dom keys its db) (hw : Covers dom keys new (fun v => v.isSome) ws) :
    Indexes dom keys (new ++ its) (writeAll db ws) := by
  intro k hk
  have hsp : (∃ i ∈ new ++ its, k ∈ keys i) ↔ (∃ v, (k,v) ∈ ws) ∨ (db k).isSome := by
    rw [hw.named k hk,h k hk]
    simp only [mem_append,or_and_right,exists_or]
  rw [hsp]
  rcases writeAll_cases db ws k with ⟨hn,he⟩ | hm
  · simp [he,hn]
  · have hs := hw.values k hk _ hm
    exact ⟨fun _ => .inl ⟨_,hm⟩,fun _ => hs⟩

section
variable (h : Indexes dom keys (g ++ its) db) (hw : Covers dom keys g (· = none) ws)
include h hw

/-- A batch of deletions takes its keys from all items, not only from those it is for. -/
theorem Indexes.erase (hk : k ∈ dom) :
    (writeAll db ws k).isSome ↔ (∃ i ∈ its, k ∈ keys i) ∧ ∀ i ∈ g, k ∉ keys i := by
  rcases writeAll_cases db ws k with ⟨hno,he⟩ | hm
  · have hgone : ∀ i ∈ g, k ∉ keys i := by
      intro i hi hki
      obtain ⟨v,hv⟩ := (hw.named k hk).mpr ⟨i,hi,hki⟩
      exact hno v hv
    rw [he,h k hk]
    constructor
    · rintro ⟨i,hi,hki⟩
      rcases mem_append.mp hi with hi | hi
      · exact absurd hki (hgone i hi)
      · exact ⟨⟨i,hi,hki⟩,hgone⟩
    · rintro ⟨⟨i,hi,hki⟩,-⟩
      exact ⟨i,mem_append_right _ hi,hki⟩
  · obtain ⟨i,hi,hki⟩ := (hw.named k hk).mp ⟨_,hm⟩
    rw [hw.values k hk _ hm]
    simp only [Option.isSome_none,Bool.false_eq_true,false_iff,not_and,not_forall]
    exact fun _ => ⟨i,hi,fun hn => hn hki⟩

lemma Indexes.erase_apart
     (ha : ∀ i ∈ g, ∀ j ∈ its, Disjoint (keys i) (keys j)) : Indexes dom keys its (writeAll db ws) := by
  intro k hk
  rw [h.erase hw hk,and_iff_left_iff_imp]
  rintro ⟨j,hj,hkj⟩ i hi hki
  exact Set.disjoint_left.mp (ha i hi j hj) hki hkj

end

omit [DecidableEq K] in
lemma Covers.append {its' : List I} (hw : Covers dom keys its P ws) (hw' : Covers dom keys its' P ws') :
    Covers dom keys (its ++ its') P (ws ++ ws') := by
  refine ⟨fun k hk => ?_,fun k hk v hv => ?_⟩
  · simp only [mem_append,or_and_right,exists_or,hw.named k hk,hw'.named k hk]
  · rcases mem_append.mp hv with hv | hv
    · exact hw.values k hk v hv
    · exact hw'.values k hk v hv

omit [DecidableEq K] in
lemma Covers.of_outside (ho : ∀ w ∈ ws, w.1 ∉ dom) : Covers dom keys [] P ws := by
  refine ⟨fun k hk => ?_,fun k hk v hv => absurd hk (ho _ hv)⟩
  simp only [not_mem_nil,false_and,exists_false,iff_false,not_exists]
  exact fun v hv => ho _ hv hk

end Dpos.KeyIndex
