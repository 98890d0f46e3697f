import Dpos.Word
import Mathlib.Data.Finset.Card
import Mathlib.Order.Bounds.Basic

/-! The task of `task.go` that waits for the blocks of a range of heights, in whatever order they
come. -/
namespace Dpos
open List

structure Task where
  start : ℤ
  endHeight : ℤ
  isruning : Bool
  /-- Whether there is a callback. -/
  cb : Bool
  donelist : Finset ℤ
  /-- How often the callback of the task was run. -/
  calls : ℕ

namespace Task
open Word

inductive StartErr
  | running | startBigThanEnd

def startTask (t : Task) (start endHeight : ℤ) (cb : Bool) : Except StartErr Task :=
  if t.isruning then .error .running
  else if endHeight < start then .error .startBigThanEnd
  else .ok ⟨start,endHeight,true,cb,∅,0⟩

def stop (t : Task) (runcb : Bool) : Option Task :=
  if t.isruning then some { t with isruning := false, calls := t.calls+(t.cb && runcb).toNat } else none

/-- The loop of `done`, where `i` and `t.start` go up together. -/
def advance (endHeight start : ℤ) (donelist : Finset ℤ) : ℤ × Finset ℤ :=
  if h : start ≤ endHeight ∧ start ∈ donelist then advance endHeight (wrap 64 (start+1)) (donelist.erase start)
  else (start,donelist)
  termination_by donelist.card
  decreasing_by exact Finset.card_erase_lt_of_mem h.2

def mark (t : Task) (height : ℤ) : Task :=
  let t :=
    if height = t.start then
      let w := advance t.endHeight (wrap 64 (t.start+1)) t.donelist
      let t := { t with start := w.1, donelist := w.2 }
      if t.endHeight < t.start then (stop t true).getD t else t
    else t
  { t with donelist := insert height t.donelist }

def done (t : Task) (height : ℤ) : Task :=
  if t.isruning ∧ t.start ≤ height ∧ height ≤ t.endHeight then mark t height else t

/-- What the task for `s` to `e` shows after some reports: it waits for the smallest height that is not
among them, or it has stopped and has run its callback once. -/
def Tracks (s e : ℤ) (cb : Bool) (hs : List ℤ) (t : Task) : Prop :=
  if ∀ h, s ≤ h → h ≤ e → h ∈ hs then t.isruning = false ∧ t.calls = cb.toNat
  else t.isruning = true ∧ t.calls = 0 ∧ IsLeast {h | s ≤ h ∧ h ≤ e ∧ h ∉ hs} t.start

/-- The loop stops in front of a height that it does not pass. -/
theorem advance_spec {e s u : ℤ} {d : Finset ℤ} (hs : InRange 64 s) (hu : InRange 64 u) (hsu : s ≤ u)
    (hd : u ∈ d → e < u) {w : ℤ × Finset ℤ} (hw : advance e s d = w) :
    s ≤ w.1 ∧ w.1 ≤ u ∧ (∀ h, s ≤ h → h < w.1 → h ∈ d ∧ h ≤ e) ∧ (w.1 ∈ d → e < w.1) ∧
      ∀ h, w.1 ≤ h → (h ∈ w.2 ↔ h ∈ d) := by
  induction d using Finset.strongInduction generalizing s with
  | H d ih =>
  rw [advance] at hw
  split_ifs at hw with h
  · have hlt : s < u := by
      rcases hsu.lt_or_eq with hl | rfl
      · exact hl
      · exact absurd (hd h.2) (by omega)
    have hr : InRange 64 (s+1) := by
      unfold InRange at *
      omega
    rw [wrap_eq_self hr] at hw
    obtain ⟨h1,h2,h3,h4,h5⟩ := ih _ (Finset.erase_ssubset h.2) hr (by omega)
      (fun hm => hd (Finset.mem_of_mem_erase hm)) hw
    refine ⟨by omega,h2,fun k hk hk' => ?_,fun hm => h4 (Finset.mem_erase.mpr ⟨by omega,hm⟩),fun k hk => ?_⟩
    · rcases hk.eq_or_lt with rfl | hl
      · exact ⟨h.2,h.1⟩
      · exact (h3 k (by omega) hk').imp_left Finset.mem_of_mem_erase
    · rw [h5 k hk,Finset.mem_erase]
      exact ⟨And.right,fun hm => ⟨by omega,hm⟩⟩
  · subst hw
    exact ⟨le_rfl,hsu,fun k hk hk' => absurd hk' hk.not_gt,fun hm => not_le.mp fun hl => h ⟨hl,hm⟩,fun _ _ => Iff.rfl⟩

/-- A task that still waits, with the reports that came so far. -/
structure Waits (s e : ℤ) (cb : Bool) (hs : List ℤ) (t : Task) : Prop where
  runs : t.isruning = true
  fin : t.endHeight = e
  callback : t.cb = cb
  calls : t.calls = 0
  inRange : InRange 64 t.start
  least : IsLeast {h | s ≤ h ∧ h ≤ e ∧ h ∉ hs} t.start
  parked : ∀ h, t.start < h → h ≤ e → (h ∈ t.donelist ↔ h ∈ hs)

structure Finished (s e : ℤ) (cb : Bool) (hs : List ℤ) (t : Task) : Prop where
  all : ∀ h, s ≤ h → h ≤ e → h ∈ hs
  stopped : t.isruning = false
  calls : t.calls = cb.toNat

section
variable {s e : ℤ} {cb : Bool} {hs : List ℤ} {t : Task}

lemma Waits.other (hw : Waits s e cb hs t) {h : ℤ} (hne : t.start ≠ h) {d : Finset ℤ}
    (hd : ∀ k, t.start < k → k ≤ e → (k ∈ d ↔ k ∈ t.donelist ∨ k = h)) :
    Waits s e cb (hs ++ [h]) { t with donelist := d } where
  runs := hw.runs
  fin := hw.fin
  callback := hw.callback
  calls := hw.calls
  inRange := hw.inRange
  least := ⟨⟨hw.least.1.1,hw.least.1.2.1,by simp [hw.least.1.2.2,hne]⟩,
    fun k hk => hw.least.2 ⟨hk.1,hk.2.1,fun hm => hk.2.2 (mem_append_left _ hm)⟩⟩
  parked k hk hk' := by simp [hd k hk hk',hw.parked k hk hk']

lemma Waits.next (hw : Waits s e cb hs t) (he : InRange 64 (e+1)) :
    Waits s e cb (hs ++ [t.start]) (mark t t.start) ∨ Finished s e cb (hs ++ [t.start]) (mark t t.start) := by
  obtain ⟨⟨hs1,hs2,hs3⟩,hlow⟩ := hw.least
  have hr : InRange 64 (t.start+1) := by
    have := hw.inRange
    unfold InRange at *
    omega
  obtain ⟨h1,h2,h3,h4,h5⟩ := advance_spec hr he (by omega) (fun _ => by omega) (rfl : advance e _ t.donelist = _)
  rw [mark,if_pos rfl,hw.fin,wrap_eq_self hr]
  generalize advance e (t.start+1) t.donelist = w at *
  -- what is below the new start was reported
  have hbelow : ∀ k, s ≤ k → k ≤ e → k < w.1 → k ∈ hs ++ [t.start] := by
    intro k hk hk' hl
    by_contra hc
    rw [mem_append,mem_singleton,not_or] at hc
    have := hlow ⟨hk,hk',hc.1⟩
    exact hc.1 ((hw.parked k (by omega) hk').mp (h3 k (by omega) hl).1)
  dsimp only
  split_ifs with hend
  · exact .inr ⟨fun k hk hk' => hbelow k hk hk' (by omega),by simp [stop,hw.runs],by simp [stop,hw.runs,hw.calls,hw.callback]⟩
  · refine .inl ⟨hw.runs,rfl,hw.callback,hw.calls,?_,⟨⟨?_,not_lt.mp hend,?_⟩,?_⟩,fun k (hk : w.1 < k) hk' => ?_⟩
    · have := hw.inRange
      unfold InRange at *
      dsimp only
      omega
    · exact hs1.trans (by dsimp only; omega)
    · have hn : w.1 ∉ hs := fun hm => hend (h4 ((hw.parked _ (by omega) (by omega)).mpr hm))
      simp only [mem_append,mem_singleton,hn,false_or]
      omega
    · exact fun k hk => not_lt.mp fun hl => hk.2.2 (hbelow k hk.1 hk.2.1 hl)
    · simp [h5 k hk.le,hw.parked k (by omega) hk',or_comm]

lemma Waits.done (hw : Waits s e cb hs t) (he : InRange 64 (e+1)) (h : ℤ) :
    Waits s e cb (hs ++ [h]) (t.done h) ∨ Finished s e cb (hs ++ [h]) (t.done h) := by
  unfold Task.done
  split_ifs with hc
  · by_cases hh : h = t.start
    · subst hh
      exact hw.next he
    · rw [mark,if_neg hh]
      exact .inl (hw.other (Ne.symm hh) fun k _ _ => by simp [or_comm])
  · simp only [hw.runs,hw.fin,true_and] at hc
    have := hw.least.1.2.1
    exact .inl (hw.other (by omega) fun k hk hk' => (or_iff_left (by omega)).symm)

/-- **A run** of reports keeps the task waiting for the smallest height until it is finished. -/
theorem Waits.run (hw : Waits s e cb [] t) (he : InRange 64 (e+1)) (hs : List ℤ) :
    Waits s e cb hs (hs.foldl Task.done t) ∨ Finished s e cb hs (hs.foldl Task.done t) := by
  induction hs using reverseRecOn with
  | nil => exact .inl hw
  | append_singleton hs h ih =>
    rw [foldl_append]
    rcases ih with hw | hf
    · exact hw.done he h
    · have hd : (hs.foldl Task.done t).done h = hs.foldl Task.done t := by simp [Task.done,hf.stopped]
      rw [foldl_cons,hd]
      exact .inr ⟨fun k hk hk' => mem_append_left _ (hf.all k hk hk'),hf.stopped,hf.calls⟩

end

lemma advance_inRange {e s : ℤ} (d : Finset ℤ) (hs : InRange 64 s) : InRange 64 (advance e s d).1 := by
  induction d using Finset.strongInduction generalizing s with
  | H d ih =>
  rw [advance]
  split_ifs with h
  · exact ih _ (Finset.erase_ssubset h.2) (wrap_inRange (by decide) _)
  · exact hs

variable {t : Task}

/-- No height is above the highest one, so the task never sees its end. -/
theorem done_top (hr : t.isruning = true) (he : t.endHeight = 2^63-1) (h : ℤ) :
    (t.done h).isruning = true ∧ (t.done h).endHeight = 2^63-1 := by
  unfold done mark
  have hi := advance_inRange t.donelist (e := t.endHeight) (wrap_inRange (by decide : 0 < 64) (t.start+1))
  have hl : ¬t.endHeight < (advance t.endHeight (wrap 64 (t.start+1)) t.donelist).1 := by
    unfold InRange at hi
    omega
  dsimp only
  split_ifs <;> exact ⟨hr,he⟩

lemma run_top (hs : List ℤ) (hr : t.isruning = true) (he : t.endHeight = 2^63-1) :
    (hs.foldl done t).isruning = true := by
  induction hs generalizing t with
  | nil => exact hr
  | cons h hs ih => exact ih (done_top hr he h).1 (done_top hr he h).2

/-- **The task** tracks its reports, whatever their order, unless it waits for the highest height
there is. -/
theorem run_tracks_iff {t t' : Task} {s e : ℤ} {cb : Bool} (hs : InRange 64 s) (he : InRange 64 e)
    (h : startTask t s e cb = .ok t') : (∀ hs, Tracks s e cb hs (hs.foldl done t')) ↔ e ≠ 2^63-1 := by
  unfold startTask at h
  split_ifs at h with hr hle
  obtain rfl := Except.ok.inj h
  constructor
  · rintro hall rfl
    have ht := hall ((range (2^63-s).toNat).map fun i : ℕ => s+i)
    rw [Tracks,if_pos,run_top _ rfl rfl] at ht
    · exact absurd ht.1 (by decide)
    · intro k hk hk'
      refine mem_map.mpr ⟨(k-s).toNat,mem_range.mpr ?_,?_⟩ <;> omega
  · intro hne hs
    have hw : Waits s e cb [] ⟨s,e,true,cb,∅,0⟩ := ⟨rfl,rfl,rfl,rfl,‹_›,⟨⟨le_rfl,not_lt.mp hle,by simp⟩,fun k hk => hk.1⟩,by simp⟩
    have hr : InRange 64 (e+1) := by
      unfold InRange at *
      omega
    rcases hw.run hr hs with hw | hf
    · rw [Tracks,if_neg fun ha => hw.least.1.2.2 (ha _ hw.least.1.1 hw.least.1.2.1)]
      exact ⟨hw.runs,hw.calls,hw.least⟩
    · rw [Tracks,if_pos hf.all]
      exact ⟨hf.stopped,hf.calls⟩

theorem run_tracks_three : ((2 : ℤ) ≠ 2^63-1) ∧ Tracks 0 2 true [2,7,0,0] ([2,7,0,0].foldl done ⟨0,2,true,true,∅,0⟩) :=
  ⟨by decide,(@run_tracks_iff ⟨0,0,false,true,∅,0⟩ ⟨0,2,true,true,∅,0⟩ 0 2 true (by decide) (by decide) rfl).mpr
    (by decide) [2,7,0,0]⟩

/-- The one height of the range is reported, and the task goes on. -/
theorem run_top_goes_on : ¬∀ (t t' : Task) (s e : ℤ) (cb : Bool), InRange 64 s → InRange 64 e →
    startTask t s e cb = .ok t' → ∀ hs, Tracks s e cb hs (hs.foldl done t') := by
  intro hall
  have ht := hall ⟨0,0,false,true,∅,0⟩ _ (2^63-1) (2^63-1) true (by decide) (by decide) rfl [2^63-1]
  rw [Tracks,if_pos fun k hk hk' => mem_singleton.mpr (le_antisymm hk' hk),run_top _ rfl rfl] at ht
  exact absurd ht.1 (by decide)

end Task
end Dpos
