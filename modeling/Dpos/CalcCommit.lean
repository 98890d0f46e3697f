import Dpos.Bytes
import Dpos.Word

/-! The most frequent commit of a list, as in `calccommit.go`, over every order in which the map of the counts may be
walked through. -/
namespace Dpos.CalcCommit
open List Function
open Word (wrap InRange)

/-- The map of the counts. -/
def stats (commits : List Bytes) : Bytes → Option ℤ :=
  commits.foldl (fun stats commit => update stats commit (some ((stats commit).elim 1 (·+1)))) fun _ => none

/-- The keys of the map in the order of a walk. -/
structure Walk (commits keys : List Bytes) : Prop where
  nodup : keys.Nodup
  mem : ∀ key, key ∈ keys ↔ (stats commits key).isSome

/-- `GetMostCommit`, which walks through the map in the order of `keys`. -/
def getMostCommit (commits keys : List Bytes) : ℤ × Bytes :=
  keys.foldl (fun r k => match stats commits k with
    | some v => if r.1 < v then (v,k) else r
    | none => r) (-1,[])

def isCommitDone (total most : ℤ) : Bool := wrap 64 (2*total) < wrap 64 (3*most)

/-- Where a walk through the keys may end: at one of the highest count. -/
structure Most (commits keys : List Bytes) (r : ℤ × Bytes) : Prop where
  le : ∀ key ∈ keys, commits.count key ≤ r.1
  eq : keys = [] ∧ r.1 = -1 ∨ r.2 ∈ keys ∧ r.1 = commits.count r.2

section
variable {commits keys : List Bytes} {a b : Bytes} {r : ℤ × Bytes}

lemma stats_eq (commits : List Bytes) (a : Bytes) :
    stats commits a = if a ∈ commits then some (commits.count a : ℤ) else none := by
  induction commits using reverseRecOn with
  | nil => rfl
  | append_singleton commits c ih =>
    rw [stats,foldl_append,foldl_cons,foldl_nil,← stats]
    by_cases ha : a = c
    · subst ha
      rw [update_self,ih]
      by_cases hm : a ∈ commits <;> simp [hm,count_eq_zero_of_not_mem]
    · simp [ih,ha,count_append,Ne.symm ha]

lemma count_add_count_le (hab : a ≠ b) (commits : List Bytes) : commits.count a+commits.count b ≤ commits.length := by
  induction commits with
  | nil => rfl
  | cons c commits ih =>
    simp only [count_cons,length_cons,beq_iff_eq]
    grind

lemma getMostCommit_most (hm : ∀ key ∈ keys, key ∈ commits) : Most commits keys (getMostCommit commits keys) := by
  induction keys using reverseRecOn with
  | nil => exact ⟨by simp,.inl ⟨rfl,rfl⟩⟩
  | append_singleton keys k ih =>
    obtain ⟨hm,hk⟩ := forall_mem_append.mp hm
    obtain ⟨hle,he⟩ := ih hm
    have hs : stats commits k = some (commits.count k : ℤ) := by simp [stats_eq,hk k (by simp)]
    rw [getMostCommit,foldl_append,foldl_cons,foldl_nil,hs,← getMostCommit]
    constructor <;> grind

lemma Walk.most (hw : Walk commits keys) : Most commits commits (getMostCommit commits keys) := by
  have hm : ∀ key, key ∈ keys ↔ key ∈ commits := fun key => by
    rw [hw.mem,stats_eq]
    split_ifs with h <;> simp [h]
  obtain ⟨hle,he⟩ := getMostCommit_most fun key hk => (hm key).mp hk
  simp only [hm,eq_nil_iff_forall_not_mem] at hle he
  exact ⟨hle,by simpa only [eq_nil_iff_forall_not_mem] using he⟩

/-- Two thirds of the commits are one commit, where every walk ends. -/
theorem Most.unique (h : Most commits commits r) (hd : 2*(commits.length : ℤ) < 3*r.1) :
    (∀ commit, stats commits commit = some r.1 ↔ commit = r.2) ∧ ∀ r', Most commits commits r' → r' = r := by
  obtain ⟨hle,⟨-,he⟩ | ⟨hm,he⟩⟩ := h
  · omega
  -- another commit as frequent as this one leaves no third
  have hu : ∀ c, (commits.count c : ℤ) = r.1 → c = r.2 := by
    intro c hc
    by_contra hn
    have := count_add_count_le hn commits
    omega
  refine ⟨fun c => ?_,?_⟩
  · rw [stats_eq]
    grind
  · rintro r' ⟨hle',⟨rfl,-⟩ | ⟨hm',he'⟩⟩
    · cases hm
    · have := hle _ hm'
      have := hle' _ hm
      exact Prod.ext (by omega) (hu _ (by omega))

end

/-- The commit that is done does not depend on the walk, if and only if twice the total does not overflow. -/
theorem getMostCommit_unique_iff {total : ℤ} (ht : InRange 64 total) :
    (∀ commits keys : List Bytes, commits.length ≤ total → Walk commits keys →
      isCommitDone total (getMostCommit commits keys).1 = true →
      (∀ commit, stats commits commit = some (getMostCommit commits keys).1 ↔
        commit = (getMostCommit commits keys).2) ∧
      ∀ keys', Walk commits keys' → getMostCommit commits keys' = getMostCommit commits keys) ↔ total < 2^62 := by
  simp only [InRange] at ht
  constructor
  · intro h
    by_contra hge
    have hd : isCommitDone total 1 = true := by
      simp [isCommitDone,wrap,Int.bmod]
      omega
    have hu := (h [[1],[2]] [[1],[2]] (by simp; omega) ⟨by decide,fun k => by simp [stats_eq]⟩ hd).1
    exact absurd (((hu [1]).mp (by decide)).trans ((hu [2]).mp (by decide)).symm) (by decide)
  · intro hlt commits keys hl hw hd
    have h := hw.most
    generalize getMostCommit commits keys = r at *
    rw [isCommitDone,decide_eq_true_eq,Word.wrap_eq_self ⟨by omega,by omega⟩] at hd
    have hle : wrap 64 (3*r.1) ≤ 3*r.1 := by
      by_cases hr : InRange 64 (3*r.1)
      · rw [Word.wrap_eq_self hr]
      · have hb := (Word.wrap_inRange (by decide : 0 < 64) (3*r.1)).2
        have hge := h.eq
        simp only [InRange] at hr
        omega
    obtain ⟨hs,hu⟩ := h.unique (by omega)
    exact ⟨hs,fun keys' hw' => hu _ hw'.most⟩

theorem getMostCommit_splits : Walk [[1],[2]] [[1],[2]] ∧ Walk [[1],[2]] [[2],[1]] ∧
    isCommitDone (2^62) 1 = true ∧ getMostCommit [[1],[2]] [[1],[2]] = (1,[1]) ∧
    getMostCommit [[1],[2]] [[2],[1]] = (1,[2]) := by
  refine ⟨⟨by decide,fun k => by simp [stats_eq]⟩,⟨by decide,fun k => ?_⟩,by decide,by decide,by decide⟩
  rw [stats_eq]
  grind

theorem getMostCommit_unique_three : getMostCommit [[1],[1],[1]] [[1]] = (3,[1]) ∧
    ∀ keys, Walk [[1],[1],[1]] keys → getMostCommit [[1],[1],[1]] keys = (3,[1]) :=
  ⟨by decide,((getMostCommit_unique_iff (by decide : InRange 64 3)).mpr (by decide) [[1],[1],[1]] [[1]] (by simp)
    ⟨by decide,fun k => by simp [stats_eq]⟩ (by decide)).2⟩

end Dpos.CalcCommit
