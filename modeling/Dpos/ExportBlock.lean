import Dpos.Bytes

/-! `ExportBlock`: the main chain copied to a file in batches. The file holds a header, a
marker of the last block written and the blocks; a later run goes on behind the marker.
The first batch writes a marker with a zero hash, which no later run accepts. -/
namespace Dpos.ExportBlock

open List

structure FileHeader where
  title : Bytes
  driver : Bytes
  testNet : Bool
  startHeight : ℤ
  deriving DecidableEq, Repr

structure EndBlock where
  height : ℤ
  hash : Bytes
  deriving DecidableEq, Repr

structure File (B : Type) where
  header : Option FileHeader
  endBlock : Option EndBlock
  blocks : ℤ → Option B

inductive Write (B : Type)
  | header (h : FileHeader)
  | endBlock (e : EndBlock)
  | block (height : ℤ) (b : B)

inductive Err
  | invalidParam | heightNotExist | inValidFileHeader | endBlockMissing | blockHeight | loadBlock
  | blockHashNoMatch
  deriving DecidableEq, Repr

structure Chain (B : Type) where
  title : Bytes
  driver : Bytes
  testNet : Bool
  block : ℤ → B
  hash : B → Bytes
  parentHash : B → Bytes
  size : B → ℕ

variable {B : Type}

def File.empty : File B := ⟨none,none,fun _ => none⟩

def File.write (f : File B) : Write B → File B
  | .header h => {f with header := some h}
  | .endBlock e => {f with endBlock := some e}
  | .block height b => {f with blocks := Function.update f.blocks height (some b)}

def File.writes (f : File B) (batches : List (List (Write B))) : File B := batches.flatten.foldl File.write f

def blockCount : ℤ := 1024
def maxBlockSizePerTime : ℕ := 100*1024*1024
def zeroHash : Bytes := replicate 32 0

section
variable (c : Chain B) (curheight : ℤ)

def loadBlockByHeight (height : ℤ) : Option B :=
  if 0 ≤ height ∧ height ≤ curheight then some (c.block height) else none

/-- `exportMainBlock`: `m` blocks from `height` on. The batches it writes, and its error. -/
def exportMainBlock : ℕ → ℤ → ℕ → List (Write B) → List (List (Write B)) × Option Err
  | 0, _, count, batch => (if 0 < count then [batch] else [],none)
  | m+1, height, count, batch =>
    match loadBlockByHeight c curheight height with
    | none => ([],some .loadBlock)
    | some b =>
      let count := count+c.size b
      let batch := batch ++ [.block height b,.endBlock ⟨height,c.hash b⟩]
      if maxBlockSizePerTime < count then
        let r := exportMainBlock m (height+1) 0 []
        (batch :: r.1,r.2)
      else exportMainBlock m (height+1) count batch

def exportRest (height : ℤ) : List (List (Write B)) × Option Err :=
  exportMainBlock c curheight (curheight-blockCount+1-height).toNat height 0 []

def exportBlock (title : Bytes) (startHeight : ℤ) (f : File B) :
    List (List (Write B)) × Option Err :=
  let title := if title = [] then c.title else title
  if startHeight < 0 ∨ title ≠ c.title then ([],some .invalidParam)
  else if curheight < 0 then ([],some .heightNotExist)
  else if startHeight+blockCount ≥ curheight then ([],some .invalidParam)
  else match f.header with
  | some old =>
    if old.title ≠ title ∨ old.driver ≠ c.driver ∨ old.testNet ≠ c.testNet then
      ([],some .inValidFileHeader)
    else match f.endBlock with
    | none => ([],some .endBlockMissing)
    | some e =>
      if e.height < startHeight ∨ e.height > curheight-blockCount then ([],some .blockHeight)
      else match loadBlockByHeight c curheight (e.height+1) with
      | none => ([],some .loadBlock)
      | some b =>
        if e.hash ≠ c.parentHash b then ([],some .blockHashNoMatch)
        else exportRest c curheight (e.height+1)
  | none =>
    let r := exportRest c curheight startHeight
    ([.header ⟨title,c.driver,c.testNet,startHeight⟩,.endBlock ⟨startHeight,zeroHash⟩] :: r.1,r.2)

/-- The file after a run that was interrupted after `k` batches. -/
def interrupted (title : Bytes) (startHeight : ℤ) (f : File B) (k : ℕ) : File B :=
  f.writes ((exportBlock c curheight title startHeight f).1.take k)

end

/-! ### Files -/

section
variable {c : Chain B} {title : Bytes} {first : ℤ}

/-- The file holds the blocks below `n`, and its marker, if there are any, names the last. -/
structure Holds (c : Chain B) (first : ℤ) (n : ℤ) (f : File B) : Prop where
  header : f.header = some ⟨c.title,c.driver,c.testNet,first⟩
  blocks : ∀ h, f.blocks h = if first ≤ h ∧ h < n then some (c.block h) else none
  endBlock : first < n → f.endBlock = some ⟨n-1,c.hash (c.block (n-1))⟩

lemma writes_cons (f : File B) (batch : List (Write B)) (l : List (List (Write B))) :
    f.writes (batch :: l) = (f.writes [batch]).writes l := by
  simp [File.writes]

variable {f : File B} {batch : List (Write B)} {n cur : ℤ}

lemma Holds.snoc (h : Holds c first n (f.writes [batch]))
    (hn : first ≤ n) : Holds c first (n+1) (f.writes [batch ++
      [.block n (c.block n),.endBlock ⟨n,c.hash (c.block n)⟩]]) := by
  have hs : f.writes [batch ++ [.block n (c.block n),.endBlock ⟨n,c.hash (c.block n)⟩]] =
      ⟨(f.writes [batch]).header,some ⟨n,c.hash (c.block n)⟩,
        Function.update (f.writes [batch]).blocks n (some (c.block n))⟩ := by
    simp [File.writes,File.write]
  rw [hs]
  refine ⟨h.header,fun m => ?_,fun _ => by simp⟩
  by_cases hm : m = n
  · subst hm
    simp [hn]
  · refine (Function.update_of_ne hm _ _).trans ((h.blocks m).trans ?_)
    exact if_congr (by omega) rfl rfl

variable (hsi : ∀ b, 0 < c.size b)
include hsi

/-- Whatever part of the batches is written, the file holds the blocks up to some height. -/
theorem exportMainBlock_spec {curheight : ℤ} (m : ℕ) {p : ℤ} {co : ℕ}
    (h0 : 0 ≤ first) (hp : first ≤ p) (hc : n+m ≤ curheight+1)
    (hf : Holds c first p f) (hb : Holds c first n (f.writes [batch]))
    (hpe : co = 0 ∧ p = n ∨ 0 < co ∧ p < n) : (exportMainBlock c curheight m n co batch).2 = none ∧
      Holds c first (n+m) (f.writes (exportMainBlock c curheight m n co batch).1) ∧
      ∀ k, ∃ n', p ≤ n' ∧ n' ≤ n+m ∧ (0 < k → p < n+m → p < n') ∧
        Holds c first n' (f.writes ((exportMainBlock c curheight m n co batch).1.take k)) := by
  induction m generalizing n p co batch f with
  | zero =>
    rcases hpe with ⟨rfl,rfl⟩ | ⟨hct,hlt⟩
    · exact ⟨rfl,by simpa [exportMainBlock,File.writes] using hf,fun k => ⟨p,le_rfl,by simp,by simp,
        by simpa [exportMainBlock,File.writes] using hf⟩⟩
    · refine ⟨rfl,by simpa [exportMainBlock,hct] using hb,fun k => ?_⟩
      cases k with
      | zero => exact ⟨p,le_rfl,by simp [hlt.le],by simp,by simpa [File.writes] using hf⟩
      | succ k => exact ⟨n,hlt.le,by simp,fun _ _ => hlt,by simpa [exportMainBlock,hct] using hb⟩
  | succ m ih =>
    have hpn : p ≤ n := hpe.elim (fun h => h.2.le) fun h => h.2.le
    have hl : loadBlockByHeight c curheight n = some (c.block n) := if_pos ⟨by omega,by omega⟩
    have hnext := hb.snoc (hp.trans hpn)
    have had : n+((m+1 : ℕ) : ℤ) = n+1+m := by push_cast; ring
    simp only [exportMainBlock,hl,had]
    split_ifs with hfu
    · -- the batch is written
      have hem : Holds c first (n+1) ((f.writes [batch ++
          [.block n (c.block n),.endBlock ⟨n,c.hash (c.block n)⟩]]).writes [[]]) := by
        simpa [File.writes] using hnext
      obtain ⟨he,ha,hpa⟩ := ih (by omega) (by omega) hnext hem (.inl ⟨rfl,rfl⟩)
      refine ⟨he,by rw [writes_cons]; exact ha,fun k => ?_⟩
      cases k with
      | zero => exact ⟨p,le_rfl,by omega,by simp,by simpa [File.writes] using hf⟩
      | succ k =>
        obtain ⟨n',hg,hle,-,hn'⟩ := hpa k
        exact ⟨n',by omega,hle,fun _ _ => by omega,by rw [take_succ_cons,writes_cons]; exact hn'⟩
    · exact ih hp (by omega) hf hnext (.inr ⟨by have := hsi (c.block n); omega,by omega⟩)

omit hsi

/-- The chain is linked, and the request is one that `ExportBlock` accepts. -/
structure Request (c : Chain B) (title : Bytes) (first : ℤ) : Prop where
  size : ∀ b, 0 < c.size b
  linked : ∀ h, 0 ≤ h → c.parentHash (c.block (h+1)) = c.hash (c.block h)
  title : title = [] ∨ title = c.title
  start : 0 ≤ first

/-- A file that runs up to the height `cur` have left, none of them stopped right after
the first batch. -/
def Resumable (c : Chain B) (first cur : ℤ) (f : File B) : Prop :=
  f = .empty ∨ ∃ n, first < n ∧ n ≤ cur-blockCount+1 ∧ Holds c first n f

/-- No run stops right after the first batch of the file. -/
def Uncut (c : Chain B) (title : Bytes) (first : ℤ) : List (ℤ × ℕ) → File B → Prop
  | [], _ => True
  | (cur,k) :: runs, f => (f.header = none → first+blockCount < cur → k ≠ 1) ∧
      Uncut c title first runs (interrupted c cur title first f k)

/-- Runs on a growing chain, each interrupted after some of its batches. -/
def attempts (c : Chain B) (title : Bytes) (first : ℤ) (runs : List (ℤ × ℕ)) (f : File B) :
    File B :=
  runs.foldl (fun f run => interrupted c run.1 title first f run.2) f

variable (hr : Request c title first)
include hr

lemma exportRest_spec (cur : ℤ) (hn : first ≤ n) (hl : n ≤ cur-blockCount+1)
    (hf : Holds c first n f) : (exportRest c cur n).2 = none ∧
      Holds c first (cur-blockCount+1) (f.writes (exportRest c cur n).1) ∧
      ∀ k, ∃ n', n ≤ n' ∧ n' ≤ cur-blockCount+1 ∧ (0 < k → n < cur-blockCount+1 → n < n') ∧
        Holds c first n' (f.writes ((exportRest c cur n).1.take k)) := by
  have hc : blockCount = 1024 := rfl
  have he : n+(cur-blockCount+1-n).toNat = cur-blockCount+1 := by omega
  have hs := exportMainBlock_spec hr.size (cur-blockCount+1-n).toNat hr.start hn
    (by omega : _ ≤ cur+1) hf (by simpa [File.writes] using hf : Holds c first n (f.writes [[]]))
    (.inl ⟨rfl,rfl⟩)
  rwa [he] at hs

lemma exportBlock_spec {cur' : ℤ} (hle : cur ≤ cur') (hlo : first+blockCount < cur')
    (h : Resumable c first cur f) : (exportBlock c cur' title first f).2 = none ∧
      Holds c first (cur'-blockCount+1) (f.writes (exportBlock c cur' title first f).1) ∧
      ∀ k, (f.header = none → k ≠ 1) →
        Resumable c first cur' (interrupted c cur' title first f k) := by
  have hs := hr.start
  have hc : blockCount = 1024 := rfl
  have ht : (if title = [] then c.title else title) = c.title := by rcases hr.title with h | h <;> simp [h]
  have ho : ¬(first < 0 ∨ c.title ≠ c.title) := by simpa using hs
  have hpo : ¬cur' < 0 := by omega
  rcases h with rfl | ⟨n,hn,hnl,hf⟩
  · -- the first run
    have hf1 : Holds c first first ((File.empty : File B).writes
        [[.header ⟨c.title,c.driver,c.testNet,first⟩,.endBlock ⟨first,zeroHash⟩]]) :=
      ⟨rfl,fun h => by rw [if_neg (by omega)]; rfl,fun h => absurd h (lt_irrefl _)⟩
    obtain ⟨he,ha,hp⟩ := exportRest_spec hr cur' le_rfl (by omega) hf1
    have heq : exportBlock c cur' title first File.empty =
        ([.header ⟨c.title,c.driver,c.testNet,first⟩,.endBlock ⟨first,zeroHash⟩] ::
          (exportRest c cur' first).1,(exportRest c cur' first).2) := by
      simp only [exportBlock,ht,if_neg ho,if_neg hpo,if_neg (not_le.mpr hlo),File.empty]
    simp only [interrupted,heq]
    refine ⟨he,by rw [writes_cons]; exact ha,fun k hk => ?_⟩
    match k,hk rfl with
    | 0,_ => exact .inl rfl
    | k+2,_ =>
      obtain ⟨n',-,hle',hlt,hn'⟩ := hp (k+1)
      refine .inr ⟨n',hlt k.succ_pos (by omega),hle',?_⟩
      rw [take_succ_cons,writes_cons]
      exact hn'
  · obtain ⟨he,ha,hp⟩ := exportRest_spec hr cur' hn.le (by omega) hf
    have hla : loadBlockByHeight c cur' n = some (c.block n) := if_pos ⟨by omega,by omega⟩
    have hl : c.hash (c.block (n-1)) = c.parentHash (c.block n) := by
      have h := hr.linked (n-1) (by omega)
      rw [sub_add_cancel] at h
      exact h.symm
    have hm : ¬(n-1 < first ∨ n-1 > cur'-blockCount) := by omega
    have heq : exportBlock c cur' title first f = exportRest c cur' n := by
      simp only [exportBlock,ht,if_neg ho,if_neg hpo,if_neg (not_le.mpr hlo),hf.header,hf.endBlock hn]
      rw [if_neg (by simp),if_neg hm]
      simp only [sub_add_cancel,hla]
      rw [if_neg (not_not.mpr hl)]
    simp only [interrupted,heq]
    refine ⟨he,ha,fun k _ => ?_⟩
    obtain ⟨n',hg,hle',-,hn'⟩ := hp k
    exact .inr ⟨n',by omega,hle',hn'⟩

lemma attempts_resumable {rs : List (ℤ × ℕ)} (l : ℤ) (hg : (l :: (rs.map Prod.fst ++ [cur])).Pairwise (· ≤ ·))
    (hu : Uncut c title first rs f) (h : Resumable c first l f) :
    Resumable c first cur (attempts c title first rs f) := by
  induction rs generalizing l f with
  | nil =>
    have hle : l ≤ cur := by simpa using hg
    exact h.imp_right fun ⟨n,hn,hnl,hf⟩ => ⟨n,hn,by omega,hf⟩
  | cons run rs ih =>
    rw [map_cons,cons_append,pairwise_cons] at hg
    refine ih run.1 hg.2 hu.2 ?_
    have hle := hg.1 run.1 mem_cons_self
    by_cases hl : first+blockCount < run.1
    · exact (exportBlock_spec hr hle hl h).2.2 run.2 fun hno => hu.1 hno hl
    · -- the chain is too short for the run
      have hs : interrupted c run.1 title first f run.2 = f := by
        have hni : (exportBlock c run.1 title first f).1 = [] := by
          simp only [exportBlock,ge_iff_le,not_lt.mp hl,if_true]
          split_ifs <;> rfl
        simp [interrupted,hni,File.writes]
      rw [← hs] at h
      exact h.imp_right fun ⟨n,hn,hnl,hf⟩ => ⟨n,hn,by omega,hf⟩

/-- If none of the runs stops right after the first batch of the file, a full run on a long
enough chain succeeds, and the file holds the linked blocks up to its end height. -/
theorem exportBlock_resumes (runs : List (ℤ × ℕ)) {cur : ℤ} (hg : (runs.map Prod.fst ++ [cur]).Pairwise (· ≤ ·))
    (hu : Uncut c title first runs .empty) (hl : first+blockCount < cur) :
    let f := attempts c title first runs .empty
    (exportBlock c cur title first f).2 = none ∧
      Holds c first (cur-blockCount+1) (f.writes (exportBlock c cur title first f).1) := by
  intro f
  have hf : Resumable c first cur f := by
    cases runs with
    | nil => exact .inl rfl
    | cons run runs =>
      refine attempts_resumable hr run.1 ?_ hu (.inl rfl)
      rw [map_cons,cons_append] at hg ⊢
      exact pairwise_cons.mpr ⟨forall_mem_cons.mpr ⟨le_rfl,(pairwise_cons.mp hg).1⟩,hg⟩
  have hs := exportBlock_spec hr le_rfl hl hf
  exact ⟨hs.1,hs.2.1⟩

end

def heightChain : Chain ℤ :=
  ⟨[],[],false,id,fun b => replicate (b.toNat+1) 1,fun b => replicate b.toNat 1,fun _ => 1⟩

theorem exportBlock_resumes_twice :
    (exportBlock heightChain 1030 [] 3 (attempts heightChain [] 3 [(1028,2)] .empty)).2 = none :=
  have hr : Request heightChain [] 3 := ⟨fun _ => Nat.one_pos,
    fun h h0 => congrArg (replicate · 1) (Int.toNat_add h0 zero_le_one),.inl rfl,by decide⟩
  (exportBlock_resumes hr [(1028,2)] (by decide) ⟨by decide,trivial⟩ (by decide)).1

/-- A run that stops after the first batch leaves a file that the next run refuses. -/
theorem exportBlock_cut : (exportBlock heightChain 1030 [] 3 (attempts heightChain [] 3 [(1028,1)] .empty)).2 =
      some .blockHashNoMatch := by
  decide +kernel

end Dpos.ExportBlock
