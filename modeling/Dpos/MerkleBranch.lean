import Dpos.MerkleLevel

/-! `Computation` of `common/merkle`: a root and the branch of one leaf, with one slot per
level. The slots are those of a binary counter: a slot whose bit is set holds the last
full subtree of its level. A leaf is carried up through the set bits; at the end the
digest of the lowest one is doubled and carried on until it is the root. -/
namespace Dpos.Merkle

open List Option

variable {D : Type}

section
variable (pair : D → D → D)

/-- What the loops carry up: the digest `h`, whether the leaf of the branch is below it,
and the results so far. -/
structure Climb (D : Type) where
  h : D
  matchh : Bool
  mutated : Bool
  branch : List D
  deriving DecidableEq, Repr

/-- The variables of `Computation` between two leaves. -/
structure Counter (D : Type) where
  count : ℕ
  inner : List D
  matchlevel : ℕ
  mutated : Bool
  branch : List D
  deriving DecidableEq, Repr

def Counter.initial (nil : D) : Counter D := ⟨0,replicate 32 nil,0xff,false,[]⟩

/-- The entry of the branch where `left` meets the digest. -/
def Climb.note (wanted : Bool) (matchlevel level : ℕ) (left : D) (w : Climb D) : Climb D :=
  if wanted then
    if w.matchh then {w with branch := w.branch ++ [left]}
    else if matchlevel = level then {w with branch := w.branch ++ [w.h],matchh := true}
    else w
  else w

def Climb.double (wanted : Bool) (w : Climb D) : Climb D :=
  {w with
    branch := if wanted && w.matchh then w.branch ++ [w.h] else w.branch
    h := pair w.h w.h}

def getMerkleRootFromBranch : List D → D → ℕ → D
  | [],hash,_ => hash
  | sibling :: merkleBranch,hash,index =>
    getMerkleRootFromBranch merkleBranch
      (if index &&& 1 ≠ 0 then pair sibling hash else pair hash sibling) (index >>> 1)

variable [DecidableEq D]

/-- The loop from a level on, over the slots from there on, as long as the bit of `count`
is clear. Mutation is only looked for while leaves are read. None stands for an index out
of range. -/
def carry (detect wanted : Bool) (count matchlevel : ℕ) : ℕ → List D → Climb D → Option (ℕ × Climb D)
  | level,[],w => if count.testBit level then some (level,w) else none
  | level,left :: slots,w =>
    if count.testBit level then some (level,w)
    else
      let noted := w.note wanted matchlevel level left
      carry detect wanted count matchlevel (level+1) slots
        {noted with h := pair left w.h,mutated := w.mutated || (detect && decide (left = w.h))}

def addLeaf (wanted : Bool) (branchpos : ℕ) (s : Counter D) (h : D) : Option (Counter D) := do
  let matchh := decide (s.count%2^32 = branchpos) && wanted
  let count := s.count+1
  let (level,w) ← carry pair true wanted count s.matchlevel 0 s.inner ⟨h,matchh,s.mutated,s.branch⟩
  if level < s.inner.length then
    return ⟨count,s.inner.set level w.h,if w.matchh then level else s.matchlevel,w.mutated,w.branch⟩
  else none

def lowLevel : ℕ → ℕ → ℕ → ℕ
  | 0,_,level => level
  | fuel+1,count,level => if count.testBit level then level else lowLevel fuel count (level+1)

/-- The loop after the leaves. Every pass goes up at least one level. -/
def finish (wanted : Bool) (inner : List D) (matchlevel : ℕ) : ℕ → ℕ → ℕ → Climb D → Option (Climb D)
  | 0,count,level,w => if count = 2^level then some w else none
  | fuel+1,count,level,w =>
    if count = 2^level then some w
    else do
      let (next,w') ← carry pair false wanted (count+2^level) matchlevel (level+1)
        (inner.drop (level+1)) (w.double pair wanted)
      finish wanted inner matchlevel fuel (count+2^level) next w'

/-- `Computation`: the root, whether two equal digests met, and the branch. None stands
for a panic. -/
def computation (nil : D) (leaves : List D) (flage : ℤ) (branchpos : ℕ) :
    Option (D × Bool × List D) :=
  if leaves = [] then some (nil,false,[])
  else if flage < 1 ∨ 3 < flage then some (nil,false,[])
  else do
    let wanted := flage.toNat &&& 2 != 0
    let s ← leaves.foldlM (addLeaf pair wanted branchpos) (Counter.initial nil)
    let level := lowLevel 32 s.count 0
    let h ← s.inner[level]?
    let w ← finish pair wanted s.inner s.matchlevel 32 s.count level
      ⟨h,decide (s.matchlevel = level),s.mutated,s.branch⟩
    return (w.h,w.mutated,w.branch)

end

variable {i : ℕ}

section
variable (pair : D → D → D) {l : List D}

/-- The digests of the next level that have both children. -/
def couples : List D → List D
  | a :: b :: l => pair a b :: couples l
  | _ => []

@[simp] lemma couples_nil : couples pair [] = [] := rfl

lemma couples_length (l : List D) : (couples pair l).length = l.length/2 := by
  induction l using pairUp.induct with
  | case1 a b l ih => simp only [couples,length_cons,ih]; omega
  | case2 a => simp [couples]
  | case3 => simp

variable {pair} in
lemma couples_append (h : l.length%2 = 0) (r : List D) :
    couples pair (l ++ r) = couples pair l ++ couples pair r := by
  induction l using pairUp.induct with
  | case1 a b l ih =>
    have heven : l.length%2 = 0 := by
      simp only [length_cons] at h
      omega
    simp [couples,ih heven]
  | case2 a => simp at h
  | case3 => rfl

variable {pair} in
lemma couples_snoc (h : l.length%2 = 0) (a : D) : couples pair (l ++ [a]) = couples pair l := by
  rw [couples_append h]
  exact append_nil _

variable {pair} in
lemma pairUp_eq_couples (h : l.length%2 = 0) : pairUp pair l = couples pair l := by
  induction l using pairUp.induct with
  | case1 a b l ih =>
    have heven : l.length%2 = 0 := by
      simp only [length_cons] at h
      omega
    simp [couples,pairUp,ih heven]
  | case2 a => simp at h
  | case3 => rfl

/-- Slots over the digests of a level: where their number is odd the first slot holds the
last of them, and the other slots are over the couples. -/
def Slots : List D → List D → Prop
  | [],l => l = []
  | left :: slots,l => (l.length%2 = 1 → ∃ l', l = l' ++ [left]) ∧ Slots slots (couples pair l)

variable {pair}

lemma slots_nil (ss : List D) : Slots pair ss [] := by
  induction ss with
  | nil => rfl
  | cons left ss ih => exact ⟨by simp,ih⟩

/-- A digest next to `l` is carried up `i` levels, where it stands next to an even number
of digests. -/
inductive Carried (pair : D → D → D) : List D → List D → D → ℕ → List D → D → Prop
  | stop {slots l : List D} {h : D} (heven : l.length%2 = 0) : Carried pair slots l h 0 l h
  | step {slots l m : List D} {left h top : D} {i : ℕ} (heven : l.length%2 = 0)
      (hnext : Carried pair slots (couples pair l) (pair left h) i m top) :
      Carried pair (left :: slots) (l ++ [left]) h (i+1) m top

lemma couples_snoc_snoc (h : l.length%2 = 0) (a b : D) :
    couples pair (l ++ [a] ++ [b]) = couples pair l ++ [pair a b] := by
  rw [append_assoc,couples_append h]
  rfl

section
variable {ss l m : List D} {h top : D} (hc : Carried pair ss l h i m top)
include hc

lemma Carried.even : m.length%2 = 0 := by
  induction hc with
  | stop heven => exact heven
  | step _ _ ih => exact ih

lemma Carried.slots (hs : Slots pair ss l) (hi : i < ss.length) : Slots pair (ss.set i top) (l ++ [h]) := by
  induction hc with
  | @stop ss l h heven =>
    match ss with
    | left :: ss => exact ⟨fun _ => ⟨l,rfl⟩,by rw [couples_snoc heven]; exact hs.2⟩
  | @step ss l m left h top i heven hnext ih =>
    refine ⟨fun ho => ?_,?_⟩
    · simp only [length_append,length_singleton] at ho
      omega
    · rw [couples_snoc_snoc heven]
      have hr := hs.2
      rw [couples_snoc heven] at hr
      exact ih hr (by simpa using hi)

lemma Carried.rest (hs : Slots pair ss l) : Slots pair (ss.drop i) m := by
  induction hc with
  | stop _ => exact hs
  | step heven _ ih =>
    have hr := hs.2
    rw [couples_snoc heven] at hr
    exact ih hr

lemma Carried.root : getMerkleRootSeq pair (l ++ [h]) = getMerkleRootSeq pair (m ++ [top]) := by
  induction hc with
  | stop _ => rfl
  | @step ss l m left h top i heven hnext ih =>
    rw [← ih,← getMerkleRootSeq_pairUp pair (by simp),pairUp_eq_couples (by simp; omega),
      couples_snoc_snoc heven]

end

end

/-! ### The branch of a leaf -/

section
variable {pair : D → D → D} {leaf : D} {pos : ℕ}

lemma getMerkleRootFromBranch_snoc (branch : List D) (a hash : D) (index : ℕ) :
    getMerkleRootFromBranch pair (branch ++ [a]) hash index =
      if index/2^branch.length%2 = 1 then pair a (getMerkleRootFromBranch pair branch hash index)
      else pair (getMerkleRootFromBranch pair branch hash index) a := by
  induction branch generalizing hash index with
  | nil => rcases Nat.mod_two_eq_zero_or_one index with h | h <;> simp [getMerkleRootFromBranch,h]
  | cons b branch ih =>
    have hd : (index >>> 1)/2^branch.length = index/2^(branch.length+1) := by
      rw [Nat.shiftRight_eq_div_pow,Nat.div_div_eq_div_mul,← Nat.pow_add,Nat.add_comm]
    rw [cons_append,getMerkleRootFromBranch,ih,hd]
    rfl

/-- The branch so far leads from the leaf to a digest, by its level and its index there. -/
structure Leads (pair : D → D → D) (leaf : D) (pos : ℕ) (branch : List D) (level : ℕ) (h : D)
    (index : ℕ) : Prop where
  length : branch.length = level
  root : getMerkleRootFromBranch pair branch leaf pos = h
  index_eq : pos/2^level = index

variable {branch l ss : List D} {level matchlevel ix : ℕ} {w : Climb D} {h : D}

/-- What a branch starts from lies below its end. -/
theorem spans_of_branch {IsLeaf IsDigest : D → Prop} (hf : FreePair pair IsLeaf IsDigest)
    (hb : ∀ d ∈ branch, IsDigest d) (hh : IsDigest h) : IsDigest (getMerkleRootFromBranch pair branch h ix) ∧
      ∀ s, Spans pair IsLeaf (getMerkleRootFromBranch pair branch h ix) s → ∃ t ⊆ s, Spans pair IsLeaf h t := by
  induction branch generalizing h ix with
  | nil => exact ⟨hh,fun s h => ⟨s,Subset.refl s,h⟩⟩
  | cons d branch ih =>
    obtain ⟨hd,hb⟩ := forall_mem_cons.mp hb
    refine (ih hb (by split_ifs <;> exact hf.pair_digest _ _)).imp_right fun h s hs => ?_
    obtain ⟨t,hts,ht⟩ := h s hs
    split_ifs at ht
    · exact (ht.of_pair hf hd hh).2.imp fun _ h => ⟨Subset.trans h.1 hts,h.2⟩
    · exact (ht.of_pair hf hh hd).1.imp fun _ h => ⟨Subset.trans h.1 hts,h.2⟩

lemma Leads.half (hl : Leads pair leaf pos branch level h ix) :
    pos/2^(level+1) = ix/2 := by
  rw [Nat.pow_succ,← Nat.div_div_eq_div_mul,hl.index_eq]

lemma Leads.right (hl : Leads pair leaf pos branch level h ix)
    (ho : ix%2 = 1) (left : D) : Leads pair leaf pos (branch ++ [left]) (level+1) (pair left h) (ix/2) where
  length := by simp [hl.length]
  root := by rw [getMerkleRootFromBranch_snoc,hl.length,hl.index_eq,if_pos ho,hl.root]
  index_eq := hl.half

lemma Leads.left (hl : Leads pair leaf pos branch level h ix)
    (heven : ix%2 = 0) (right : D) :
    Leads pair leaf pos (branch ++ [right]) (level+1) (pair h right) (ix/2) where
  length := by simp [hl.length]
  root := by rw [getMerkleRootFromBranch_snoc,hl.length,hl.index_eq,if_neg (by omega),hl.root]
  index_eq := hl.half

/-- The branch leads to the slot of `matchlevel`, the slots being those from a level on. -/
def InSlot (pair : D → D → D) (leaf : D) (pos : ℕ) (branch : List D) (matchlevel : ℕ) :
    ℕ → List D → List D → Prop
  | _,[],_ => False
  | level,left :: slots,l =>
    matchlevel = level ∧ l.length%2 = 1 ∧ Leads pair leaf pos branch level left (l.length-1) ∨
      level < matchlevel ∧ InSlot pair leaf pos branch matchlevel (level+1) slots (couples pair l)

/-- The branch leads to the digest that is carried, or to a slot above. -/
def Tracks (pair : D → D → D) (leaf : D) (pos matchlevel level : ℕ) (slots l : List D)
    (w : Climb D) : Prop :=
  w.matchh = true ∧ Leads pair leaf pos w.branch level w.h l.length ∨
    w.matchh = false ∧ InSlot pair leaf pos w.branch matchlevel level slots l

lemma not_inSlot_nil :
    ¬InSlot pair leaf pos branch matchlevel level ss [] := by
  induction ss generalizing level with
  | nil => exact id
  | cons left ss ih =>
    rintro (⟨_,ho,_⟩ | ⟨_,h⟩)
    · simp at ho
    · exact ih h

lemma InSlot.of_even {left : D}
    (h : InSlot pair leaf pos branch matchlevel level (left :: ss) l) (heven : l.length%2 = 0) :
    level < matchlevel ∧ InSlot pair leaf pos branch matchlevel (level+1) ss (couples pair l) := by
  rcases h with ⟨_,ho,_⟩ | h
  · omega
  · exact h

lemma Tracks.note {left : D}
    (h : Tracks pair leaf pos matchlevel level (left :: ss) (l ++ [left]) w)
    (heven : l.length%2 = 0) (b : Bool) : Tracks pair leaf pos matchlevel (level+1) ss (couples pair l)
      {w.note true matchlevel level left with h := pair left w.h,mutated := b} := by
  have hln : (couples pair l).length = l.length/2 := couples_length pair l
  have hi : (l ++ [left]).length = l.length+1 := by simp
  rcases h with ⟨hm,hl⟩ | ⟨hm,hs⟩
  · left
    rw [hi] at hl
    have hu := hl.right (by omega) left
    rw [show (l.length+1)/2 = l.length/2 by omega,← hln] at hu
    simpa [Climb.note,hm] using hu
  · rcases hs with ⟨he,_,hl⟩ | ⟨hlt,hs⟩
    · left
      rw [hi,Nat.add_sub_cancel] at hl
      have hu := hl.left heven w.h
      rw [← hln] at hu
      simpa [Climb.note,hm,he] using hu
    · right
      rw [couples_snoc heven] at hs
      simpa [Climb.note,hm,hlt.ne'] using hs

variable [DecidableEq D] {count lv : ℕ} {wanted : Bool} {m : List D}

omit [DecidableEq D] in
lemma testBit_of_eq {n : ℕ} (h : count = 2^level*n) : count.testBit level = decide (n%2 = 1) := by
  rw [h,Nat.testBit_eq_decide_div_mod_eq,Nat.mul_div_cancel_left _ (Nat.two_pow_pos level)]

lemma carry_spec (leaf : D) (pos : ℕ) (hs : Slots pair ss l) (d wanted : Bool)
    (lv : ℕ) (hct : count = 2^level*(l.length+1)) (w : Climb D) :
    ∃ i m w', carry pair d wanted count lv level ss w = some (level+i,w') ∧
      i ≤ ss.length ∧ Carried pair ss l w.h i m w'.h ∧ count = 2^(level+i)*(m.length+1) ∧
      (wanted = true → Tracks pair leaf pos lv level ss l w →
        Tracks pair leaf pos lv (level+i) (ss.drop i) m w') := by
  induction ss generalizing level l w with
  | nil =>
    obtain rfl : l = [] := hs
    have hb : count.testBit level = true := by rw [testBit_of_eq hct]; rfl
    exact ⟨0,[],w,by simp [carry,hb],le_rfl,.stop rfl,hct,fun _ h => h⟩
  | cons left ss ih =>
    by_cases heven : l.length%2 = 0
    · have hb : count.testBit level = true := by
        rw [testBit_of_eq hct]
        simp only [decide_eq_true_eq]
        omega
      exact ⟨0,l,w,by simp [carry,hb],Nat.zero_le _,.stop heven,hct,fun _ h => h⟩
    · have hb : count.testBit level = false := by
        rw [testBit_of_eq hct]
        simp only [decide_eq_false_iff_not]
        omega
      obtain ⟨l,rfl⟩ := hs.1 (by omega)
      have heven : l.length%2 = 0 := by
        simp only [length_append,length_singleton] at heven
        omega
      have hr := hs.2
      rw [couples_snoc heven] at hr
      have hnext : count = 2^(level+1)*((couples pair l).length+1) := by
        rw [hct,couples_length,Nat.pow_succ,Nat.mul_assoc,length_append,length_singleton]
        congr 1
        omega
      obtain ⟨i,m,w',hca,hi,hc,hm,htr⟩ := ih hr hnext
        {w.note wanted lv level left with
          h := pair left w.h,mutated := w.mutated || (d && decide (left = w.h))}
      rw [show level+1+i = level+(i+1) by omega] at hca hm htr
      refine ⟨i+1,m,w',by simpa [carry,hb] using hca,by simpa using hi,.step heven hc,hm,?_⟩
      rintro rfl ht
      exact htr rfl (ht.note heven _)

lemma carry_idle {d : Bool} {level' : ℕ}
    {w' : Climb D} (hm : w.matchh = false) (hl : level+ss.length ≤ lv)
    (h : carry pair d wanted count lv level ss w = some (level',w')) :
    w'.matchh = false ∧ w'.branch = w.branch := by
  induction ss generalizing level w with
  | nil =>
    simp only [carry] at h
    split_ifs at h
    cases h
    exact ⟨hm,rfl⟩
  | cons left ss ih =>
    simp only [carry] at h
    split_ifs at h
    · cases h
      exact ⟨hm,rfl⟩
    · simp only [length_cons] at hl
      have hn : w.note wanted lv level left = w := by
        unfold Climb.note
        have hne : lv ≠ level := by omega
        simp [hm,hne]
      rw [hn] at h
      exact @ih (level+1) ⟨pair left w.h,w.matchh,_,w.branch⟩ hm (by omega) h

omit [DecidableEq D] in
lemma InSlot.le
    (h : InSlot pair leaf pos branch lv level ss l) : level ≤ lv := by
  match ss with
  | left :: ss =>
    rcases h with ⟨rfl,_⟩ | ⟨hlt,_⟩
    · exact le_rfl
    · exact hlt.le

omit [DecidableEq D] in
/-- Where the digest comes to rest, the branch leads to a slot again. -/
theorem Tracks.inSlot {top : D} (hc : Carried pair ss l h i m top)
    (hto : w.h = top) (level : ℕ) (hi : i < ss.length)
    (ht : Tracks pair leaf pos lv (level+i) (ss.drop i) m w) :
    InSlot pair leaf pos w.branch (if w.matchh then level+i else lv) level
      (ss.set i top) (l ++ [h]) := by
  induction hc generalizing level with
  | @stop ss l h heven =>
    match ss with
    | left :: ss =>
      rcases ht with ⟨hm,hl⟩ | ⟨hm,hs⟩
      · left
        refine ⟨by simp [hm],by simp; omega,?_⟩
        simpa [hto] using hl
      · right
        rw [if_neg (by simp [hm]),couples_snoc heven]
        exact hs.of_even heven
  | @step ss l m left h top i heven hnext ih =>
    rw [show level+(i+1) = level+1+i by omega] at ht ⊢
    right
    rw [couples_snoc_snoc heven]
    refine ⟨?_,ih hto (level+1) (by simpa using hi) ht⟩
    rcases ht with ⟨hm,_⟩ | ⟨hm,hs⟩
    · rw [if_pos hm]
      omega
    · rw [if_neg (by simp [hm])]
      have := hs.le
      omega

/-- The counter after the leaves `l`. -/
structure Counts (pair : D → D → D) (s : Counter D) (l : List D) : Prop where
  count : s.count = l.length
  inner : s.inner.length = 32
  slots : Slots pair s.inner l

/-- The branch after the leaves `l`: it leads to the slot above the leaf, once that leaf
has been read. -/
def Marks (pair : D → D → D) (leaf : D) (pos : ℕ) (s : Counter D) (l : List D) : Prop :=
  if pos < l.length then InSlot pair leaf pos s.branch s.matchlevel 0 s.inner l
  else s.matchlevel = 0xff ∧ s.branch = []

variable {s : Counter D}

/-- The branch after one more leaf, which is the leaf itself, or another. -/
theorem Marks.snoc (hma : Marks pair leaf pos s l) (hs : Counts pair s l)
    (hl : pos = l.length → h = leaf)
    (hca : carry pair true true count s.matchlevel 0 s.inner ⟨h,decide (l.length = pos),s.mutated,s.branch⟩ = some (i,w))
    (hc : Carried pair s.inner l h i m w.h) (hi : i < s.inner.length)
    (htr : Tracks pair leaf pos s.matchlevel 0 s.inner l ⟨h,decide (l.length = pos),s.mutated,s.branch⟩ →
      Tracks pair leaf pos s.matchlevel i (s.inner.drop i) m w) :
    Marks pair leaf pos ⟨count,s.inner.set i w.h,if w.matchh then i else s.matchlevel,w.mutated,
      w.branch⟩ (l ++ [h]) := by
  have hsl : Tracks pair leaf pos s.matchlevel 0 s.inner l
      ⟨h,decide (l.length = pos),s.mutated,s.branch⟩ →
      InSlot pair leaf pos w.branch (if w.matchh then i else s.matchlevel) 0
        (s.inner.set i w.h) (l ++ [h]) := by
    intro ht
    have := Tracks.inSlot hc rfl 0 hi (by rw [Nat.zero_add]; exact htr ht)
    rwa [Nat.zero_add] at this
  unfold Marks at hma ⊢
  rw [length_append,length_singleton]
  rcases lt_trichotomy pos l.length with hp | hp | hp
  · rw [if_pos hp] at hma
    rw [if_pos (by omega)]
    exact hsl (.inr ⟨decide_eq_false (by omega),hma⟩)
  · rw [if_neg (by omega)] at hma
    rw [if_pos (by omega)]
    refine hsl (.inl ⟨decide_eq_true hp.symm,?_⟩)
    rw [hma.2]
    exact ⟨rfl,(hl hp).symm,by rw [hp,Nat.pow_zero,Nat.div_one]⟩
  · rw [if_neg (by omega)] at hma ⊢
    obtain ⟨hm,hb⟩ := carry_idle (decide_eq_false (by omega))
      (by rw [hs.inner,hma.1]; norm_num) hca
    exact ⟨by simp [hm,hma.1],by rw [hb,hma.2]⟩

lemma addLeaf_spec (hs : Counts pair s l)
    (hma : wanted = true → Marks pair leaf pos s l) (hl : pos = l.length → h = leaf)
    (hln : l.length+1 < 2^32) : ∃ s', addLeaf pair wanted pos s h = some s' ∧ Counts pair s' (l ++ [h]) ∧
      (wanted = true → Marks pair leaf pos s' (l ++ [h])) := by
  have hmo : s.count%2^32 = l.length := by rw [hs.count]; exact Nat.mod_eq_of_lt (by omega)
  have hct : s.count+1 = 2^0*(l.length+1) := by rw [hs.count,Nat.pow_zero,Nat.one_mul]
  obtain ⟨i,m,w,hca,hi,hc,hm,ht⟩ := carry_spec leaf pos hs.slots true
    wanted s.matchlevel hct ⟨h,decide (l.length = pos) && wanted,s.mutated,s.branch⟩
  rw [Nat.zero_add] at hca hm ht
  have hlt : i < s.inner.length := by
    by_contra hg
    rw [hs.inner] at hi hg
    rw [show i = 32 by omega,hs.count] at hm
    omega
  refine ⟨⟨s.count+1,s.inner.set i w.h,if w.matchh then i else s.matchlevel,w.mutated,w.branch⟩,
    ?_,⟨by simp [hs.count],by simp [hs.inner],hc.slots hs.slots hlt⟩,?_⟩
  · simp only [addLeaf,hmo,hca,bind_eq_bind,bind_some,if_pos hlt]
    rfl
  · rintro rfl
    have ht := ht rfl
    simp only [Bool.and_true] at hca ht
    exact (hma rfl).snoc hs hl hca hc hlt ht

/-- The leaf with number `2^32` does not find a slot. -/
theorem addLeaf_panics (wanted : Bool) (pos : ℕ) (hs : Counts pair s l)
    (hl : l.length+1 = 2^32) (h : D) : addLeaf pair wanted pos s h = none := by
  have hct : s.count+1 = 2^0*(l.length+1) := by rw [hs.count,Nat.pow_zero,Nat.one_mul]
  obtain ⟨i,m,w,hca,hi,hc,hm,_⟩ := carry_spec h pos hs.slots true wanted s.matchlevel hct
    ⟨h,decide (s.count%2^32 = pos) && wanted,s.mutated,s.branch⟩
  rw [Nat.zero_add] at hca hm
  have hg : ¬i < s.inner.length := by
    intro hlt
    rw [hs.inner] at hlt
    -- below the last level an even number of digests would be left beside the carried one
    have hsp : 2^32 = 2^i*2^(32-i) := by rw [← Nat.pow_add]; congr 1; omega
    rw [hs.count,hl,hsp] at hm
    have ho := Nat.eq_of_mul_eq_mul_left (Nat.two_pow_pos i) hm
    rw [show 32-i = 31-i+1 by omega,Nat.pow_succ] at ho
    have := hc.even
    omega
  simp only [addLeaf,hca,bind_eq_bind,bind_some,if_neg hg]

lemma foldlM_addLeaf {ls : List D} (hs : Counts pair s l)
    (hm : wanted = true → Marks pair leaf pos s l)
    (hl : ∀ h, (l ++ ls)[pos]? = some h → h = leaf) (hln : l.length+ls.length < 2^32) :
    ∃ s', ls.foldlM (addLeaf pair wanted pos) s = some s' ∧ Counts pair s' (l ++ ls) ∧
      (wanted = true → Marks pair leaf pos s' (l ++ ls)) := by
  induction ls generalizing s l with
  | nil => exact ⟨s,rfl,by simpa using hs,by simpa using hm⟩
  | cons h ls ih =>
    simp only [length_cons] at hln
    obtain ⟨s',ha,hs',hm'⟩ := addLeaf_spec hs hm
      (fun hp => hl h (by simp [hp])) (by omega : l.length+1 < 2^32)
    rw [append_cons] at hl ⊢
    obtain ⟨t,hf,ht⟩ := ih hs' hm' hl (by simp; omega)
    exact ⟨t,by simpa [ha] using hf,ht⟩

omit [DecidableEq D] in
lemma lowLevel_spec (leaf : D) (pos : ℕ) (hs : Slots pair ss l)
    (hne : l ≠ []) {fu : ℕ} (hc : count = 2^level*l.length)
    (hf : ss.length ≤ fu) (lv : ℕ) (mu : Bool) (branch : List D) :
    ∃ i m h, lowLevel fu count level = level+i ∧ ss[i]? = some h ∧ m.length%2 = 0 ∧
      Slots pair (ss.drop i) m ∧ count = 2^(level+i)*(m.length+1) ∧
      getMerkleRootSeq pair l = getMerkleRootSeq pair (m ++ [h]) ∧
      (InSlot pair leaf pos branch lv level ss l →
        Tracks pair leaf pos lv (level+i) (ss.drop i) m
          ⟨h,decide (lv = level+i),mu,branch⟩) := by
  induction ss generalizing level l fu with
  | nil => exact absurd hs hne
  | cons left ss ih =>
    obtain ⟨fu,rfl⟩ : ∃ f, fu = f+1 := ⟨fu-1,by simp at hf; omega⟩
    rw [lowLevel,testBit_of_eq hc]
    by_cases heven : l.length%2 = 0
    · have hp := length_pos_iff.mpr hne
      have hln : (couples pair l).length = _ := couples_length pair l
      have hnext : count = 2^(level+1)*(couples pair l).length := by
        rw [hc,hln,Nat.pow_succ,Nat.mul_assoc]
        congr 1
        omega
      obtain ⟨i,m,h,hlo,hsl,hm,hr,hc',hro,ht⟩ := ih hs.2
        (ne_nil_of_length_pos (by omega)) hnext (by simpa using hf)
      rw [show level+1+i = level+(i+1) by omega] at hlo hc' ht
      rw [← pairUp_eq_couples heven,getMerkleRootSeq_pairUp pair (by omega)] at hro
      refine ⟨i+1,m,h,by simpa [heven] using hlo,by simpa using hsl,hm,hr,hc',hro,?_⟩
      exact fun h => ht (h.of_even heven).2
    · obtain ⟨m,rfl⟩ := hs.1 (by omega)
      simp only [length_append,length_singleton] at heven hc ⊢
      have hr := hs.2
      rw [couples_snoc (by omega)] at hr
      refine ⟨0,m,left,by rw [if_pos (by simp; omega)]; rfl,rfl,by omega,⟨by omega,hr⟩,hc,rfl,?_⟩
      rintro (⟨he,_,hl⟩ | ⟨hlt,hsl⟩)
      · exact .inl ⟨decide_eq_true he,by simpa using hl⟩
      · rw [couples_snoc (by omega)] at hsl
        exact .inr ⟨decide_eq_false (by omega),.inr ⟨hlt,hsl⟩⟩

/-- The loop after the leaves, at a level where the digest stands next to the digests
`l`: it has not lost the root, nor the track of the leaf. -/
structure Rises (pair : D → D → D) (leaf : D) (pos : ℕ) (wanted : Bool) (inner : List D)
    (lv : ℕ) (root : D) (count level : ℕ) (l : List D) (w : Climb D) : Prop where
  slots : Slots pair (inner.drop level) l
  even : l.length%2 = 0
  count_eq : count = 2^level*(l.length+1)
  root_eq : getMerkleRootSeq pair (l ++ [w.h]) = some root
  track : wanted = true → Tracks pair leaf pos lv level (inner.drop level) l w

variable {wanted : Bool} {inner : List D} {lv : ℕ} {root : D} {count level : ℕ}
  {l : List D} {w : Climb D} {f : ℤ}

omit [DecidableEq D] in
lemma Rises.eq_pow_iff (hr : Rises pair leaf pos wanted inner lv root count level l w) :
    count = 2^level ↔ l = [] := by
  rw [hr.count_eq,Nat.mul_eq_left (Nat.two_pow_pos level).ne',← length_eq_zero_iff]
  omega

omit [DecidableEq D] in
lemma Rises.done (hr : Rises pair leaf pos wanted inner lv root count level [] w) :
    w.h = root ∧ (wanted = true → getMerkleRootFromBranch pair w.branch leaf pos = root) := by
  have hh : w.h = root := some.inj hr.root_eq
  refine ⟨hh,fun hw => ?_⟩
  rcases hr.track hw with ⟨_,hl⟩ | ⟨_,hs⟩
  · rw [hl.root,hh]
  · exact absurd hs not_inSlot_nil

omit [DecidableEq D] in
lemma Tracks.double {left : D}
    (ht : Tracks pair leaf pos lv level (left :: ss) l w) (heven : l.length%2 = 0) :
    Tracks pair leaf pos lv (level+1) ss (couples pair l) (w.double pair true) := by
  rcases ht with ⟨hm,hl⟩ | ⟨hm,hs⟩
  · have hu := hl.left heven w.h
    rw [← couples_length pair] at hu
    exact .inl ⟨hm,by simpa [Climb.double,hm] using hu⟩
  · exact .inr ⟨hm,by simpa [Climb.double,hm] using (hs.of_even heven).2⟩

lemma Rises.pass (hr : Rises pair leaf pos wanted inner lv root count level l w) (hne : l ≠ []) :
    ∃ next m w', carry pair false wanted (count+2^level) lv (level+1)
        (inner.drop (level+1)) (w.double pair wanted) = some (next,w') ∧ level < next ∧
      Rises pair leaf pos wanted inner lv root (count+2^level) next m w' := by
  have hl : (couples pair l).length = _ := couples_length pair l
  have heven := hr.even
  have hct : count+2^level = 2^(level+1)*((couples pair l).length+1) := by
    rw [hr.count_eq,hl,Nat.pow_succ,Nat.mul_assoc,← Nat.mul_succ]
    congr 1
    omega
  obtain ⟨left,slots,hd⟩ : ∃ left slots, inner.drop level = left :: slots := by
    apply exists_cons_of_ne_nil
    intro hn
    have := hr.slots
    rw [hn] at this
    exact hne this
  have hre : inner.drop (level+1) = slots := by
    rw [← drop_drop,hd]
    rfl
  have hs : Slots pair (inner.drop (level+1)) (couples pair l) := by
    have := hr.slots
    rw [hd] at this
    rw [hre]
    exact this.2
  obtain ⟨i,m,w',hca,_,hc,hm,htr⟩ := carry_spec leaf pos hs false wanted lv hct
    (w.double pair wanted)
  refine ⟨level+1+i,m,w',hca,by omega,?_,hc.even,hm,?_,?_⟩
  · rw [← drop_drop]
    exact hc.rest hs
  · have hlg : 2 ≤ (l ++ [w.h]).length := by
      have := length_pos_iff.mpr hne
      simp only [length_append,length_singleton]
      omega
    rw [← hc.root,← hr.root_eq,← getMerkleRootSeq_pairUp pair hlg,pairUp_append pair heven,
      pairUp_eq_couples heven]
    rfl
  · rintro rfl
    have ht := hr.track rfl
    rw [hd] at ht
    rw [← drop_drop]
    exact htr rfl (hre ▸ ht.double heven)

lemma finish_spec (f : ℕ) (hr : Rises pair leaf pos wanted inner lv root count level l w)
    (hfu : inner.length ≤ f+level) :
    ∃ w', finish pair wanted inner lv f count level w = some w' ∧ w'.h = root ∧
      (wanted = true → getMerkleRootFromBranch pair w'.branch leaf pos = root) := by
  induction f generalizing count level l w with
  | zero =>
    have hn : l = [] := by
      have := hr.slots
      rwa [drop_of_length_le (by omega)] at this
    subst hn
    exact ⟨w,by simp [finish,hr.eq_pow_iff],hr.done⟩
  | succ f ih =>
    by_cases hn : l = []
    · subst hn
      exact ⟨w,by simp [finish,hr.eq_pow_iff],hr.done⟩
    · obtain ⟨next,m,w1,hc,hlt,hr1⟩ := hr.pass hn
      obtain ⟨w',hf,h⟩ := ih hr1 (by omega)
      refine ⟨w',?_,h⟩
      rw [finish,if_neg (mt hr.eq_pow_iff.mp hn)]
      simp only [hc,bind_eq_bind,bind_some,hf]

omit [DecidableEq D] in
lemma counts_initial (pair : D → D → D) (nil : D) : Counts pair (Counter.initial nil) [] :=
  ⟨rfl,length_replicate,slots_nil _⟩

omit [DecidableEq D] in
lemma marks_initial (pair : D → D → D) (leaf : D) (pos : ℕ) (nil : D) :
    Marks pair leaf pos (Counter.initial nil) [] := ⟨rfl,rfl⟩

lemma foldlM_initial (pair : D → D → D) (nil : D) (wanted : Bool) {ls : List D}
    (hl : ls.length < 2^32) (hle : ∀ h, ls[pos]? = some h → h = leaf) :
    ∃ s, ls.foldlM (addLeaf pair wanted pos) (Counter.initial nil) = some s ∧ Counts pair s ls ∧
      (wanted = true → pos < ls.length → InSlot pair leaf pos s.branch s.matchlevel 0 s.inner ls) := by
  obtain ⟨s,hf,hs,hm⟩ := foldlM_addLeaf (counts_initial pair nil)
    (fun (_ : wanted = true) => marks_initial pair leaf pos nil)
    (by simpa using hle) (by simpa using hl)
  refine ⟨s,hf,hs,fun hw hp => ?_⟩
  simpa [Marks,hp] using hm hw

lemma computation_branch (pair : D → D → D) (nil : D) {ls : List D}
    (hln : ls.length < 2^32) (hfl : 1 ≤ f ∧ f ≤ 3) (hl : ls[pos]? = some leaf) :
    ∃ root mu branch, getMerkleRootSeq pair ls = some root ∧
      computation pair nil ls f pos = some (root,mu,branch) ∧
      ((f.toNat &&& 2 != 0) = true → getMerkleRootFromBranch pair branch leaf pos = root) := by
  have hne : ls ≠ [] := by
    rintro rfl
    simp at hl
  have hp : pos < ls.length := (List.getElem?_eq_some_iff.mp hl).1
  obtain ⟨root,hr,_⟩ := getMerkleRootSeq_eq pair hne
  obtain ⟨s,hfo,hs,hsl⟩ := foldlM_initial pair nil (f.toNat &&& 2 != 0) hln
    (fun h hh => some.inj (hh.symm.trans hl))
  have hc : s.count = 2^0*ls.length := by rw [hs.count,Nat.pow_zero,Nat.one_mul]
  obtain ⟨i,m,h,hlo,hi,heven,hre,hc,hse,ht⟩ := lowLevel_spec leaf pos hs.slots hne
    hc hs.inner.le s.matchlevel s.mutated s.branch
  rw [Nat.zero_add] at hlo hc ht
  have hri : Rises pair leaf pos (f.toNat &&& 2 != 0) s.inner s.matchlevel root s.count i m
      ⟨h,decide (s.matchlevel = i),s.mutated,s.branch⟩ :=
    ⟨hre,heven,hc,hse ▸ hr,fun hw => ht (hsl hw hp)⟩
  obtain ⟨w,hf,hw,hb⟩ := finish_spec 32 hri (by rw [hs.inner]; omega)
  refine ⟨root,w.mutated,w.branch,hr,?_,hb⟩
  rw [computation,if_neg hne,if_neg (by omega)]
  simp only [hfo,bind_eq_bind,bind_some,hlo,hi,hf,hw]
  rfl

/-- For fewer than `2^32` leaves `Computation` returns the root of `getMerkleRoot`, and
the branch of a leaf, where it is asked for, leads to that root. -/
theorem computation_spec (pair : D → D → D) (nil : D) {leaves : List D}
    (hl : leaves.length < 2^32) {flage : ℤ} (hf : 1 ≤ flage ∧ flage ≤ 3) (hle : leaves[pos]? = some leaf) :
    ∃ root mutated branch, getMerkleRootSeq pair leaves = some root ∧
      computation pair nil leaves flage pos = some (root,mutated,branch) ∧
      (flage ≠ 1 → getMerkleRootFromBranch pair branch leaf pos = root) := by
  obtain ⟨root,mutated,branch,hr,hc,hb⟩ := computation_branch pair nil hl hf hle
  refine ⟨root,mutated,branch,hr,hc,fun ho => hb ?_⟩
  obtain rfl | rfl : flage = 2 ∨ flage = 3 := by omega
  · rfl
  · rfl

theorem computation_spec_five : ∃ root mutated branch, getMerkleRootSeq Nat.pair [3,1,4,1,5] = some root ∧
      computation Nat.pair 0 [3,1,4,1,5] 3 2 = some (root,mutated,branch) ∧
      ((3 : ℤ) ≠ 1 → getMerkleRootFromBranch Nat.pair branch 4 2 = root) :=
  computation_spec Nat.pair 0 (by decide) (by decide) rfl

example : computation (fun a b => 10*a+b) 0 [1,2,3,4,5] 3 2 = some (2145,false,[4,12,605]) := by decide

lemma computation_panics (pair : D → D → D) (nil : D) {ls : List D}
    (hl : ls.length = 2^32) (hfl : 1 ≤ f ∧ f ≤ 3) (pos : ℕ) : computation pair nil ls f pos = none := by
  have hne : ls ≠ [] := ne_nil_of_length_pos (by omega)
  obtain ⟨fr,la,rfl⟩ := eq_nil_or_concat ls |>.resolve_left hne
  have hf : fr.length+1 = 2^32 := by simpa using hl
  obtain ⟨s,hfo,hs,_⟩ := @foldlM_initial D (fr[pos]?.getD nil) pos _ pair nil
    (f.toNat &&& 2 != 0) fr (by omega) (fun h hh => by rw [hh]; rfl)
  rw [computation,if_neg hne,if_neg (by omega)]
  simp [foldlM_append,hfo,addLeaf_panics _ pos hs hf]

/-- There are slots for 32 levels only: with `2^32` leaves there is a root, but
`Computation` panics. -/
theorem computation_two_pow_32 : (∃ root, getMerkleRootSeq Nat.pair (replicate (2^32) 0) = some root) ∧
      0 < (replicate (2^32) 0 : List ℕ).length ∧ computation Nat.pair 0 (replicate (2^32) 0) 3 0 = none := by
  have hl : (replicate (2^32) 0 : List ℕ).length = 2^32 := length_replicate
  generalize (replicate (2^32) 0 : List ℕ) = leaves at hl ⊢
  have hp : 0 < leaves.length := by omega
  obtain ⟨root,hr,_⟩ := getMerkleRootSeq_eq Nat.pair (ne_nil_of_length_pos hp)
  exact ⟨⟨root,hr⟩,hp,computation_panics Nat.pair 0 hl (by norm_num) 0⟩

end
end Dpos.Merkle
