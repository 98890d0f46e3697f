import Mathlib.Data.Nat.Fib.Basic
import Mathlib.Order.Basic
import Mathlib.Tactic

/-! Height-balanced search trees that keep their bindings in the leaves.
An inner node carries only a separator, the least key of its right subtree. The
operations are the textbook ones; the two invariants are kept apart because
rotations preserve the order unconditionally and the balance only conditionally. -/
namespace Dpos
open Nat

inductive LeafTree (K V : Type)
  | leaf (key : K) (value : V)
  | inner (key : K) (left right : LeafTree K V)
  deriving DecidableEq, Repr

namespace LeafTree

variable {K V : Type}

def height : LeafTree K V → ℕ
  | .leaf _ _ => 0
  | .inner _ l r => max l.height r.height + 1

def size : LeafTree K V → ℕ
  | .leaf _ _ => 1
  | .inner _ l r => l.size + r.size

def toList : LeafTree K V → List (K × V)
  | .leaf k v => [(k,v)]
  | .inner _ l r => l.toList ++ r.toList

def keys (t : LeafTree K V) : List K := t.toList.map Prod.fst

def minKey : LeafTree K V → K
  | .leaf k _ => k
  | .inner _ l _ => l.minKey

variable (k : K) (l r t : LeafTree K V)

@[simp] lemma keys_leaf (v : V) : (leaf k v).keys = [k] := rfl
@[simp] theorem keys_inner : (inner k l r).keys = l.keys ++ r.keys := by simp [keys,toList]

@[simp] lemma length_toList : t.toList.length = t.size := by
  induction t with
  | leaf k v => rfl
  | inner k l r ihl ihr => simp [toList,size,ihl,ihr]

lemma minKey_mem : t.minKey ∈ t.keys := by
  induction t with
  | leaf k v => simp [minKey]
  | inner k l r ihl _ => simp [minKey,ihl]

def rotateRight : LeafTree K V → LeafTree K V
  | .inner k (.inner lk a b) r => .inner lk a (.inner k b r)
  | t => t

def rotateLeft : LeafTree K V → LeafTree K V
  | .inner k l (.inner rk a b) => .inner rk (.inner k l a) b
  | t => t

def skew : LeafTree K V → ℤ
  | .leaf _ _ => 0
  | .inner _ l r => (l.height : ℤ) - r.height

@[simp] lemma skew_inner : (inner k l r).skew = (l.height : ℤ) - r.height := rfl

def balance : LeafTree K V → LeafTree K V
  | .leaf k v => .leaf k v
  | .inner k l r =>
    if 1 < (inner k l r).skew then
      if 0 ≤ l.skew then rotateRight (.inner k l r)
      else rotateRight (.inner k (rotateLeft l) r)
    else if (inner k l r).skew < -1 then
      if r.skew ≤ 0 then rotateLeft (.inner k l r)
      else rotateLeft (.inner k l (rotateRight r))
    else .inner k l r

section
variable {k : K} {l r : LeafTree K V}

lemma balance_left_left (h : 1 < (l.height : ℤ) - r.height) (hl : 0 ≤ l.skew) :
    balance (inner k l r) = rotateRight (inner k l r) := by
  rw [balance,skew_inner,if_pos h,if_pos hl]

lemma balance_left_right (h : 1 < (l.height : ℤ) - r.height) (hl : ¬0 ≤ l.skew) :
    balance (inner k l r) = rotateRight (inner k (rotateLeft l) r) := by
  rw [balance,skew_inner,if_pos h,if_neg hl]

lemma balance_right_right (h : (l.height : ℤ) - r.height < -1) (hr : r.skew ≤ 0) :
    balance (inner k l r) = rotateLeft (inner k l r) := by
  rw [balance,skew_inner,if_neg (by omega),if_pos h,if_pos hr]

lemma balance_right_left (h : (l.height : ℤ) - r.height < -1) (hr : ¬r.skew ≤ 0) :
    balance (inner k l r) = rotateLeft (inner k l (rotateRight r)) := by
  rw [balance,skew_inner,if_neg (by omega),if_pos h,if_neg hr]

end

variable (t : LeafTree K V)

@[simp] lemma toList_rotateRight : (rotateRight t).toList = t.toList := by
  rcases t with _ | ⟨k,_ | ⟨lk,a,b⟩,r⟩ <;> simp [rotateRight,toList]

@[simp] lemma toList_rotateLeft : (rotateLeft t).toList = t.toList := by
  rcases t with _ | ⟨k,l,_ | ⟨rk,a,b⟩⟩ <;> simp [rotateLeft,toList]

@[simp] lemma toList_balance : (balance t).toList = t.toList := by
  cases t with
  | leaf k v => rfl
  | inner k l r =>
    simp only [balance]
    split_ifs <;> simp [toList]

@[simp] lemma keys_balance : (balance t).keys = t.keys := by simp [keys]

@[simp] lemma size_balance : (balance t).size = t.size := by rw [← length_toList,toList_balance,length_toList]

lemma minKey_rotateRight : (rotateRight t).minKey = t.minKey := by rcases t with _ | ⟨k,_ | ⟨lk,a,b⟩,r⟩ <;> rfl

lemma minKey_rotateLeft : (rotateLeft t).minKey = t.minKey := by rcases t with _ | ⟨k,l,_ | ⟨rk,a,b⟩⟩ <;> rfl

lemma minKey_balance : (balance t).minKey = t.minKey := by
  cases t with
  | leaf k v => rfl
  | inner k l r =>
    simp only [balance]
    split_ifs <;> simp only [minKey_rotateRight,minKey_rotateLeft,minKey]

variable {t : LeafTree K V}

section
variable [LinearOrder K]

/-- Every separator is the least key on its right and above all keys on its left. -/
def Ordered : LeafTree K V → Prop
  | .leaf _ _ => True
  | .inner k l r => l.Ordered ∧ r.Ordered ∧ (∀ x ∈ l.keys, x < k) ∧ r.minKey = k

lemma minKey_le (h : t.Ordered) : ∀ x ∈ t.keys, t.minKey ≤ x := by
  induction t with
  | leaf k v => simp [minKey]
  | inner k l r ihl ihr =>
    obtain ⟨hl,hr,hlt,hk⟩ := h
    intro x hx
    rcases List.mem_append.mp (by simpa using hx) with hx | hx
    · exact ihl hl x hx
    · have h1 : l.minKey < k := hlt _ l.minKey_mem
      have h2 : r.minKey ≤ x := ihr hr x hx
      exact (h1.trans_le (hk ▸ h2)).le

lemma le_of_mem_right {k : K} {l r : LeafTree K V} (h : (inner k l r).Ordered) : ∀ x ∈ r.keys, k ≤ x := by
  intro x hx
  exact h.2.2.2 ▸ minKey_le h.2.1 x hx

lemma Ordered.sorted (h : t.Ordered) : t.keys.Pairwise (· < ·) := by
  induction t with
  | leaf k v => simp
  | inner k l r ihl ihr =>
    rw [keys_inner,List.pairwise_append]
    refine ⟨ihl h.1,ihr h.2.1,?_⟩
    intro x hx y hy
    exact (h.2.2.1 x hx).trans_le (le_of_mem_right h y hy)

lemma Ordered.rotateRight (h : t.Ordered) : (rotateRight t).Ordered := by
  rcases t with _ | ⟨k,_ | ⟨lk,a,b⟩,r⟩
  · trivial
  · exact h
  · obtain ⟨⟨ha,hb,hab,hl⟩,hr,hlt,hk⟩ := h
    refine ⟨ha,⟨hb,hr,?_,hk⟩,hab,hl⟩
    intro x hx
    exact hlt x (by simp [hx])

lemma Ordered.rotateLeft (h : t.Ordered) : (rotateLeft t).Ordered := by
  rcases t with _ | ⟨k,l,_ | ⟨rk,a,b⟩⟩
  · trivial
  · exact h
  · obtain ⟨hl,⟨ha,hb,hab,hr⟩,hlt,hk⟩ := h
    have hka : a.minKey = k := hk
    refine ⟨⟨hl,ha,hlt,hka⟩,hb,?_,hr⟩
    intro x hx
    rcases List.mem_append.mp (by simpa using hx) with hx | hx
    · exact (hlt x hx).trans (hka ▸ hab _ a.minKey_mem)
    · exact hab x hx

lemma Ordered.balance (h : t.Ordered) : (balance t).Ordered := by
  cases t with
  | leaf k v => trivial
  | inner k l r =>
    obtain ⟨hl,hr,hlt,hk⟩ := h
    simp only [LeafTree.balance]
    split_ifs
    · exact Ordered.rotateRight (t:=.inner k l r) ⟨hl,hr,hlt,hk⟩
    · refine Ordered.rotateRight (t:=.inner k l.rotateLeft r) ⟨hl.rotateLeft,hr,?_,hk⟩
      simpa [keys] using hlt
    · exact Ordered.rotateLeft (t:=.inner k l r) ⟨hl,hr,hlt,hk⟩
    · refine Ordered.rotateLeft (t:=.inner k l r.rotateRight) ⟨hl,hr.rotateRight,hlt,?_⟩
      rw [minKey_rotateRight,hk]
    · exact ⟨hl,hr,hlt,hk⟩

end

/-- The heights of the two children of every inner node differ by at most one. -/
def Balanced : LeafTree K V → Prop
  | .leaf _ _ => True
  | .inner _ l r => l.Balanced ∧ r.Balanced ∧ l.height ≤ r.height+1 ∧ r.height ≤ l.height+1

variable {l r l0 r0 : LeafTree K V} (k : K)

/-- Two balanced subtrees two levels apart are brought together by one or two
rotations; the result is one level above the higher one, or level with it. -/
theorem balance_spec (hl : l.Balanced) (hr : r.Balanced)
    (h1 : l.height ≤ r.height+2) (h2 : r.height ≤ l.height+2) : (balance (inner k l r)).Balanced ∧
      max l.height r.height ≤ (balance (inner k l r)).height ∧
      (balance (inner k l r)).height ≤ max l.height r.height + 1 := by
  simp only [balance]
  split_ifs with hlw hla hlw' hla'
  · -- left-left
    rcases l with _ | ⟨lk,a,b⟩
    · simp only [skew_inner,height] at hlw; omega
    obtain ⟨ha,hb,hab,hba⟩ := hl
    simp only [skew_inner,height] at hlw hla h1 h2
    simp only [rotateRight,Balanced,height]
    refine ⟨⟨ha,⟨hb,hr,?_,?_⟩,?_,?_⟩,?_,?_⟩ <;> omega
  · -- left-right
    rcases l with _ | ⟨lk,a,_ | ⟨bk,b,c⟩⟩
    · simp only [skew_inner,height] at hlw; omega
    · simp only [skew_inner,height] at hla; omega
    obtain ⟨ha,⟨hb,hc,hbc,hcb⟩,hab,hba⟩ := hl
    simp only [skew_inner,height] at hlw hla h1 h2 hab hba
    simp only [rotateLeft,rotateRight,Balanced,height]
    refine ⟨⟨⟨ha,hb,?_,?_⟩,⟨hc,hr,?_,?_⟩,?_,?_⟩,?_,?_⟩ <;> omega
  · -- right-right
    rcases r with _ | ⟨rk,a,b⟩
    · simp only [skew_inner,height] at hlw'; omega
    obtain ⟨ha,hb,hab,hba⟩ := hr
    simp only [skew_inner,height] at hlw' hla' h1 h2
    simp only [rotateLeft,Balanced,height]
    refine ⟨⟨⟨hl,ha,?_,?_⟩,hb,?_,?_⟩,?_,?_⟩ <;> omega
  · -- right-left
    rcases r with _ | ⟨rk,_ | ⟨ak,a,b⟩,c⟩
    · simp only [skew_inner,height] at hlw'; omega
    · simp only [skew_inner,height] at hla'; omega
    obtain ⟨⟨ha,hb,hab,hba⟩,hc,hac,hca⟩ := hr
    simp only [skew_inner,height] at hlw' hla' h1 h2 hac hca
    simp only [rotateLeft,rotateRight,Balanced,height]
    refine ⟨⟨⟨hl,ha,?_,?_⟩,⟨hb,hc,?_,?_⟩,?_,?_⟩,?_,?_⟩ <;> omega
  · simp only [skew_inner] at hlw hlw'
    simp only [Balanced,height]
    refine ⟨⟨hl,hr,?_,?_⟩,?_,?_⟩ <;> omega

lemma balance_of_even (h1 : l.height ≤ r.height+1)
    (h2 : r.height ≤ l.height+1) : balance (inner k l r) = inner k l r := by
  simp only [balance]
  rw [if_neg (by rw [skew_inner]; omega),if_neg (by rw [skew_inner]; omega)]

section
variable (hl : l.Balanced) (hr : r.Balanced)
include hl hr

lemma balance_grow_left
    (h1 : l0.height ≤ r.height+1) (h2 : r.height ≤ l0.height+1)
    (hlo : l0.height ≤ l.height) (hh : l.height ≤ l0.height+1) : (balance (inner k l r)).Balanced ∧
      (inner k l0 r).height ≤ (balance (inner k l r)).height ∧
      (balance (inner k l r)).height ≤ (inner k l0 r).height+1 := by
  obtain ⟨hb,hg,hle⟩ := balance_spec k hl hr (by omega) (by omega)
  simp only [height]
  refine ⟨hb,?_,by omega⟩
  by_cases he : l.height ≤ r.height+1
  · rw [balance_of_even k he (by omega)]
    simp only [height]
    omega
  · omega

lemma balance_grow_right
    (h1 : l.height ≤ r0.height+1) (h2 : r0.height ≤ l.height+1)
    (hlo : r0.height ≤ r.height) (hh : r.height ≤ r0.height+1) : (balance (inner k l r)).Balanced ∧
      (inner k l r0).height ≤ (balance (inner k l r)).height ∧
      (balance (inner k l r)).height ≤ (inner k l r0).height+1 := by
  obtain ⟨hb,hg,hle⟩ := balance_spec k hl hr (by omega) (by omega)
  simp only [height]
  refine ⟨hb,?_,by omega⟩
  by_cases he : r.height ≤ l.height+1
  · rw [balance_of_even k (by omega) he]
    simp only [height]
    omega
  · omega

lemma balance_shrink
    (h1 : l0.height ≤ r0.height+1) (h2 : r0.height ≤ l0.height+1)
    (hll : l.height ≤ l0.height) (hrr : r.height ≤ r0.height)
    (hs : l0.height + r0.height ≤ l.height + r.height + 1) : (balance (inner k l r)).Balanced ∧
      (balance (inner k l r)).height ≤ (inner k l0 r0).height ∧
      (inner k l0 r0).height ≤ (balance (inner k l r)).height+1 := by
  obtain ⟨hb,hg,hle⟩ := balance_spec k hl hr (by omega) (by omega)
  simp only [height]
  refine ⟨hb,by omega,?_⟩
  by_cases he : l.height ≤ r.height+1 ∧ r.height ≤ l.height+1
  · rw [balance_of_even k he.1 he.2]
    simp only [height]
    omega
  · omega

end

/-- A balanced tree of height `h` has at least the `h+2`-nd Fibonacci number of leaves. -/
theorem fib_le_size (h : t.Balanced) : fib (t.height+2) ≤ t.size := by
  induction t with
  | leaf k v => simp [height,size]
  | inner k l r ihl ihr =>
    obtain ⟨hl,hr,h1,h2⟩ := h
    have il := ihl hl
    have ir := ihr hr
    simp only [height,size]
    rcases le_total l.height r.height with hh | hh
    · rw [max_eq_right hh]
      have hm : fib (r.height+1) ≤ fib (l.height+2) := fib_mono (by omega)
      have hf : fib (r.height+1+2) = fib (r.height+1) + fib (r.height+2) := fib_add_two
      omega
    · rw [max_eq_left hh]
      have hm : fib (l.height+1) ≤ fib (r.height+2) := fib_mono (by omega)
      have hf : fib (l.height+1+2) = fib (l.height+1) + fib (l.height+2) := fib_add_two
      omega

end LeafTree
end Dpos
