import Mathlib.Order.Defs.LinearOrder
import Mathlib.Data.List.Lex
import Mathlib.Tactic

/-! Byte strings with the order of `bytes.Compare`. A nil slice and an empty one
are the same string here; where the code tells them apart the model uses `Option`. -/
namespace Dpos
open List Nat

instance byteOrder : LinearOrder UInt8 where
  le_refl := UInt8.le_refl
  le_trans := fun _ _ _ => UInt8.le_trans
  le_antisymm := fun _ _ => UInt8.le_antisymm
  le_total := UInt8.le_total
  lt_iff_le_not_ge := fun a b => by
    simp only [UInt8.le_iff_toNat_le,UInt8.lt_iff_toNat_lt]
    omega
  toDecidableLE := inferInstance

instance bytesOrder : LinearOrder (List UInt8) where
  __ := (inferInstance : PartialOrder (List UInt8))
  le_total := le_total
  toDecidableLE := inferInstance
  toDecidableLT := fun a b => decidableLT a b
  toDecidableEq := instDecidableEqList
  compare := fun a b => compareOfLessAndEq a b
  compare_eq_compareOfLessAndEq := fun _ _ => rfl

abbrev Bytes := List UInt8

instance lawfulBEq : LawfulBEq Bytes := inferInstance

namespace Bytes

/-- `bytes.Compare`: -1, 0 or 1 as `a` is below, equal to or above `b`. -/
def compare (a b : Bytes) : ℤ := if a < b then -1 else if a = b then 0 else 1

variable {a b : Bytes}

lemma compare_neg : compare a b < 0 ↔ a < b := by
  unfold compare
  split_ifs <;> simp_all

lemma compare_eq_neg_one : compare a b = -1 ↔ a < b := by
  unfold compare
  split_ifs <;> simp_all

lemma compare_eq_zero : compare a b = 0 ↔ a = b := by
  unfold compare
  split_ifs with h h'
  · simp [h.ne]
  · simp [h']
  · simp [h']

def ofChars (cs : List Char) : Bytes := cs.map (fun c => c.toNat.toUInt8)

def ofString (s : String) : Bytes := ofChars s.toList

/-- `%0wd`: at least `w` characters, zeros between the sign and the digits. -/
def decimal (w : ℕ) (n : ℤ) : Bytes :=
  let digits := toDigits 10 n.natAbs
  if n < 0 then ofChars ('-' :: (replicate (w-1-digits.length) '0' ++ digits))
  else ofChars (replicate (w-digits.length) '0' ++ digits)

lemma ofChars_inj {a b : List Char} (ha : ∀ c ∈ a, c.toNat < 256) (hb : ∀ c ∈ b, c.toNat < 256)
    (h : ofChars a = ofChars b) : a = b := by
  induction a generalizing b with
  | nil =>
    cases b with
    | nil => rfl
    | cons c b => simp [ofChars] at h
  | cons c a ih =>
    cases b with
    | nil => simp [ofChars] at h
    | cons d b =>
      obtain ⟨hh,ht⟩ := cons.inj h
      have hco : c.toNat = d.toNat := by
        have hc := ha c mem_cons_self
        have hd := hb d mem_cons_self
        have hm := congrArg UInt8.toNat hh
        simpa [toUInt8,mod_eq_of_lt hc,mod_eq_of_lt hd] using hm
      have hr := ih (fun x hx => ha x (mem_cons_of_mem _ hx))
        (fun x hx => hb x (mem_cons_of_mem _ hx)) ht
      rw [Char.toNat_inj.mp hco,hr]

lemma toNat_of_mem_toDigits {n : ℕ} {c : Char} (hc : c ∈ toDigits 10 n) : 48 ≤ c.toNat ∧ c.toNat < 58 := by
  have hd := isDigit_of_mem_toDigits (by decide) (by decide) hc
  simp only [Char.isDigit,Bool.and_eq_true,decide_eq_true_eq] at hd
  have hl := UInt32.le_iff_toNat_le.mp hd.1
  have hh := UInt32.le_iff_toNat_le.mp hd.2
  exact ⟨hl,lt_succ_of_le hh⟩

lemma toDigits_injective : Function.Injective (toDigits 10) :=
  Function.LeftInverse.injective (g := fun cs => ofDigitChars 10 cs 0)
    fun _ => ofDigitChars_toDigits (by decide) (by decide)

lemma decimal_zero_injective : Function.Injective (decimal 0) := by
  intro m n h
  have hd : ∀ k : ℕ, ∀ c ∈ Nat.toDigits 10 k, c.toNat < 256 := fun k c hc =>
    (toNat_of_mem_toDigits hc).2.trans (by decide)
  have hs : ∀ k : ℕ, ∀ c ∈ '-' :: Nat.toDigits 10 k, c.toNat < 256 :=
    fun k => forall_mem_cons.mpr ⟨by decide,hd k⟩
  have hsi : ∀ j k : ℕ, '-' :: Nat.toDigits 10 j ≠ Nat.toDigits 10 k := by
    intro j k he
    have hme : '-' ∈ Nat.toDigits 10 k := he ▸ mem_cons_self
    have := (toNat_of_mem_toDigits hme).1
    simp at this
  simp only [decimal,Nat.zero_sub,replicate_zero,nil_append] at h
  split_ifs at h with hm hn hn
  · have hdg := toDigits_injective (cons.inj (ofChars_inj (hs _) (hs _) h)).2
    omega
  · exact absurd (ofChars_inj (hs _) (hd _) h) (hsi _ _)
  · exact absurd (ofChars_inj (hd _) (hs _) h).symm (hsi _ _)
  · have hdg := toDigits_injective (ofChars_inj (hd _) (hd _) h)
    omega

end Bytes

/-- A byte string behind its length in unary. -/
def frame (b : Bytes) : Bytes := replicate b.length 1 ++ 0 :: b

lemma frame_append_inj {a b x y : Bytes} (h : frame a ++ x = frame b ++ y) : a = b ∧ x = y := by
  have hle : ∀ m n : ℕ, ∀ u v : Bytes,
      replicate m 1 ++ 0 :: u = replicate n 1 ++ 0 :: v → m = n ∧ u = v := by
    intro m
    induction m with
    | zero =>
      rintro (_ | n) u v hu
      · simpa using hu
      · simp [replicate_succ] at hu
    | succ m ih =>
      rintro (_ | n) u v hu
      · simp [replicate_succ] at hu
      · obtain ⟨hm,hu⟩ := ih n u v (by simpa [replicate_succ] using hu)
        exact ⟨by rw [hm],hu⟩
  simp only [frame,append_assoc,cons_append] at h
  obtain ⟨hl,ha⟩ := hle _ _ _ _ h
  exact append_inj ha hl

/-- A list, each entry in a frame. -/
def frameList {α : Type} (f : α → Bytes) : List α → Bytes
  | [] => []
  | x :: xs => frame (f x) ++ frameList f xs

lemma frameList_injective {α : Type} {f : α → Bytes} (hf : Function.Injective f) :
    Function.Injective (frameList f) := by
  intro xs ys h
  induction xs generalizing ys with
  | nil =>
    cases ys with
    | nil => rfl
    | cons y ys => simp [frameList,frame] at h
  | cons x xs ih =>
    cases ys with
    | nil => simp [frameList,frame] at h
    | cons y ys =>
      obtain ⟨hx,hxs⟩ := frame_append_inj h
      rw [hf hx,ih hxs]

def frameInt : ℤ → Bytes
  | .ofNat n => frame (0 :: replicate n 0)
  | .negSucc n => frame (1 :: replicate n 0)

lemma frameInt_append_inj {a b : ℤ} {x y : Bytes} (h : frameInt a ++ x = frameInt b ++ y) : a = b ∧ x = y := by
  have hr : ∀ m n : ℕ, replicate m (0 : UInt8) = replicate n 0 → m = n := by
    intro m n hm
    simpa using congrArg length hm
  rcases a with m | m <;> rcases b with n | n <;> obtain ⟨he,hx⟩ := frame_append_inj h <;>
    simp only [cons.injEq,true_and] at he
  · exact ⟨by rw [hr m n he],hx⟩
  · exact absurd he.1 (by decide)
  · exact absurd he.1 (by decide)
  · exact ⟨by rw [hr m n he],hx⟩

end Dpos
