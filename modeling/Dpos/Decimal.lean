import Dpos.Bytes
import Mathlib.Data.FinEnum

/-! Decimal numbers of a fixed width: they are read back as what was printed, and
the order of the texts is that of the numbers. -/
namespace Dpos.Bytes

open List

def digitsValue (ds : Bytes) : Option ℤ :=
  if ds ≠ [] ∧ ∀ d ∈ ds, 48 ≤ d ∧ d ≤ 57 then
    some (ds.foldl (fun n d => 10*n + ((d.toNat : ℤ) - 48)) 0)
  else none

/-- `strconv.Atoi`, for texts that are too short to overflow. -/
def atoi : Bytes → Option ℤ
  | 43 :: ds => digitsValue ds
  | 45 :: ds => (digitsValue ds).map Neg.neg
  | ds => digitsValue ds

def padded : ℕ → ℕ → Bytes
  | 0, _ => []
  | w+1, n => padded w (n/10) ++ [UInt8.ofNat (48+n%10)]

@[simp] lemma length_padded (w n : ℕ) : (padded w n).length = w := by
  induction w generalizing n with
  | zero => rfl
  | succ w ih => simp [padded,ih]

lemma toNat_digit (n : ℕ) : (UInt8.ofNat (48+n%10)).toNat = 48+n%10 := by
  rw [UInt8.toNat_ofNat']
  omega

lemma ofChars_digitChar {d : ℕ} (hd : d < 10) : ofChars [Nat.digitChar d] = [UInt8.ofNat (48+d)] := by
  interval_cases d <;> rfl

lemma ofChars_append (a b : List Char) : ofChars (a ++ b) = ofChars a ++ ofChars b := map_append

variable {w n m : ℕ}

lemma ofChars_toDigits (hn : n < 10^(w+1)) :
    ofChars (replicate (w+1-(Nat.toDigits 10 n).length) '0' ++ Nat.toDigits 10 n) = padded (w+1) n := by
  induction w generalizing n with
  | zero =>
    rw [Nat.toDigits_of_lt_base (by simpa using hn)]
    simp only [length_singleton,Nat.sub_self,replicate_zero,nil_append,padded]
    rw [ofChars_digitChar (by simpa using hn),Nat.mod_eq_of_lt (by simpa using hn)]
  | succ w ih =>
    by_cases hlt : n < 10
    · have hze := ih (n:=0) (by positivity)
      rw [Nat.toDigits_of_lt_base (by decide)] at hze
      simp only [length_singleton,Nat.add_sub_cancel] at hze
      have hz : replicate w '0' ++ [Nat.digitChar 0] = replicate (w+1) '0' := replicate_succ'.symm
      rw [Nat.toDigits_of_lt_base hlt,padded,Nat.div_eq_of_lt hlt,← hze,hz,ofChars_append,
        ofChars_digitChar hlt,Nat.mod_eq_of_lt hlt]
      rfl
    · have hd : n/10 < 10^(w+1) := by
        rw [Nat.div_lt_iff_lt_mul (by decide),← pow_succ]
        exact hn
      rw [Nat.toDigits_of_base_le (by decide) (by omega),padded,← ih hd,← append_assoc,
        ofChars_append,ofChars_digitChar (Nat.mod_lt n (by decide)),length_append,
        length_singleton,Nat.add_sub_add_right]

lemma decimal_eq {n : ℤ} (h0 : 0 ≤ n) (hn : n < 10^(w+1)) : decimal (w+1) n = padded (w+1) n.natAbs := by
  have hlt : n.natAbs < 10^(w+1) := by
    zify
    rwa [abs_of_nonneg h0]
  rw [decimal,← ofChars_toDigits hlt]
  simp only [if_neg (not_lt.mpr h0)]

lemma toInt_ofNat (hn : n < 2^63) : (BitVec.ofNat 64 n).toInt = n := by
  have hm : n % 2^64 = n := Nat.mod_eq_of_lt (by omega)
  rw [BitVec.toInt_eq_toNat_cond,BitVec.toNat_ofNat,hm,if_pos (by omega)]

lemma decimal_ofNat (hn : n < 2^63) : decimal 20 (BitVec.ofNat 64 n).toInt = padded 20 n := by
  rw [toInt_ofNat hn,decimal_eq (by omega) (by omega),Int.natAbs_natCast]

lemma decimal_of_neg {n : ℤ} (hn : n < 0) : ∃ ds, decimal w n = 45 :: ds := by
  rw [decimal]
  simp only [if_pos hn]
  exact ⟨_,rfl⟩

lemma foldl_padded (w n : ℕ) (hn : n < 10^w) :
    (padded w n).foldl (fun (m : ℤ) d => 10*m + ((d.toNat : ℤ) - 48)) 0 = n := by
  induction w generalizing n with
  | zero =>
    obtain rfl : n = 0 := by simpa using hn
    rfl
  | succ w ih =>
    have hd : n/10 < 10^w := by
      rw [Nat.div_lt_iff_lt_mul (by decide),← pow_succ]
      exact hn
    rw [padded,foldl_append,ih _ hd,foldl_cons,foldl_nil,toNat_digit]
    omega

lemma mem_padded {d : UInt8} (hd : d ∈ padded w n) : 48 ≤ d ∧ d ≤ 57 := by
  induction w generalizing n with
  | zero => simp [padded] at hd
  | succ w ih =>
    rcases mem_append.mp hd with hd | hd
    · exact ih hd
    · rw [mem_singleton.mp hd]
      simp only [UInt8.le_iff_toNat_le,toNat_digit]
      constructor
      · exact Nat.le_add_right ..
      · exact Nat.add_le_add_left (Nat.lt_succ_iff.mp (Nat.mod_lt n (by decide))) 48

lemma atoi_of_digits {ds : Bytes} (h : ∀ d ∈ ds, 48 ≤ d ∧ d ≤ 57) : atoi ds = digitsValue ds := by
  unfold atoi
  split
  · exact absurd (h 43 (by simp)).1 (by decide)
  · exact absurd (h 45 (by simp)).1 (by decide)
  · rfl

lemma append_lt_append {a b : Bytes} (hl : a.length = b.length) (h : a < b) (x y : Bytes) :
    a ++ x < b ++ y := by
  induction a generalizing b with
  | nil =>
    obtain rfl : b = [] := length_eq_zero_iff.mp hl.symm
    exact absurd h (lt_irrefl _)
  | cons u a ih =>
    cases b with
    | nil => simp at hl
    | cons v b =>
      simp only [cons_append]
      rcases cons_lt_cons_iff.mp h with hu | ⟨rfl,ha⟩
      · exact cons_lt_cons_iff.mpr (.inl hu)
      · exact cons_lt_cons_iff.mpr (.inr ⟨rfl,ih (by simpa using hl) ha⟩)

lemma padded_lt (hm : m < n) (hn : n < 10^w) : padded w m < padded w n := by
  induction w generalizing m n with
  | zero =>
    have : n < 1 := by simpa using hn
    omega
  | succ w ih =>
    have hd : n/10 < 10^w := by
      rw [Nat.div_lt_iff_lt_mul (by decide),← pow_succ]
      exact hn
    rw [padded,padded]
    rcases (Nat.div_le_div_right hm.le : m/10 ≤ n/10).lt_or_eq with hlt | he
    · exact append_lt_append (by simp) (ih hlt hd) _ _
    · rw [he]
      refine append_left_lt (cons_lt_cons_iff.mpr (.inl ?_))
      rw [UInt8.lt_iff_toNat_lt,toNat_digit,toNat_digit]
      omega

lemma padded_le_iff (hm : m < 10^w) (hn : n < 10^w) : padded w m ≤ padded w n ↔ m ≤ n := by
  constructor
  · intro hl
    by_contra hlt
    exact hl.not_gt (padded_lt (not_le.mp hlt) hm)
  · intro hl
    rcases hl.lt_or_eq with hlt | rfl
    · exact (padded_lt hlt hn).le
    · exact le_rfl

lemma atoi_padded (hn : n < 10^(w+1)) : atoi (padded (w+1) n) = some (n : ℤ) := by
  rw [atoi_of_digits fun _ => mem_padded,digitsValue,
    if_pos ⟨ne_nil_of_length_pos (by simp),fun _ => mem_padded⟩,foldl_padded _ _ hn]

end Dpos.Bytes
