import Mathlib.Data.Nat.Bitwise
import Mathlib.Data.Nat.Size
import Mathlib.Tactic

/-! The compact form of a number in 32 bits, as in `difficulty.go`: a byte that counts the bytes
of the number, a sign bit and 23 bits of mantissa. -/
namespace Dpos.Difficulty
open Nat

def compactToBig (compact : ℕ) : ℤ :=
  let mantissa := compact &&& 0x007fffff
  let exponent := compact >>> 24
  let bn := if exponent ≤ 3 then mantissa >>> (8*(3-exponent)) else mantissa <<< (8*(exponent-3))
  if compact &&& 0x00800000 ≠ 0 then -(bn : ℤ) else bn

/-- The length of `n.Bytes()`. -/
def byteLen (n : ℤ) : ℕ := (n.natAbs.size+7)/8

def bigToCompact (n : ℤ) : ℕ :=
  if n = 0 then 0
  else
    let exponent := byteLen n
    let mantissa := if exponent ≤ 3 then n.natAbs <<< (8*(3-exponent)) % 2^32
      else (n >>> (8*(exponent-3))).natAbs % 2^32
    let compact := if mantissa &&& 0x00800000 ≠ 0 then ((exponent+1) <<< 24) % 2^32 ||| mantissa >>> 8
      else (exponent <<< 24) % 2^32 ||| mantissa
    if n < 0 then compact ||| 0x00800000 else compact

def calcWork (bits : ℕ) : ℤ :=
  let difficultyNum := compactToBig bits
  if difficultyNum ≤ 0 then 0 else 2^256/(difficultyNum+1)

section
variable {e m n : ℕ}

lemma signBit_iff : m &&& 0x00800000 ≠ 0 ↔ m/2^23 % 2 = 1 := by
  rw [show 0x00800000 = 2^23 from rfl,and_two_pow,testBit_eq_decide_div_mod_eq]
  simp

lemma pack_eq (he : e < 2^8) (hm : m < 2^24) : (e <<< 24) % 2^32 ||| m = e*2^24+m := by
  rw [mod_eq_of_lt (by rw [shiftLeft_eq]; omega),← shiftLeft_add_eq_or_of_lt hm,shiftLeft_eq]

lemma pack_exponent (hm : m < 2^24) : (e*2^24+m) >>> 24 = e := by
  rw [shiftRight_eq_div_pow]
  omega

/-- The value of an exponent with a mantissa that leaves the sign bit free. -/
theorem compactToBig_pack (hm : m < 2^23) :
    compactToBig (e*2^24+m) = ((m*2^(8*(e-3))/2^(8*(3-e)) : ℕ) : ℤ) := by
  have hs : ¬(e*2^24+m) &&& 0x00800000 ≠ 0 := by
    rw [signBit_iff]
    omega
  have hk : (e*2^24+m) &&& 0x007fffff = m := by
    rw [show 0x007fffff = 2^23-1 from rfl,Nat.and_two_pow_sub_one_eq_mod]
    omega
  simp only [compactToBig,if_neg hs,hk,pack_exponent (show m < 2^24 by omega)]
  split_ifs with h
  · rw [Nat.shiftRight_eq_div_pow,Nat.sub_eq_zero_of_le h,Nat.mul_zero,pow_zero,mul_one]
  · rw [Nat.shiftLeft_eq,Nat.sub_eq_zero_of_le (by omega : 3 ≤ e),Nat.mul_zero,pow_zero,Nat.div_one]

/-- The number of low bits that the compact form drops. -/
def dropped (n : ℕ) : ℕ := 8*(n.size/8-2)

def truncated (n : ℕ) : ℕ := n/2^dropped n*2^dropped n

def scaled (n e : ℕ) : ℕ := n*2^(8*(3-e))/2^(8*(e-3))

lemma mantissa_eq (n e : ℕ) : (if e ≤ 3 then (n : ℤ).natAbs <<< (8*(3-e)) % 2^32
    else ((n : ℤ) >>> (8*(e-3))).natAbs % 2^32) = scaled n e % 2^32 := by
  unfold scaled
  split_ifs with h
  · rw [Nat.sub_eq_zero_of_le h,Nat.shiftLeft_eq,Nat.mul_zero,pow_zero,Nat.div_one,Int.natAbs_natCast]
  · rw [Nat.sub_eq_zero_of_le (by omega : 3 ≤ e),← Int.natCast_shiftRight,Int.natAbs_natCast,
      Nat.shiftRight_eq_div_pow,Nat.mul_zero,pow_zero,mul_one]

lemma le_scaled {k : ℕ} (h0 : 0 < n) : 2^k ≤ scaled n e ↔ k+8*(e-3) < n.size+8*(3-e) := by
  rw [scaled,le_div_iff_mul_le (by positivity),← pow_add,← shiftLeft_eq,← lt_size,
    size_shiftLeft h0.ne']

lemma scaled_shift (n e : ℕ) : scaled n e >>> 8 = scaled n (e+1) := by
  rw [Nat.shiftRight_eq_div_pow,scaled,scaled,Nat.div_div_eq_div_mul,← pow_add]
  rcases Nat.lt_or_ge e 3 with h | h
  · rw [show 8*(3-e) = 8*(3-(e+1))+8 by omega,show 8*(e-3)+8 = 8*(e+1-3)+8 by omega,pow_add,pow_add,
      ← mul_assoc,Nat.mul_div_mul_right _ _ (by positivity)]
  · rw [show 3-e = 0 by omega,show 3-(e+1) = 0 by omega,show 8*(e-3)+8 = 8*(e+1-3) by omega]

lemma scaled_value (n : ℕ) : scaled n (n.size/8+1)*2^(8*(n.size/8+1-3))/2^(8*(3-(n.size/8+1))) =
    truncated n := by
  have hd : 8*(n.size/8+1-3) = dropped n := by
    unfold dropped
    omega
  rw [scaled,hd,truncated]
  rcases lt_or_ge (n.size/8+1) 3 with h | h
  · rw [show dropped n = 0 by rw [dropped]; omega]
    simp
  · rw [show 3-(n.size/8+1) = 0 by omega]
    simp

/-- The exponent counts one byte more where the number would fill the sign bit. -/
theorem bigToCompact_eq (h0 : 0 < n) (hn : n < 256^252) :
    bigToCompact n = (n.size/8+1)*2^24+scaled n (n.size/8+1) ∧ scaled n (n.size/8+1) < 2^23 := by
  have hs : 0 < n.size := size_pos.mpr h0
  have hl : n.size ≤ 2016 := size_le.mpr (hn.trans_eq (by rw [show 256 = 2^8 from rfl,← pow_mul]))
  have hb : scaled n (n.size/8+1) < 2^23 := by
    rw [← not_le,le_scaled h0]
    omega
  have hm : scaled n (byteLen n) < 2^24 := by
    rw [← not_le,le_scaled h0,byteLen,Int.natAbs_natCast]
    omega
  have hm' : scaled n (byteLen n) % 2^32 = scaled n (byteLen n) := mod_eq_of_lt (by omega)
  have hL : byteLen n = (n.size+7)/8 := rfl
  refine ⟨?_,hb⟩
  simp only [bigToCompact,Int.natCast_eq_zero,h0.ne',if_false,mantissa_eq,hm',signBit_iff,(Int.natCast_nonneg n).not_gt]
  split_ifs with hset
  · have hE : byteLen n+1 = n.size/8+1 := by
      have := (le_scaled (k := 23) (e := byteLen n) h0).mp (by omega)
      omega
    rw [scaled_shift,hE,pack_eq (by omega) (by omega)]
  · have hE : byteLen n = n.size/8+1 := by
      have := mt (le_scaled (k := 23) (e := byteLen n) h0).mpr (by omega)
      omega
    rw [hE,pack_eq (by omega) (by omega)]

lemma compactToBig_bigToCompact (hn : n < 256^252) :
    compactToBig (bigToCompact n) = truncated n ∧ bigToCompact n >>> 24-3 = n.size/8-2 := by
  rcases n.eq_zero_or_pos with rfl | h0
  · exact ⟨by simp [compactToBig,bigToCompact,truncated],rfl⟩
  · obtain ⟨he,hm⟩ := bigToCompact_eq h0 hn
    rw [he,compactToBig_pack hm,scaled_value,pack_exponent (by omega)]
    exact ⟨rfl,by omega⟩

lemma truncated_le (n : ℕ) : truncated n ≤ n := div_mul_le_self _ _

/-- The leading bit is kept. -/
theorem le_truncated (h0 : 0 < n) : 2^(n.size-1) ≤ truncated n := by
  have hs : 0 < n.size := Nat.size_pos.mpr h0
  have hd : dropped n ≤ n.size-1 := by
    unfold dropped
    omega
  have hp : 2^(n.size-1) ≤ n := Nat.lt_size.mp (by omega)
  calc 2^(n.size-1) = 2^(n.size-1)/2^dropped n*2^dropped n := (Nat.div_mul_cancel (pow_dvd_pow 2 hd)).symm
    _ ≤ truncated n := Nat.mul_le_mul_right _ (Nat.div_le_div_right hp)

lemma truncated_truncated (n : ℕ) : truncated (truncated n) = truncated n := by
  rcases n.eq_zero_or_pos with rfl | h0
  · rfl
  have hl := Nat.lt_size.mpr (le_truncated h0)
  have hs : (truncated n).size = n.size := le_antisymm (Nat.size_le_size (truncated_le n)) (by omega)
  have hd : dropped (truncated n) = dropped n := by rw [dropped,dropped,hs]
  rw [truncated,hd,truncated,Nat.mul_div_cancel _ (by positivity)]

lemma truncated_mono (h : n ≤ m) : truncated n ≤ truncated m := by
  by_cases hq : n.size/8 = m.size/8
  · have hd : dropped n = dropped m := by rw [dropped,dropped,hq]
    rw [truncated,truncated,hd]
    exact Nat.mul_le_mul_right _ (Nat.div_le_div_right h)
  · have hs := Nat.size_le_size h
    calc truncated n ≤ n := truncated_le n
      _ ≤ 2^n.size := (Nat.lt_size_self n).le
      _ ≤ 2^(m.size-1) := Nat.pow_le_pow_right (by decide) (by omega)
      _ ≤ truncated m := le_truncated (Nat.size_pos.mp (by omega))

end

lemma calcWork_anti {b b' : ℕ} (hb : 0 < compactToBig b) (h : compactToBig b ≤ compactToBig b') :
    calcWork b' ≤ calcWork b := by
  simp only [calcWork,if_neg hb.not_ge,if_neg (hb.trans_le h).not_ge]
  refine Int.le_ediv_of_mul_le (by omega) ((Int.mul_le_mul_of_nonneg_left (by omega) ?_).trans
    (Int.ediv_mul_le _ (by omega : compactToBig b'+1 ≠ 0)))
  exact Int.ediv_nonneg (by positivity) (by omega)

/-- **The compact form** rounds down to the mantissa that it keeps. Rounding again changes nothing
and keeps the order, and the work falls as a positive target grows. -/
theorem compact_truncates {n m b b' : ℕ} (hm : m < 256^252) (hn : n ≤ m) (hb : 0 < compactToBig b)
    (h : compactToBig b ≤ compactToBig b') : let r := compactToBig (bigToCompact n)
    r ≤ n ∧ n-r < (256 : ℤ)^(bigToCompact n >>> 24-3) ∧ compactToBig (bigToCompact r) = r ∧
      r ≤ compactToBig (bigToCompact m) ∧ calcWork b' ≤ calcWork b := by
  obtain ⟨hr,he⟩ := compactToBig_bigToCompact (hn.trans_lt hm)
  have ht := (compactToBig_bigToCompact ((truncated_le n).trans_lt (hn.trans_lt hm))).1
  simp only [hr,he,ht,truncated_truncated,(compactToBig_bigToCompact hm).1]
  refine ⟨by exact_mod_cast truncated_le n,?_,trivial,by exact_mod_cast truncated_mono hn,calcWork_anti hb h⟩
  have hd := div_add_mod n (2^dropped n)
  have hlt := mod_lt n (show 0 < 2^dropped n by positivity)
  have hp : (256 : ℤ)^(n.size/8-2) = (2^dropped n : ℕ) := by
    rw [dropped,pow_mul]
    norm_num
  rw [hp,truncated,mul_comm]
  omega

theorem compact_truncates_signBit : (2^24 : ℕ) < 256^252 ∧ compactToBig (bigToCompact 0xfedcba) = 0xfedc00 ∧
    0xfedcba-compactToBig (bigToCompact 0xfedcba) < 256 := by
  have h := @compact_truncates 0xfedcba (2^24) 0x01010000 0x01020000 (by norm_num) (by norm_num) (by decide) (by decide)
  exact ⟨by norm_num,by decide,h.2.1⟩

/-- A target of zero stands for no work, less than that of a target of one. -/
theorem calcWork_zero_target : ¬∀ b b' : ℕ, compactToBig b ≤ compactToBig b' → calcWork b' ≤ calcWork b :=
  fun h => absurd (h 0 0x01010000 (by decide)) (by decide)

end Dpos.Difficulty
