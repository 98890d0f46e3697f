import Dpos.Decimal

/-! The keys under which pruning counts the leaves of a height, as in `prune.go`: they are parsed
from their end. -/
namespace Dpos.LeafCount
open List Bytes

def leafKeyCountPrefix : Bytes := ofString "..mk.."

def genLeafCountKey (key hash : Bytes) (height hashLen : ℤ) : Bytes :=
  leafKeyCountPrefix ++ key ++ decimal 10 height ++ hash ++ decimal 3 hashLen

inductive Err
  | errSize
  /-- Slice bounds out of range. -/
  | panic

def getKeyHeightFromLeafCountKey (hashkey : Bytes) : Except Err (Bytes × ℤ × Bytes) :=
  if hashkey.length < 6+10+32+3 ∨ ¬leafKeyCountPrefix <:+: hashkey then .error .errSize
  else
    match atoi (hashkey.drop (hashkey.length-3)) with
    | none => .error .errSize
    | some iLen =>
      let k := if leafKeyCountPrefix <+: hashkey then hashkey.drop 6 else hashkey
      let n := (k.length : ℤ)-iLen-10-3
      if n < 0 ∨ k.length < n+10 then .error .panic
      else
        match atoi ((k.drop n.toNat).take 10) with
        | none => .error .errSize
        | some height => if iLen < 0 then .error .panic
          else .ok (k.take n.toNat,height,((k.take (k.length-3)).drop n.toNat).drop 10)

section
variable {key hash : Bytes} {height : ℤ}

lemma decimal_inRange {w : ℕ} {n : ℤ} (h0 : 0 ≤ n) (hn : n < 10^(w+1)) :
    (decimal (w+1) n).length = w+1 ∧ atoi (decimal (w+1) n) = some n := by
  rw [decimal_eq h0 hn,length_padded,atoi_padded (by zify; rwa [abs_of_nonneg h0]),Int.natAbs_of_nonneg h0]
  exact ⟨rfl,rfl⟩

lemma getKeyHeight_append {h l : Bytes} {iLen : ℤ} (hl : 32 ≤ hash.length) (hh : h.length = 10) (h3 : l.length = 3)
    (ha : atoi h = some height) (hi : atoi l = some iLen) (he : iLen = hash.length) :
    getKeyHeightFromLeafCountKey (leafKeyCountPrefix ++ (key ++ (h ++ (hash ++ l)))) = .ok (key,height,hash) := by
  have hp : leafKeyCountPrefix.length = 6 := by decide
  have hd : (leafKeyCountPrefix ++ (key ++ (h ++ (hash ++ l)))).drop
      ((leafKeyCountPrefix ++ (key ++ (h ++ (hash ++ l)))).length-3) = l := by
    simp only [← append_assoc]
    exact drop_left' (by simp; omega)
  have hn : ((key ++ (h ++ (hash ++ l))).length : ℤ)-iLen-10-3 = key.length := by
    simp only [length_append]
    omega
  have hb : (key ++ (h ++ (hash ++ l))).take ((key ++ (h ++ (hash ++ l))).length-3) = key ++ (h ++ hash) := by
    simp only [← append_assoc]
    exact take_left' (by simp; omega)
  rw [getKeyHeightFromLeafCountKey,if_neg (not_or.mpr ⟨by simp only [length_append]; omega,
    not_not.mpr (prefix_append _ _).isInfix⟩),hd,hi]
  simp only [if_pos (prefix_append _ _),drop_left' hp,hn,Int.toNat_natCast,drop_left,take_left,take_left' hh,ha]
  rw [if_neg (by simp only [length_append]; omega),if_neg (by omega),hb,drop_left,drop_left' hh]

/-- The key, the height and the hash are read back whatever the key is, and keys are ordered by height. -/
theorem leafCountKey_sound (hl : 32 ≤ hash.length) (hu : hash.length ≤ 999) (h0 : 0 ≤ height) (hh : height < 10^10) :
    getKeyHeightFromLeafCountKey (genLeafCountKey key hash height hash.length) = .ok (key,height,hash) ∧
    ∀ hash' : Bytes, ∀ height', hash'.length = hash.length → 0 ≤ height' → height' < 10^10 → height < height' →
      genLeafCountKey key hash height hash.length < genLeafCountKey key hash' height' hash'.length := by
  obtain ⟨hlh,hah⟩ := decimal_inRange h0 hh
  obtain ⟨hll,hal⟩ := decimal_inRange (w:=2) (Int.natCast_nonneg hash.length) (by omega)
  simp only [genLeafCountKey,append_assoc]
  refine ⟨getKeyHeight_append hl hlh hll hah hal rfl,?_⟩
  intro hash' height' hle h0' hh' hlt
  refine append_left_lt (append_left_lt (append_lt_append ?_ ?_ _ _))
  · rw [hlh,(decimal_inRange h0' hh').1]
  · rw [decimal_eq h0 hh,decimal_eq h0' hh']
    exact padded_lt (by omega) (by omega)

end

/-- A key that is itself a separator and digits. -/
theorem leafCountKey_sound_dots : getKeyHeightFromLeafCountKey
    (genLeafCountKey (leafKeyCountPrefix ++ [48,49]) (replicate 32 46) 7 32) =
      .ok (leafKeyCountPrefix ++ [48,49],7,replicate 32 46) :=
  (@leafCountKey_sound _ (replicate 32 46) _ (by simp) (by simp) (by decide) (by decide)).1

end Dpos.LeafCount
