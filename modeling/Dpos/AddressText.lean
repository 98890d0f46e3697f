import Dpos.Bytes

/-! Addresses and their base58 texts, as in `common/address`. -/
namespace Dpos.AddressText
open List

/-- The hashes and the base58 codec, whose decoding inverts its encoding. -/
structure Codec where
  sha2Sum : Bytes → Bytes
  length_sha2Sum : ∀ b, (sha2Sum b).length = 32
  rimp160 : Bytes → Bytes
  encode : Bytes → Bytes
  decode : Bytes → Option Bytes
  decode_encode : ∀ b, decode (encode b) = some b

/-- `copy` into an array of `n` zeros. -/
def fill (n : ℕ) (b : Bytes) : {b : Bytes // b.length = n} := ⟨(b ++ replicate n 0).take n,by simp⟩

structure Address where
  version : UInt8
  hash160 : {b : Bytes // b.length = 20}
  checksum : Option Bytes
  pubkey : Bytes
  enc58str : Bytes

inductive Err
  | cannotDecode (hs : Bytes)
  | tooShort (dec : Bytes)
  | errCheckChecksum
  deriving DecidableEq

section
variable (co : Codec)

def hashToAddress (version : UInt8) (b : Bytes) : Address := ⟨version,fill 20 (co.rimp160 b),none,b,[]⟩

/-- `String`; that the text and the checksum are kept is left out. -/
def Address.string (a : Address) : Bytes :=
  if a.enc58str = [] then
    let ad := a.version :: a.hash160
    co.encode (ad ++ fill 4 (a.checksum.getD ((co.sha2Sum ad).take 4)))
  else a.enc58str

def newAddrFromString (hs : Bytes) : Option Address × Option Err :=
  match co.decode hs with
  | none => (none,some (.cannotDecode hs))
  | some dec =>
    if dec.length < 25 then (none,some (.tooShort dec))
    else if dec.length = 25 then
      if (co.sha2Sum (dec.take 21)).take 4 ≠ dec.drop 21 then (none,some .errCheckChecksum)
      else (some ⟨dec.headD 0,fill 20 ((dec.take 21).drop 1),some (dec.drop 21),[],hs⟩,none)
    else (none,none)

variable {co}

@[simp] lemma fill_val {n : ℕ} {b : Bytes} (h : b.length = n) : (fill n b).1 = b := by
  subst h
  simp [fill]

lemma newAddrFromString_string (version : UInt8) (b : Bytes) :
    ∃ a, newAddrFromString co ((hashToAddress co version b).string co) = (some a,none) ∧
      a.version = version ∧ a.hash160 = (hashToAddress co version b).hash160 := by
  rw [hashToAddress,newAddrFromString]
  obtain ⟨hash,hh⟩ := fill 20 (co.rimp160 b)
  have hc : ((co.sha2Sum (version :: hash)).take 4).length = 4 := by simp [co.length_sha2Sum]
  have hl : (version :: hash).length = 21 := by simp [hh]
  simp only [Address.string,if_true,Option.getD_none,fill_val hc,co.decode_encode,length_append,hl,hc,
    take_left' hl,drop_left' hl,Nat.reduceAdd,lt_irrefl,ne_eq,not_true_eq_false,if_false]
  exact ⟨_,rfl,rfl,Subtype.ext (fill_val hh)⟩

/-- A text of more than 25 bytes gives neither an address nor an error; the text of an address is read back. -/
theorem newAddrFromString_iff (co : Codec) (hs : Bytes) :
    ((newAddrFromString co hs).1.isSome ≠ (newAddrFromString co hs).2.isSome ∧ ∀ version b,
      ∃ a, newAddrFromString co ((hashToAddress co version b).string co) = (some a,none) ∧
        a.version = version ∧ a.hash160 = (hashToAddress co version b).hash160) ↔
    ∀ dec ∈ co.decode hs, dec.length ≤ 25 := by
  rw [and_iff_left fun version b => newAddrFromString_string version b,newAddrFromString]
  cases co.decode hs with
  | none => simp
  | some dec =>
    dsimp only
    split_ifs <;> simp <;> omega

end

def plain : Codec where
  sha2Sum _ := replicate 32 0
  length_sha2Sum _ := rfl
  rimp160 b := b
  encode b := b
  decode := some
  decode_encode _ := rfl

theorem newAddrFromString_neither : ((newAddrFromString plain (replicate 26 0)).1.isSome,
    (newAddrFromString plain (replicate 26 0)).2.isSome) = (false,false) := by decide

end Dpos.AddressText
