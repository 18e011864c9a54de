/-!
# Binary floating-point formats

A binary format is given by the widths of its fraction and exponent fields.  Its
non-negative numbers, taken in increasing order, are numbered `0, 1, 2, …`; this
number is the *rank* of the value, and it is also the bit pattern of the value
without the sign bit.  `BinaryFormat.significand` and `BinaryFormat.exponent` read
a rank as `significand · 2 ^ exponent`; `BinaryFormat.nearest` goes the other way,
from an exact quotient of natural numbers to the rank of the nearest number of the
format, a half going to the even neighbour.
-/

set_option autoImplicit false

namespace BranchingTubes

/-- The quotient `m · base ^ e` as a numerator and a denominator, for an exponent of
either sign. -/
def ratio (base m : Nat) (e : Int) : Nat × Nat :=
  (m * Nat.pow base e.toNat, Nat.pow base (-e).toNat)

/-- The integer nearest to `num / den`; a half goes to the even neighbour. -/
def roundHalfEven (num den : Nat) : Nat :=
  let floor := num / den
  let rest := num % den
  if den < 2 * rest ∨ (2 * rest = den ∧ floor % 2 = 1) then floor + 1 else floor

/-- The greatest `k` with `2 ^ k ≤ num / den`, for a positive quotient. -/
def binaryMagnitude (num den : Nat) : Int :=
  let estimate : Int := (Nat.log2 num : Int) - (Nat.log2 den : Int)
  if num * Nat.pow 2 (-estimate).toNat < den * Nat.pow 2 estimate.toNat then estimate - 1
  else estimate

/-- A binary floating-point format with one sign bit, an exponent field and a
fraction field. -/
structure BinaryFormat where
  /-- Width of the fraction field; a significand has one bit more. -/
  fractionBits : Nat
  /-- Width of the exponent field. -/
  exponentBits : Nat
  deriving DecidableEq

namespace BinaryFormat

/-- Single precision, 32 bits. -/
def binary32 : BinaryFormat := ⟨23, 8⟩

/-- Double precision, 64 bits. -/
def binary64 : BinaryFormat := ⟨52, 11⟩

variable (f : BinaryFormat)

/-- The weight of the hidden leading bit of a significand. -/
def hiddenBit : Nat := Nat.pow 2 f.fractionBits

/-- The exponent of the last place of the smallest numbers of the format. -/
def minExponent : Int := 2 - (Nat.pow 2 (f.exponentBits - 1) : Int) - f.fractionBits

/-- The rank of infinity: the exponent field is all ones and the fraction is zero. -/
def infinity : Nat := (Nat.pow 2 f.exponentBits - 1) * f.hiddenBit

/-- The weight of the sign bit, one past the greatest rank a bit pattern can hold. -/
def signWeight : Nat := Nat.pow 2 (f.fractionBits + f.exponentBits)

/-- The integer significand of the number of a rank.  Ranks with a zero exponent
field are the subnormal numbers, which have no hidden leading bit. -/
def significand (rank : Nat) : Nat :=
  if rank < f.hiddenBit then rank else rank % f.hiddenBit + f.hiddenBit

/-- The exponent of the last place of the number of a rank. -/
def exponent (rank : Nat) : Int := f.minExponent + ((rank / f.hiddenBit - 1 : Nat) : Int)

/-- The rank of the number nearest to `num / den`, a half going to the even
neighbour.  The last place is chosen so that the rounded significand fits; a carry
out of the significand moves to the next exponent by itself because ranks are
consecutive, and everything from the overflow threshold on is infinity. -/
def nearest (num den : Nat) : Nat :=
  if num = 0 then 0
  else
    let place := max f.minExponent (binaryMagnitude num den - f.fractionBits)
    let rounded := roundHalfEven (num * Nat.pow 2 (-place).toNat) (den * Nat.pow 2 place.toNat)
    min f.infinity ((place - f.minExponent).toNat * f.hiddenBit + rounded)

end BinaryFormat

end BranchingTubes
