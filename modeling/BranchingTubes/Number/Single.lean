import BranchingTubes.Number.Binary

/-!
# Singles and doubles by sign and rank

A single or a double is its sign bit and its rank in the format.  `narrow` rounds a
double to a single: it reads the double as an exact quotient and takes the nearest
single.
-/

set_option autoImplicit false

namespace BranchingTubes

/-- The single with a given sign and rank. -/
def singleOfRank (negative : Bool) (rank : Nat) : Float32 :=
  Float32.ofBits (UInt32.ofNat (if negative then BinaryFormat.binary32.signWeight + rank else rank))

/-- The double with a given sign and rank. -/
def doubleOfRank (negative : Bool) (rank : Nat) : Float :=
  Float.ofBits (UInt64.ofNat (if negative then BinaryFormat.binary64.signWeight + rank else rank))

/-- The sign bit of a single. -/
def singleSign (x : Float32) : Bool := BinaryFormat.binary32.signWeight ≤ x.toBits.toNat

/-- The bits of a single without the sign. -/
def singleRank (x : Float32) : Nat := x.toBits.toNat % BinaryFormat.binary32.signWeight

/-- The nearest single to a double, a half going to the even neighbour.  Values past
the largest single become infinite, and a NaN stays one. -/
def narrow (x : Float) : Float32 :=
  let rank := x.toBits.toNat % BinaryFormat.binary64.signWeight
  let negative : Bool := BinaryFormat.binary64.signWeight ≤ x.toBits.toNat
  if BinaryFormat.binary64.infinity < rank then Float32.ofBits 0x7fc00000
  else if rank = BinaryFormat.binary64.infinity then
    singleOfRank negative BinaryFormat.binary32.infinity
  else
    let (num, den) :=
      ratio 2 (BinaryFormat.binary64.significand rank) (BinaryFormat.binary64.exponent rank)
    singleOfRank negative (BinaryFormat.binary32.nearest num den)

end BranchingTubes
