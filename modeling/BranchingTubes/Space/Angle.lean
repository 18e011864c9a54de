import BranchingTubes.Number.Single

/-!
# Angles

Angles are single-precision numbers in radians.  The sine and the cosine of a finite angle
are correctly rounded here, where a standard library leaves their precision unspecified.
They are computed in fixed point, as integers that stand for themselves over `angleUnit`:
the angle is exact there, whole quarter turns are taken from it, and the power series is
summed at what is left, which is between minus an eighth and an eighth of a turn.
-/

set_option autoImplicit false

namespace BranchingTubes

/-- The ratio of a circle's circumference to its diameter. -/
def circleRatio : Float32 := Float32.ofBits 0x40490fdb

/-- A full turn in radians. -/
def fullTurn : Float32 := Float32.ofBits 0x40c90fdb

/-- What stands for one in fixed point.  Every finite single is a whole number of its
parts. -/
def angleUnit : Nat := Nat.pow 2 256

/-- A quarter turn in fixed point, rounded. -/
def quarterTurn : Nat := 0x1921fb54442d18469898cc51701b839a252049c1114cf98e804177d4c76273645

/-- The series `1 - u / (k (k + 1)) + u ^ 2 / (k (k + 1) (k + 2) (k + 3)) - …` in fixed point,
cut off after some terms.  For the square `u` of an angle it is the cosine if `k` is one, and
the sine divided by the angle if `k` is two. -/
def alternatingSeries (u : Nat) : Nat → Nat → Nat
  | 0, _ => angleUnit
  | terms + 1, k =>
    angleUnit - u * alternatingSeries u terms (k + 2) / (angleUnit * (k * (k + 1)))

/-- The sine in fixed point of so many quarter turns and a rest. -/
def quarterSine (quarters : Nat) (rest : Int) : Int :=
  let square := rest.natAbs * rest.natAbs / angleUnit
  let sine := rest * alternatingSeries square 12 2 / angleUnit
  let cosine := alternatingSeries square 12 1
  match quarters % 4 with
  | 0 => sine
  | 1 => cosine
  | 2 => -sine
  | _ => -cosine

/-- The sine in fixed point of so many quarter turns more than the number of a rank. -/
def turnedSine (quarters rank : Nat) : Int :=
  let angle := BinaryFormat.binary32.significand rank *
    Nat.pow 2 (BinaryFormat.binary32.exponent rank + 256).toNat
  let whole := (2 * angle + quarterTurn) / (2 * quarterTurn)
  quarterSine (whole + quarters) (angle - whole * quarterTurn)

/-- The single nearest to a number in fixed point, with its sign turned or not. -/
def roundedFixed (turned : Bool) (t : Int) : Float32 :=
  singleOfRank (turned != decide (t < 0)) (BinaryFormat.binary32.nearest t.natAbs angleUnit)

/-- The sine of an angle; of an infinite angle and of a NaN, a NaN.  A standard library does not
specify the precision of its sine: rounding it correctly is a choice within that freedom, and on
some platforms the last bit differs. -/
def sine (angle : Float32) : Float32 :=
  if BinaryFormat.binary32.infinity ≤ singleRank angle then Float32.ofBits 0x7fc00000
  else roundedFixed (singleSign angle) (turnedSine 0 (singleRank angle))

/-- The cosine of an angle; of an infinite angle and of a NaN, a NaN.  As with the sine, rounding
it correctly is a choice within an unspecified precision, and on some platforms the last bit
differs. -/
def cosine (angle : Float32) : Float32 :=
  if BinaryFormat.binary32.infinity ≤ singleRank angle then Float32.ofBits 0x7fc00000
  else roundedFixed false (turnedSine 1 (singleRank angle))

end BranchingTubes
