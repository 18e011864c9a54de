import BranchingTubes.Number.Single

/-!
# Decimal numbers and their nearest binary numbers

A decimal is a sign, a natural number of units and a power of ten, with no bound on
either.  It keeps the sign of zero.  `Decimal.toDouble` and `Decimal.toSingle` round
it once, to the nearest number of the format; `Decimal.ofSingle?` is the exact decimal
value of a finite single.
-/

set_option autoImplicit false

namespace BranchingTubes

/-- The number `digits · 10 ^ exponent`, negated if `negative` holds. -/
structure Decimal where
  negative : Bool
  digits : Nat
  exponent : Int
  deriving DecidableEq

namespace Decimal

/-- The rank of the number of a format nearest to the magnitude of a decimal.  The
first and the last case only spare the evaluation of enormous powers of ten: beyond
them the magnitude is at least `10 ^ 401`, or below `10 ^ (-399)`. -/
def rank (f : BinaryFormat) (d : Decimal) : Nat :=
  if d.digits = 0 then 0
  else if 400 < d.exponent then f.infinity
  else if d.exponent + Nat.log2 d.digits < -400 then 0
  else
    let (num, den) := ratio 10 d.digits d.exponent
    f.nearest num den

/-- The nearest double, a half going to the even neighbour. -/
def toDouble (d : Decimal) : Float := doubleOfRank d.negative (d.rank .binary64)

/-- The nearest single, rounded from the decimal itself and not from its double. -/
def toSingle (d : Decimal) : Float32 := singleOfRank d.negative (d.rank .binary32)

/-- An integer as a decimal. -/
def ofInt (i : Int) : Decimal := ⟨i < 0, i.natAbs, 0⟩

/-- The decimal equal to a finite single; a power of two below one is a power of five
over the same power of ten. -/
def ofSingle? (x : Float32) : Option Decimal :=
  let rank := singleRank x
  if BinaryFormat.binary32.infinity ≤ rank then none
  else
    let m := BinaryFormat.binary32.significand rank
    let e := BinaryFormat.binary32.exponent rank
    some (if 0 ≤ e then ⟨singleSign x, m * Nat.pow 2 e.toNat, 0⟩
      else ⟨singleSign x, m * Nat.pow 5 (-e).toNat, e⟩)

end Decimal

end BranchingTubes
