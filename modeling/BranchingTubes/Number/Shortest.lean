import BranchingTubes.Number.Decimal

/-!
# The fewest digits that read back

`BinaryFormat.shortest` finds, for the number of a positive rank, the coarsest decimal
grid `10 ^ k` with a point that rounds back to the number, and on it the nearest such
point.  A coarser grid means fewer digits.  `NumberLayout` says how the digits are laid
out; `NumberLayout.render` writes a single.
-/

set_option autoImplicit false

namespace BranchingTubes

/-- The point of the grid `grid · ℕ` nearest to `mid` among those between `low` and
`high`, the ends counting if `closed` holds.  Only the two neighbours of `mid` matter;
of two equally near ones the greater is taken. -/
def gridPoint (grid low mid high : Nat) (closed : Bool) : Option Nat :=
  let inside (g : Nat) : Bool :=
    if closed then decide (low ≤ g * grid ∧ g * grid ≤ high)
    else decide (low < g * grid ∧ g * grid < high)
  let below := mid / grid
  let above := below + 1
  match inside below, inside above with
  | true, true => some (if mid - below * grid < above * grid - mid then below else above)
  | true, false => some below
  | false, true => some above
  | false, false => none

namespace BinaryFormat

/-- The grid point of spacing `10 ^ k` that reads back as the number of a rank, if there
is one.  Everything is scaled by the same factor into natural numbers: a quarter of the
last place is `unit`, a step of the grid is `grid`.  The numbers that round to the value
reach half a place to each side, except that below a power of two the neighbours are
twice as close; the ends round to the value iff its significand is even. -/
def decimalPoint (f : BinaryFormat) (rank : Nat) (k : Int) : Option Nat :=
  let m := f.significand rank
  let e := f.exponent rank - 2
  let unit := Nat.pow 2 e.toNat * Nat.pow 10 (-k).toNat
  let grid := Nat.pow 10 k.toNat * Nat.pow 2 (-e).toNat
  let low := if m = f.hiddenBit ∧ f.hiddenBit < rank then 4 * m - 1 else 4 * m - 2
  gridPoint grid (low * unit) (4 * m * unit) ((4 * m + 2) * unit) (m % 2 = 0)

/-- The greatest exponent of ten tried for a format, above every finite number. -/
def coarsestExponent (f : BinaryFormat) : Nat := Nat.pow 2 (f.exponentBits - 1)

/-- The fewest decimal digits, as an integer and a power of ten, that read back as the
number of a positive rank. -/
def shortest (f : BinaryFormat) (rank : Nat) : Nat × Int :=
  let exponents := (List.range (4 * f.coarsestExponent)).map
    fun (i : Nat) => (f.coarsestExponent : Int) - (i : Int)
  (exponents.findSome? fun k => (f.decimalPoint rank k).map fun g => (g, k)).getD (0, 0)

end BinaryFormat

/-- How the digits of a number are laid out as text. -/
structure NumberLayout where
  /-- Least exponent of the leading digit that is written without an exponent. -/
  leastPositional : Int
  /-- Greatest exponent of the leading digit that is written without an exponent. -/
  greatestPositional : Int
  /-- What separates the digits from a written exponent. -/
  exponentMark : String
  /-- What follows a whole number written without an exponent. -/
  wholeSuffix : String
  notANumber : String
  infinity : String

namespace NumberLayout

/-- Numbers in messages and descriptions: from `1e-4` to below `1e16` they are written
without an exponent and with at least one decimal. -/
def diagnostic : NumberLayout where
  leastPositional := -4
  greatestPositional := 15
  exponentMark := "e"
  wholeSuffix := ".0"
  notANumber := "NaN"
  infinity := "inf"

/-- The layout of a positive number with the given digits and leading exponent. -/
def layDigits (l : NumberLayout) (digits : List Char) (leading : Int) : String :=
  let fraction (ds : List Char) : String :=
    if ds.isEmpty then "" else "." ++ String.ofList ds
  if l.leastPositional ≤ leading ∧ leading ≤ l.greatestPositional then
    if leading < 0 then
      "0." ++ String.ofList (List.replicate (-leading - 1).toNat '0' ++ digits)
    else
      let whole := leading.toNat + 1
      let padded := digits ++ List.replicate (whole - digits.length) '0'
      let rest := padded.drop whole
      String.ofList (padded.take whole) ++ (if rest.isEmpty then l.wholeSuffix else fraction rest)
  else
    String.ofList (digits.take 1) ++ fraction (digits.drop 1) ++ l.exponentMark ++ toString leading

/-- The text of a single: its shortest digits, laid out. -/
def render (l : NumberLayout) (x : Float32) : String :=
  if x.isNaN then l.notANumber
  else
    let sign := if singleSign x then "-" else ""
    let rank := singleRank x
    if rank = BinaryFormat.binary32.infinity then sign ++ l.infinity
    else if rank = 0 then sign ++ l.layDigits ['0'] 0
    else
      let (g, k) := BinaryFormat.binary32.shortest rank
      let digits := Nat.toDigits 10 g
      sign ++ l.layDigits digits (k + digits.length - 1)

end NumberLayout

end BranchingTubes
