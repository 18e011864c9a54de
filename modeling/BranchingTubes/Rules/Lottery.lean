import BranchingTubes.Rules.Rule

/-!
# Choosing by weight

A lottery is made of the weights of its tickets and turns random words into ticket
numbers.  A weight that is not above zero counts as zero.  The ticket numbers are cut at
the partial sums of the weights, the total excepted; a random word becomes a number from
zero to below the total, and the ticket is the number of cuts it has reached.
-/

set_option autoImplicit false

namespace BranchingTubes

/-- The weight that counts: a NaN or a weight below zero counts as zero. -/
def usableWeight (w : Float32) : Float32 := if 0 < w then w else 0

/-- The partial sums of some weights on top of a sum, without the last one. -/
def partialSums (sum : Float32) : List Float32 → List Float32
  | [] => []
  | [_] => []
  | w :: rest => (sum + w) :: partialSums (sum + w) rest

/-- The greatest number below one that has the spacing of the random fractions. -/
def greatestFraction : Float32 := Float32.ofBits 0x3f7ffffe

/-- The greatest number of at most the given rank whose product with every random
fraction is below the total. -/
def fittingScale (total : Float32) : Nat → Float32
  | 0 => 0
  | rank + 1 =>
    let scale := Float32.ofBits (UInt32.ofNat (rank + 1))
    if total ≤ scale * greatestFraction then fittingScale total rank else scale

/-- The random fraction of a word: its upper 23 bits, as a multiple of `2 ^ (-23)` below
one. -/
def unitFraction (word : UInt32) : Float32 :=
  Float32.ofBits ((0x3f800000 : UInt32) ||| (word >>> 9)) - 1

/-- A choice among weighted tickets. -/
structure Lottery where
  /-- The partial sums at which the ticket number goes up. -/
  cuts : List Float32
  /-- What a random fraction is multiplied by. -/
  scale : Float32
  deriving DecidableEq

namespace Lottery

/-- The lottery of a list of weights, or nothing if no weight counts. -/
def ofWeights (weights : List Float32) : Except RuleError (Option Lottery) :=
  let usable := weights.map usableWeight
  let total := usable.foldl (· + ·) 0
  if total == 0 then .ok none
  else if !total.isFinite then .error .infiniteWeight
  else .ok (some ⟨partialSums 0 usable, fittingScale total total.toBits.toNat⟩)

/-- The ticket drawn by a random word. -/
def ticket (l : Lottery) (word : UInt32) : Nat :=
  let drawn := unitFraction word * l.scale + 0
  l.cuts.countP fun cut => cut ≤ drawn

end Lottery

end BranchingTubes
