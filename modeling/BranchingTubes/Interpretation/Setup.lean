import BranchingTubes.Growth.Parameters
import BranchingTubes.Interpretation.Error
import BranchingTubes.Interpretation.Settings
import BranchingTubes.Turtle.State

/-!
# Setups and their faults

A setup is checked before the first command is looked at; `Setup.fault?` is the first
thing wrong with it.
-/

set_option autoImplicit false

namespace BranchingTubes

/-- Everything an interpretation depends on besides its commands. -/
structure Setup where
  parameters : Parameters
  settings : TubeSettings
  deriving DecidableEq, Inhabited

/-- The least squared length of an orientation that can be normalised. -/
def leastSquaredLength : Float32 := 1e-12

namespace Setup

/-- The first fault of a setup: too few sides, then a parameter that is not finite,
then an orientation that cannot be normalised. -/
def fault? (s : Setup) : Option InterpretationError :=
  if s.settings.sides.toNat < 3 then some (.tooFewSides s.settings.sides.toNat)
  else
    match s.parameters.firstNonFinite? with
    | some (name, value) => some (.nonFiniteParameter name value)
    | none =>
      let q := s.settings.orientation
      if !q.isFinite ∨ q.lengthSquared < leastSquaredLength then some (.degenerateRotation q)
      else none

/-- The turtle at the origin, in the normalised starting orientation and with the initial pen. -/
def turtle (s : Setup) : Turtle :=
  .atOrigin s.settings.orientation.normalize s.parameters.thickness s.parameters.length

end Setup

end BranchingTubes
