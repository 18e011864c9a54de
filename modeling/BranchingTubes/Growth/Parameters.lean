import BranchingTubes.Space.Angle

/-!
# Growth parameters

The six numbers that steer the turtle.  Any finite value is allowed; sizes that are not
positive give degenerate geometry, not an error.
-/

set_option autoImplicit false

namespace BranchingTubes

/-- The numbers that steer the turtle; angles are in radians. -/
structure Parameters where
  inclination : Float32
  azimuth : Float32
  thickness : Float32
  /-- Factor on the diameter at each decay of the thickness. -/
  thicknessDecay : Float32
  length : Float32
  /-- Factor on the length at each decay of the length. -/
  lengthDecay : Float32
  deriving DecidableEq, Inhabited

namespace Parameters

/-- A sixth and a third of a turn, a unit pen, and decays of `0.7` and `0.8`. -/
def standard : Parameters where
  inclination := circleRatio / 6
  azimuth := 2 * circleRatio / 3
  thickness := 1
  thicknessDecay := 0.7
  length := 1
  lengthDecay := 0.8

/-- The parameters with the names by which errors report them, in the order of the check. -/
def entries (p : Parameters) : List (String × Float32) :=
  [("delta_inclination", p.inclination), ("delta_azimuth", p.azimuth),
    ("initial_thickness", p.thickness), ("thickness_decay", p.thicknessDecay),
    ("initial_length", p.length), ("length_decay", p.lengthDecay)]

/-- The first parameter that is a NaN or infinite. -/
def firstNonFinite? (p : Parameters) : Option (String × Float32) :=
  p.entries.find? fun entry => !entry.2.isFinite

end Parameters

end BranchingTubes
