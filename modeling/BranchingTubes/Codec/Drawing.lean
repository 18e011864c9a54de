import BranchingTubes.Codec.Geometry
import BranchingTubes.Growth.Parameters
import BranchingTubes.Interpretation.Settings
import BranchingTubes.Turtle.Command

/-!
# Parameters, settings and commands as JSON

Parameters and settings are records.  A command without a factor is its name, or an
object that has the name as its only field, with the value null; a command with a factor
is an object that has the name as its only field, with the factor.
-/

set_option autoImplicit false

namespace BranchingTubes

namespace Parameters

/-- The fields of the growth parameters, as they are written. -/
def fieldNames : List String :=
  ["delta_inclination", "delta_azimuth", "initial_thickness", "thickness_decay", "initial_length",
    "length_decay"]

/-- An object of the six numbers. -/
def toJson (single : Float32 → Json) (p : Parameters) : Json :=
  .object (p.entries.map fun entry => (entry.1, single entry.2))

/-- Reads the six numbers by their names or by their places. -/
def ofJson? (j : Json) : Option Parameters :=
  match j.fields? fieldNames with
  | some [inclination, azimuth, thickness, thicknessDecay, length, lengthDecay] =>
    return {
      inclination := ← inclination.single?
      azimuth := ← azimuth.single?
      thickness := ← thickness.single?
      thicknessDecay := ← thicknessDecay.single?
      length := ← length.single?
      lengthDecay := ← lengthDecay.single? }
  | _ => none

end Parameters

namespace TubeSettings

/-- The fields of the tube settings, as they are written. -/
def fieldNames : List String := ["num_sides", "max_stack_depth", "initial_rotation"]

/-- An object of the two counts and the starting orientation. -/
def toJson (single : Float32 → Json) (s : TubeSettings) : Json :=
  .object (fieldNames.zip
    [.ofNat s.sides.toNat, .ofNat s.depthLimit.toNat, s.orientation.toJson single])

/-- The two counts have to fit into 64 bits. -/
def ofJson? (j : Json) : Option TubeSettings :=
  match j.fields? fieldNames with
  | some [sides, depthLimit, orientation] =>
    return ⟨← sides.word64?, ← depthLimit.word64?, ← Rotation.ofJson? orientation⟩
  | _ => none

end TubeSettings

namespace Command

/-- The commands without a factor, under their names. -/
def plainNames : List (String × Command) :=
  [("Draw", .draw), ("Push", .openBranch), ("Pop", .closeBranch),
    ("DecayThickness", .decayThickness), ("DecayLength", .decayLength), ("Ignore", .ignore)]

/-- The name of a command, with its factor if it has one. -/
def toJson (single : Float32 → Json) : Command → Json
  | .draw => .text "Draw"
  | .incline factor => .object [("Incline", single factor)]
  | .azimuth factor => .object [("Azimuth", single factor)]
  | .openBranch => .text "Push"
  | .closeBranch => .text "Pop"
  | .decayThickness => .text "DecayThickness"
  | .decayLength => .text "DecayLength"
  | .ignore => .text "Ignore"

/-- A command without a factor is read from its name, alone or with `null` beside it. -/
def ofJson? : Json → Option Command
  | .text name => plainNames.lookup name
  | .object [(name, .null)] => plainNames.lookup name
  | .object [("Incline", factor)] => factor.single?.map .incline
  | .object [("Azimuth", factor)] => factor.single?.map .azimuth
  | _ => none

end Command

end BranchingTubes
