import BranchingTubes.Number.Shortest
import BranchingTubes.Space.Rotation

/-!
# Why an interpretation fails

Three causes lie in the setup and three in the commands.  The wording is in
`InterpretationError.message`.
-/

set_option autoImplicit false

namespace BranchingTubes

/-- Why there is no mesh. -/
inductive InterpretationError where
  /-- The cross-section encloses nothing. -/
  | tooFewSides (sides : Nat)
  /-- A growth parameter is a NaN or infinite. -/
  | nonFiniteParameter (name : String) (value : Float32)
  /-- The starting orientation is not finite, or too short to be normalised. -/
  | degenerateRotation (rotation : Rotation)
  /-- A branch is closed that was not opened. -/
  | nothingToClose (index : Nat)
  /-- More branches are open than the limit allows. -/
  | tooDeep (index limit : Nat)
  /-- The mesh has more vertices than a 32-bit index can address. -/
  | tooManyVertices (count : Nat)
  deriving DecidableEq

namespace InterpretationError

/-- The text of the error. -/
def message : InterpretationError → String
  | tooFewSides sides => s!"tube cross-section needs at least 3 sides, got {sides}"
  | nonFiniteParameter name value =>
    "growth parameter `" ++ name ++ "` must be finite, got " ++ NumberLayout.diagnostic.render value
  | degenerateRotation q =>
    let components := [q.x, q.y, q.z, q.w].map NumberLayout.diagnostic.render
    "initial rotation must be finite and non-zero, got [" ++ ", ".intercalate components ++ "]"
  | nothingToClose index =>
    "unbalanced branch: `]` at symbol " ++ toString index ++ " has no matching `[`"
  | tooDeep index limit => s!"branch depth limit {limit} exceeded at symbol {index}"
  | tooManyVertices count => s!"vertex count {count} does not fit in a 32-bit index buffer"

end InterpretationError

end BranchingTubes
