import BranchingTubes.Space.Rotation

/-!
# The drawing turtle

A turtle has a position, an orientation and a pen: the diameter and the length of the
segment it would draw next.  It grows along its own second axis, its heading.  It also
remembers a *branch axis*, the heading it had when the current branch was opened;
azimuth turns go around that axis.  A turtle is a plain value, so a saved turtle is not
touched by what is done to the live one.
-/

set_option autoImplicit false

namespace BranchingTubes

/-- The state of the drawing turtle. -/
structure Turtle where
  position : Vec3
  /-- How it is oriented; growth follows the local second axis. -/
  rotation : Rotation
  thickness : Float32
  length : Float32
  /-- The heading at the innermost open branch point. -/
  branchAxis : Vec3
  deriving DecidableEq, Inhabited

namespace Turtle

/-- The direction of growth. -/
def heading (t : Turtle) : Vec3 := t.rotation.rotate .unitY

/-- The direction around which the turtle pitches. -/
def right (t : Turtle) : Vec3 := t.rotation.rotate .unitX

/-- A turtle at the origin; its branch axis is its own heading. -/
def atOrigin (rotation : Rotation) (thickness length : Float32) : Turtle :=
  { position := .zero, rotation, thickness, length, branchAxis := rotation.rotate .unitY }

/-- The upright turtle with a unit pen. -/
def upright : Turtle := atOrigin .identity 1 1

/-- Moves forward without turning. -/
def advance (t : Turtle) (distance : Float32) : Turtle :=
  { t with position := t.position + t.heading.scale distance }

/-- Turns around the turtle's own first axis. -/
def pitch (t : Turtle) (angle : Float32) : Turtle :=
  { t with rotation := (t.rotation * .fromAxisAngle .unitX angle).normalize }

/-- Turns around the branch axis, whichever way the turtle has turned since. -/
def azimuth (t : Turtle) (angle : Float32) : Turtle :=
  { t with rotation := (.fromAxisAngle t.branchAxis angle * t.rotation).normalize }

/-- Takes the current heading as the branch axis. -/
def enterBranch (t : Turtle) : Turtle := { t with branchAxis := t.heading }

end Turtle

end BranchingTubes
