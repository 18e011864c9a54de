import BranchingTubes.Interpretation.Setup
import BranchingTubes.Mesh.Tube
import BranchingTubes.Turtle.Command

/-!
# The tube-drawing machine

A machine has the live turtle, the turtles saved at the open branch points, innermost
first, and the mesh drawn so far.  `Machine.step` obeys one instruction and
`Machine.run` a list of them.  `Setup.interpret` checks the setup first and then runs
the machine that `Machine.start` makes of it.

An instruction is a command with an optional length that replaces the turtle's own for
one drawn segment.  Radius and length are clamped to non-negative finite numbers where
they are used, and never in the turtle.
-/

set_option autoImplicit false

namespace BranchingTubes

/-- A command, with a length for this segment only. -/
structure Instruction where
  command : Command
  segmentLength : Option Float32
  deriving DecidableEq, Inhabited

/-- The state of an interpretation. -/
structure Machine where
  turtle : Turtle
  /-- The turtles saved at the open branch points, innermost first. -/
  saved : List Turtle
  mesh : Mesh
  deriving DecidableEq, Inhabited

/-- What a finished interpretation returns. -/
structure Interpretation where
  mesh : Mesh
  /-- The live turtle after the last command. -/
  turtle : Turtle
  /-- How many branches are still open. -/
  openBranches : Nat
  deriving DecidableEq, Inhabited

/-- The greatest number of vertices a mesh may have. -/
def maxVertices : Nat := UInt32.size - 1

/-- A usable extent: NaN, infinite and non-positive ones become zero. -/
def usableExtent (x : Float32) : Float32 := if x.isFinite ∧ 0 < x then x else 0

namespace Machine

/-- The machine before the first instruction. -/
def start (s : Setup) : Machine := ⟨s.turtle, [], .empty⟩

/-- Draws one segment, unless its vertices cannot be indexed any more.  The vertices are counted
in natural numbers, which agrees with a count in 64-bit words only as long as twice the number of
sides fits into one. -/
def draw (s : Setup) (m : Machine) (segmentLength : Option Float32) :
    Except InterpretationError Machine :=
  let sides := s.settings.sides.toNat
  let count := m.mesh.vertexCount + 2 * sides
  if maxVertices < count then .error (.tooManyVertices count)
  else
    let radius := usableExtent (m.turtle.thickness / 2)
    let length := usableExtent (segmentLength.getD m.turtle.length)
    let turtle := m.turtle.advance length
    .ok { m with turtle, mesh := m.mesh.addTube m.turtle turtle radius sides }

/-- Obeys the instruction that stands at an index. -/
def step (s : Setup) (index : Nat) (m : Machine) (i : Instruction) :
    Except InterpretationError Machine :=
  match i.command with
  | .draw => m.draw s i.segmentLength
  | .incline factor =>
    .ok { m with turtle := m.turtle.pitch (s.parameters.inclination * factor) }
  | .azimuth factor =>
    .ok { m with turtle := m.turtle.azimuth (s.parameters.azimuth * factor) }
  | .openBranch =>
    let limit := s.settings.depthLimit.toNat
    if limit ≤ m.saved.length then .error (.tooDeep index limit)
    else .ok { m with turtle := m.turtle.enterBranch, saved := m.turtle :: m.saved }
  | .closeBranch =>
    match m.saved with
    | [] => .error (.nothingToClose index)
    | turtle :: saved => .ok { m with turtle, saved }
  | .decayThickness =>
    .ok { m with
      turtle := { m.turtle with thickness := m.turtle.thickness * s.parameters.thicknessDecay } }
  | .decayLength =>
    .ok { m with turtle := { m.turtle with length := m.turtle.length * s.parameters.lengthDecay } }
  | .ignore => .ok m

/-- Obeys instructions in order, the first of them standing at an index. -/
def run (s : Setup) : Nat → Machine → List Instruction → Except InterpretationError Machine
  | _, m, [] => .ok m
  | index, m, i :: rest =>
    match m.step s index i with
    | .error e => .error e
    | .ok next => run s (index + 1) next rest

/-- The result of a machine that has obeyed all its instructions. -/
def result (m : Machine) : Interpretation := ⟨m.mesh, m.turtle, m.saved.length⟩

end Machine

namespace Setup

/-- Checks the setup and obeys the instructions. -/
def interpret (s : Setup) (instructions : List Instruction) :
    Except InterpretationError Interpretation :=
  match s.fault? with
  | some e => .error e
  | none => (Machine.run s 0 (.start s) instructions).map Machine.result

/-- The instruction of a symbol of the drawing alphabet. -/
def symbolInstruction (c : Char) : Instruction := ⟨.ofSymbol c, none⟩

/-- Interprets a word symbol by symbol, each drawn segment as long as the turtle says. -/
def interpretText (s : Setup) (word : String) : Except InterpretationError Interpretation :=
  s.interpret (word.toList.map symbolInstruction)

/-- Only the mesh of the interpretation; branches left open are no error. -/
def meshOfText (s : Setup) (word : String) : Except InterpretationError Mesh :=
  (s.interpretText word).map Interpretation.mesh

end Setup

end BranchingTubes
