import BranchingTubes.Json.Value
import BranchingTubes.Mesh.Basic
import BranchingTubes.Turtle.State

/-!
# Geometry as JSON

Vectors and rotations are arrays of their components and nothing else; turtles, segments
and meshes are records.  How a single is written is a parameter of every writer.
-/

set_option autoImplicit false

namespace BranchingTubes

namespace Vec3

/-- An array of the three coordinates. -/
def toJson (single : Float32 → Json) (v : Vec3) : Json :=
  .array [single v.x, single v.y, single v.z]

/-- Exactly three numbers. -/
def ofJson? : Json → Option Vec3
  | .array [x, y, z] => return ⟨← x.single?, ← y.single?, ← z.single?⟩
  | _ => none

end Vec3

namespace Rotation

/-- An array of the four components, the real one last. -/
def toJson (single : Float32 → Json) (q : Rotation) : Json :=
  .array [single q.x, single q.y, single q.z, single q.w]

/-- Exactly four numbers. -/
def ofJson? : Json → Option Rotation
  | .array [x, y, z, w] => return ⟨← x.single?, ← y.single?, ← z.single?, ← w.single?⟩
  | _ => none

end Rotation

namespace Turtle

/-- The fields of a turtle, as they are written. -/
def fieldNames : List String := ["position", "rotation", "thickness", "length", "branch_axis"]

/-- An object of the pose, the pen and the branch axis. -/
def toJson (single : Float32 → Json) (t : Turtle) : Json :=
  .object (fieldNames.zip [t.position.toJson single, t.rotation.toJson single, single t.thickness,
    single t.length, t.branchAxis.toJson single])

/-- Reads the five fields by their names or by their places. -/
def ofJson? (j : Json) : Option Turtle :=
  match j.fields? fieldNames with
  | some [position, rotation, thickness, length, branchAxis] =>
    return {
      position := ← Vec3.ofJson? position
      rotation := ← Rotation.ofJson? rotation
      thickness := ← thickness.single?
      length := ← length.single?
      branchAxis := ← Vec3.ofJson? branchAxis }
  | _ => none

end Turtle

namespace Segment

/-- The fields of a segment, as they are written. -/
def fieldNames : List String := ["start", "end", "radius"]

/-- An object of the two ends and the radius. -/
def toJson (single : Float32 → Json) (s : Segment) : Json :=
  .object (fieldNames.zip [s.base.toJson single, s.tip.toJson single, single s.radius])

/-- Reads the three fields by their names or by their places. -/
def ofJson? (j : Json) : Option Segment :=
  match j.fields? fieldNames with
  | some [base, tip, radius] =>
    return ⟨← Vec3.ofJson? base, ← Vec3.ofJson? tip, ← radius.single?⟩
  | _ => none

end Segment

namespace Mesh

/-- The fields of a mesh, as they are written. -/
def fieldNames : List String := ["vertices", "indices", "segments"]

/-- An object of three arrays; the indices are whole numbers. -/
def toJson (single : Float32 → Json) (m : Mesh) : Json :=
  .object (fieldNames.zip [
    .array (m.vertices.toList.map (Vec3.toJson single)),
    .array (m.indices.toList.map fun i => .ofNat i.toNat),
    .array (m.segments.toList.map (Segment.toJson single))])

/-- The indices have to fit into 32 bits. -/
def ofJson? (j : Json) : Option Mesh :=
  match j.fields? fieldNames with
  | some [vertices, indices, segments] =>
    return {
      vertices := (← vertices.list? Vec3.ofJson?).toArray
      indices := (← indices.list? Json.word32?).toArray
      segments := (← segments.list? Segment.ofJson?).toArray }
  | _ => none

end Mesh

end BranchingTubes
