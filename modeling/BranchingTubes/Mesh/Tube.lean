import BranchingTubes.Mesh.Basic
import BranchingTubes.Turtle.State

/-!
# Open tubes

A segment is drawn as an open tube: a ring of vertices at each end and a strip of
triangles between the rings.  `Turtle.ring` places the vertices of a ring at equal turns
around the heading, starting on the turtle's right.  `strip` joins the ring that starts
at an index with the next ring: corner `j` of the lower ring is `base + j`, that of the
upper ring `base + sides + j`, and the last quadrangle closes at corner zero.
`Mesh.addTube` appends both rings, the strip and the segment.  The strip computes in
32-bit words, as index buffers do.
-/

set_option autoImplicit false

namespace BranchingTubes

namespace Turtle

/-- Corner `j` of a ring with the given number of sides, `offset` being the vector from
the centre to corner zero. -/
def ringCorner (t : Turtle) (offset : Vec3) (sides j : Nat) : Vec3 :=
  let angle := fullTurn * j.toUInt64.toFloat32 / sides.toUInt64.toFloat32
  t.position + (Rotation.fromAxisAngle t.heading angle).rotate offset

/-- The corners of the ring around the turtle, perpendicular to its heading. -/
def ring (t : Turtle) (radius : Float32) (sides : Nat) : List Vec3 :=
  let offset := t.right.scale radius
  (List.range sides).map (t.ringCorner offset sides)

/-- A ring has as many corners as sides. -/
@[simp] theorem length_ring (t : Turtle) (radius : Float32) (sides : Nat) :
    (t.ring radius sides).length = sides := by
  simp [ring]

end Turtle

/-- The two triangles of the quadrangle at corner `j` of a strip, as six indices. -/
def stripQuad (base sides j : UInt32) : List UInt32 :=
  let k := (j + 1) % sides
  [base + j, base + sides + k, base + sides + j, base + j, base + k, base + sides + k]

/-- The indices of the strip between the ring that starts at `base` and the next ring. -/
def strip (base sides : UInt32) : List UInt32 :=
  (List.range sides.toNat).flatMap fun j => stripQuad base sides (UInt32.ofNat j)

namespace Mesh

/-- The mesh with one more tube: rings of the same radius around the turtle before and
after its advance, the strip between them, and the segment. -/
def addTube (m : Mesh) (before after : Turtle) (radius : Float32) (sides : Nat) : Mesh :=
  let ⟨vertices, indices, segments⟩ := m
  let base := vertices.size
  ⟨vertices ++ before.ring radius sides ++ after.ring radius sides,
    indices ++ strip (UInt32.ofNat base) (UInt32.ofNat sides),
    segments.push ⟨before.position, after.position, radius⟩⟩

section

variable (m : Mesh) (before after : Turtle) (radius : Float32) (sides : Nat)

/-- A tube adds the ring around the turtle before its advance, and then the one after it. -/
@[simp] theorem vertices_addTube :
    (m.addTube before after radius sides).vertices.toList =
      m.vertices.toList ++ (before.ring radius sides ++ after.ring radius sides) := by
  simp [addTube]

/-- A tube adds two vertices for each side. -/
@[simp] theorem vertexCount_addTube :
    (m.addTube before after radius sides).vertexCount = m.vertexCount + 2 * sides := by
  rw [vertexCount, ← Array.length_toList, vertices_addTube]
  simp only [List.length_append, Turtle.length_ring, Array.length_toList, vertexCount]
  omega

/-- A tube adds the strip that starts at the next vertex. -/
@[simp] theorem indices_addTube :
    (m.addTube before after radius sides).indices.toList =
      m.indices.toList ++ strip (UInt32.ofNat m.vertexCount) (UInt32.ofNat sides) := by
  simp [addTube, vertexCount]

/-- A tube adds one segment, from the position before the advance to the one after it. -/
@[simp] theorem segments_addTube :
    (m.addTube before after radius sides).segments.toList =
      m.segments.toList ++ [⟨before.position, after.position, radius⟩] := by
  simp [addTube]

end

end Mesh

end BranchingTubes
