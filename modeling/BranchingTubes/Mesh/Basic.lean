import BranchingTubes.Space.Vector

/-!
# Indexed triangle meshes with a skeleton

A mesh holds the vertex positions, the vertex indices of its triangles, three to a
triangle, and one record per drawn segment.  Nothing here ties the three together: a
mesh may come from outside.  `Mesh.triangles` reads the index buffer three at a time and
drops an incomplete triple at its end.
-/

set_option autoImplicit false

namespace BranchingTubes

/-- A drawn segment: the centres of its two rings and their radius. -/
structure Segment where
  base : Vec3
  tip : Vec3
  radius : Float32
  deriving DecidableEq, Inhabited

/-- A triangle mesh with the segments it was drawn from. -/
structure Mesh where
  vertices : Array Vec3
  indices : Array UInt32
  segments : Array Segment
  deriving DecidableEq, Inhabited

/-- The consecutive triples of a list, without an incomplete one at the end. -/
def triples {α : Type} : List α → List (α × α × α)
  | a :: b :: c :: rest => (a, b, c) :: triples rest
  | _ => []

namespace Mesh

/-- A mesh of nothing. -/
def empty : Mesh := ⟨#[], #[], #[]⟩

/-- Whether there are no vertices. -/
def isEmpty (m : Mesh) : Bool := m.vertices.isEmpty

/-- How many vertices there are. -/
def vertexCount (m : Mesh) : Nat := m.vertices.size

/-- How many full triples of indices there are. -/
def triangleCount (m : Mesh) : Nat := m.indices.size / 3

/-- The triangles in order, as triples of vertex indices. -/
def triangles (m : Mesh) : List (UInt32 × UInt32 × UInt32) := triples m.indices.toList

end Mesh

end BranchingTubes
