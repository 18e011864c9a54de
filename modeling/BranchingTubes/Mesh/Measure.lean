import BranchingTubes.Mesh.Basic
import BranchingTubes.Space.Angle

/-!
# Extent, volume and mass of a mesh

The bounds are a running least and greatest vertex by components.  Volume and mass treat
every segment as a solid cylinder; totals are summed in the order of the segments,
starting from negative zero, the neutral element of single-precision addition.
-/

set_option autoImplicit false

namespace BranchingTubes

/-- A solid cylinder, given by its radius and half its height. -/
structure Cylinder where
  radius : Float32
  halfHeight : Float32
  deriving DecidableEq

namespace Cylinder

/-- The volume of the cylinder times the density, multiplied in this order. -/
def mass (c : Cylinder) (density : Float32) : Float32 :=
  ((circleRatio * (c.radius * c.radius)) * 2 * c.halfHeight) * density

end Cylinder

namespace Segment

/-- The distance between the two ends. -/
def length (s : Segment) : Float32 := s.base.distance s.tip

/-- The cylinder of a segment. -/
def cylinder (s : Segment) : Cylinder := ⟨s.radius, s.length / 2⟩

/-- The volume of the same cylinder, with the factors in another order than in its mass. -/
def volume (s : Segment) : Float32 := circleRatio * s.radius * s.radius * s.length

/-- The mass of the cylinder of the segment. -/
def mass (s : Segment) (density : Float32) : Float32 := s.cylinder.mass density

end Segment

/-- The sum from left to right; negative zero for no summands. -/
def orderedSum (xs : List Float32) : Float32 := xs.foldl (· + ·) (-0)

namespace Mesh

/-- The least and the greatest corner of the box around the vertices. -/
def bounds (m : Mesh) : Option (Vec3 × Vec3) :=
  match m.vertices.toList with
  | [] => none
  | first :: rest =>
    some ((first :: rest).foldl (fun box v => (box.1.meet v, box.2.join v)) (first, first))

/-- The volumes of the segments, summed in the order of drawing. -/
def volume (m : Mesh) : Float32 := orderedSum (m.segments.toList.map Segment.volume)

/-- The masses of the segments, summed in the order of drawing. -/
def mass (m : Mesh) (density : Float32) : Float32 :=
  orderedSum (m.segments.toList.map fun s => s.mass density)

end Mesh

end BranchingTubes
