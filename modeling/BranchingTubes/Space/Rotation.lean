import BranchingTubes.Space.Angle
import BranchingTubes.Space.Vector

/-!
# Rotations as quaternions

A rotation is a quaternion with vector part `(x, y, z)` and scalar part `w`.  Nothing
keeps it at unit length except `Rotation.normalize`, which divides by the length and
has no guard: the zero quaternion becomes four NaNs.  The grouping of the sums is part
of the definitions, because single-precision addition is not associative.
-/

set_option autoImplicit false

namespace BranchingTubes

/-- A quaternion acting on vectors. -/
structure Rotation where
  x : Float32
  y : Float32
  z : Float32
  w : Float32
  deriving DecidableEq, Inhabited

namespace Rotation

/-- The rotation that changes nothing. -/
def identity : Rotation := ⟨0, 0, 0, 1⟩

/-- The three components that are not real. -/
def axis (q : Rotation) : Vec3 := ⟨q.x, q.y, q.z⟩

/-- The composition `a * b` applies `b` first. -/
def mul (a b : Rotation) : Rotation where
  x := (a.w * b.x + a.x * b.w) + (a.y * b.z - a.z * b.y)
  y := (a.w * b.y - a.x * b.z) + (a.y * b.w + a.z * b.x)
  z := (a.w * b.z + a.x * b.y) + (a.z * b.w - a.y * b.x)
  w := (a.w * b.w - a.x * b.x) + (-(a.y * b.y) - a.z * b.z)

instance : Mul Rotation := ⟨mul⟩

/-- The sum of the four squares, added in two pairs. -/
def lengthSquared (q : Rotation) : Float32 := (q.x * q.x + q.z * q.z) + (q.y * q.y + q.w * q.w)

/-- The rotation divided by its length, whatever that length is. -/
def normalize (q : Rotation) : Rotation :=
  let length := q.lengthSquared.sqrt
  ⟨q.x / length, q.y / length, q.z / length, q.w / length⟩

/-- Whether all four components are finite. -/
def isFinite (q : Rotation) : Bool :=
  q.x.isFinite && q.y.isFinite && q.z.isFinite && q.w.isFinite

/-- A vector turned by a rotation that is taken to have unit length. -/
def rotate (q : Rotation) (v : Vec3) : Vec3 :=
  let b := q.axis
  (v.scale (q.w * q.w - b.dot b) + b.scale (v.dot b * 2)) + (b.cross v).scale (q.w * 2)

/-- The rotation by an angle in radians about an axis, which is not normalised. -/
def fromAxisAngle (axis : Vec3) (angle : Float32) : Rotation :=
  let half := angle * 0.5
  let v := axis.scale (sine half)
  ⟨v.x, v.y, v.z, cosine half⟩

end Rotation

end BranchingTubes
