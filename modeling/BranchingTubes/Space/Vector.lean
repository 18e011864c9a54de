/-!
# Vectors of single-precision numbers

Points and directions in space.  Every operation is single-precision arithmetic with
one rounding per written operation, evaluated as it is parenthesised here; equality of
vectors is equality of their bits.
-/

set_option autoImplicit false

namespace BranchingTubes

/-- The lesser of two numbers; the second one if they are equal or not comparable. -/
def lesser (a b : Float32) : Float32 := if a < b then a else b

/-- The greater of two numbers; the second one if they are equal or not comparable. -/
def greater (a b : Float32) : Float32 := if b < a then a else b

/-- A point or a direction in space. -/
structure Vec3 where
  x : Float32
  y : Float32
  z : Float32
  deriving DecidableEq, Inhabited

namespace Vec3

/-- The origin. -/
def zero : Vec3 := ⟨0, 0, 0⟩

/-- The first axis. -/
def unitX : Vec3 := ⟨1, 0, 0⟩

/-- The second axis. -/
def unitY : Vec3 := ⟨0, 1, 0⟩

/-- The sum, coordinate by coordinate. -/
def add (a b : Vec3) : Vec3 := ⟨a.x + b.x, a.y + b.y, a.z + b.z⟩

/-- The difference, coordinate by coordinate. -/
def sub (a b : Vec3) : Vec3 := ⟨a.x - b.x, a.y - b.y, a.z - b.z⟩

instance : Add Vec3 := ⟨add⟩
instance : Sub Vec3 := ⟨sub⟩

/-- Each coordinate times a number. -/
def scale (v : Vec3) (s : Float32) : Vec3 := ⟨v.x * s, v.y * s, v.z * s⟩

/-- The scalar product, summed from the first component on. -/
def dot (a b : Vec3) : Float32 := (a.x * b.x + a.y * b.y) + a.z * b.z

/-- The vector that is orthogonal to both, turning right-handed from the first to the second. -/
def cross (a b : Vec3) : Vec3 :=
  ⟨a.y * b.z - a.z * b.y, a.z * b.x - a.x * b.z, a.x * b.y - a.y * b.x⟩

/-- The length of the difference. -/
def distance (a b : Vec3) : Float32 := ((a - b).dot (a - b)).sqrt

/-- The lesser of two vectors in every component. -/
def meet (a b : Vec3) : Vec3 := ⟨lesser a.x b.x, lesser a.y b.y, lesser a.z b.z⟩

/-- The greater of two vectors in every component. -/
def join (a b : Vec3) : Vec3 := ⟨greater a.x b.x, greater a.y b.y, greater a.z b.z⟩

end Vec3

end BranchingTubes
