import BranchingTubes.Mesh.Basic

/-!
# Fingerprint of a mesh

A 64-bit hash of everything in a mesh, in the order vertices, indices, segments.  Each
word is combined by exclusive or and a multiplication modulo `2 ^ 64`.
-/

set_option autoImplicit false

namespace BranchingTubes

/-- The state of the hash after one more word. -/
def absorb (hash : UInt64) (word : UInt32) : UInt64 :=
  (hash ^^^ word.toUInt64) * 0x100000001b3

/-- The bits of a number; every NaN counts as the canonical one. -/
def wordOf (x : Float32) : UInt32 := if x.isNaN then 0x7fc00000 else x.toBits

/-- The words of the three coordinates. -/
def Vec3.words (v : Vec3) : List UInt32 := [wordOf v.x, wordOf v.y, wordOf v.z]

/-- The words of both ends and of the radius. -/
def Segment.words (s : Segment) : List UInt32 := s.base.words ++ s.tip.words ++ [wordOf s.radius]

namespace Mesh

/-- All words of a mesh, in order. -/
def words (m : Mesh) : List UInt32 :=
  m.vertices.toList.flatMap Vec3.words ++ m.indices.toList ++
    m.segments.toList.flatMap Segment.words

/-- The hash of all words of a mesh. -/
def fingerprint (m : Mesh) : UInt64 := m.words.foldl absorb 0xcbf29ce484222325

end Mesh

end BranchingTubes
