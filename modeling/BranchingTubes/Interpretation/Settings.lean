import BranchingTubes.Space.Rotation

/-!
# Settings of an interpretation

Besides the growth parameters, an interpretation is told how many sides a tube has, how
deep branches may nest, and which way the trunk points.
-/

set_option autoImplicit false

namespace BranchingTubes

/-- The settings that are not growth parameters. -/
structure TubeSettings where
  /-- Corners of a cross-section. -/
  sides : UInt64
  /-- How many branches may be open at once. -/
  depthLimit : UInt64
  /-- Orientation of the trunk; it is normalised before use. -/
  orientation : Rotation
  deriving DecidableEq, Inhabited

/-- Five sides, a depth limit of 1024 and an upright trunk. -/
def TubeSettings.standard : TubeSettings := ⟨5, 1024, .identity⟩

end BranchingTubes
