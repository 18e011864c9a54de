import BranchingTubes.Derivation.Modules
import BranchingTubes.Mesh.Measure
import BranchingTubes.Proofs.DecayedPen
import BranchingTubes.Proofs.UnsignedSums
import Mathlib

/-!
# Masses are never negative

A single is never negative if it is a NaN or at least zero.  Sums and products of such numbers are
never negative, and neither is a square root of anything (`NotBelowZero`); a NaN comes from zero
times infinity.  So lengths are never negative, and volumes and masses are not if the radii are
not.  A radius may be any number in a mesh that comes from outside; in a drawn mesh it is a usable
extent, whatever the signs of the parameters (`Setup.massesNeverNegative_of_interpret`).
-/

set_option autoImplicit false

namespace BranchingTubes

open Float.Model (UnpackedFloat Format)

/-! ## Unpacked numbers -/

/-- An unpacked number is a NaN, or it is not below zero: the zero with a minus sign is not. -/
inductive NotBelowZero : UnpackedFloat → Prop where
  | notANumber : NotBelowZero .notANumber
  | infinity : NotBelowZero (.infinity .positive)
  | zero (sign : UnpackedFloat.Sign) : NotBelowZero (.zero sign)
  | finite (mantissa : ℕ) (exponent : ℤ) (pos : 0 < mantissa) :
      NotBelowZero (.finite .positive mantissa exponent pos)

/-- What has a plus sign is not below zero. -/
theorem PlusSigned.notBelowZero {u : UnpackedFloat} (h : PlusSigned u) : NotBelowZero u := by
  cases h with
  | infinity => exact .infinity
  | zero => exact .zero _
  | finite => exact .finite ..

namespace NotBelowZero

variable {u v : UnpackedFloat}

/-- What is not below zero stays so when it is packed into bits. -/
theorem unpack_pack (h : NotBelowZero u) :
    NotBelowZero (UnpackedFloat.unpack .binary32 (UnpackedFloat.pack .binary32 u)) := by
  cases h with
  | notANumber =>
    have hnan : UnpackedFloat.unpack .binary32 (UnpackedFloat.pack .binary32 .notANumber) =
        .notANumber := UnpackedFloat.unpack_packedNaN
    rw [hnan]
    exact .notANumber
  | infinity => exact PlusSigned.infinity.unpack_pack.notBelowZero
  | zero sign => cases sign <;> exact .zero _
  | finite mantissa exponent pos =>
    exact (PlusSigned.finite mantissa exponent pos).unpack_pack.notBelowZero

/-- The opposite zeros have a sum that is not below zero either, and other numbers with opposite
signs do not occur. -/
theorem add (spec : Format) (hu : NotBelowZero u) (hv : NotBelowZero v) :
    NotBelowZero (UnpackedFloat.add spec u v) := by
  cases hu with
  | notANumber => exact .notANumber
  | infinity => cases hv <;> first | exact .notANumber | exact .infinity
  | zero sign =>
    cases hv with
    | notANumber => exact .notANumber
    | infinity => exact .infinity
    | zero sign' =>
      unfold UnpackedFloat.add
      simp only
      split <;> exact .zero _
    | finite => exact .finite ..
  | finite mantissa exponent pos =>
    cases hv with
    | notANumber => exact .notANumber
    | infinity => exact .infinity
    | zero => exact .finite ..
    | finite mantissa' exponent' pos' =>
      exact ((PlusSigned.finite mantissa exponent pos).add spec
        (.finite mantissa' exponent' pos')).notBelowZero

/-- A product of numbers that are not below zero is not below zero. -/
theorem mul (spec : Format) (hu : NotBelowZero u) (hv : NotBelowZero v) :
    NotBelowZero (UnpackedFloat.mul spec u v) := by
  cases hu with
  | notANumber => exact .notANumber
  | infinity =>
    cases hv with
    | notANumber => exact .notANumber
    | infinity => exact .infinity
    | zero => exact .notANumber
    | finite => exact .infinity
  | zero =>
    cases hv with
    | notANumber => exact .notANumber
    | infinity => exact .notANumber
    | zero => exact .zero _
    | finite => exact .zero _
  | finite =>
    cases hv with
    | notANumber => exact .notANumber
    | infinity => exact .infinity
    | zero => exact .zero _
    | finite => exact (PlusSigned.roundWithAccuracy ..).notBelowZero

/-- The divisor must not be the zero with a minus sign. -/
theorem div (spec : Format) (hu : NotBelowZero u) (hv : PlusSigned v) :
    NotBelowZero (UnpackedFloat.div spec u v) := by
  cases hu with
  | notANumber => exact .notANumber
  | infinity =>
    cases hv with
    | infinity => exact .notANumber
    | zero => exact .infinity
    | finite => exact .infinity
  | zero =>
    cases hv with
    | infinity => exact .zero _
    | zero => exact .notANumber
    | finite => exact .zero _
  | finite =>
    cases hv with
    | infinity => exact .zero _
    | zero => exact .infinity
    | finite => exact (PlusSigned.roundWithAccuracy ..).notBelowZero

/-- The square root of a number below zero is a NaN. -/
theorem sqrt (spec : Format) (u : UnpackedFloat) : NotBelowZero (UnpackedFloat.sqrt spec u) := by
  cases u with
  | notANumber => exact .notANumber
  | infinity sign =>
    cases sign with
    | positive => exact .infinity
    | negative => exact .notANumber
  | zero sign => exact .zero sign
  | finite sign =>
    cases sign with
    | positive => exact (PlusSigned.roundWithAccuracy ..).notBelowZero
    | negative => exact .notANumber

end NotBelowZero

/-! ## Singles -/

/-- A number is a NaN or at least zero. -/
def NeverNegative (x : Float32) : Prop := x.isNaN = true ∨ 0 ≤ x

instance (x : Float32) : Decidable (NeverNegative x) := inferInstanceAs (Decidable (_ ∨ _))

/-- Being at least zero is a comparison of the unpacked number. -/
theorem zero_le_iff {x : Float32} :
    0 ≤ x ↔ UnpackedFloat.le (.zero .positive) x.toModel.unpack = true :=
  decide_eq_true_iff

/-- An unsigned number is at least zero. -/
theorem Unsigned.zero_le {x : Float32} (h : Unsigned x) : 0 ≤ x := by
  rw [zero_le_iff]
  unfold Unsigned at h
  generalize x.toModel.unpack = u at h ⊢
  cases h <;> rfl

/-- A number is never negative if its unpacked form is not below zero, and only then. -/
theorem neverNegative_iff {x : Float32} : NeverNegative x ↔ NotBelowZero x.toModel.unpack := by
  have hnan : x.isNaN = x.toModel.unpack.isNaN := rfl
  unfold NeverNegative
  rw [hnan, zero_le_iff]
  generalize x.toModel.unpack = u
  constructor
  · intro h
    cases u with
    | notANumber => exact .notANumber
    | zero sign => exact .zero sign
    | infinity sign =>
      cases sign with
      | positive => exact .infinity
      | negative => simp [UnpackedFloat.isNaN, UnpackedFloat.le, UnpackedFloat.compare] at h
    | finite sign =>
      cases sign with
      | positive => exact .finite ..
      | negative => simp [UnpackedFloat.isNaN, UnpackedFloat.le, UnpackedFloat.compare] at h
  · intro h
    cases h with
    | notANumber => exact .inl rfl
    | infinity => exact .inr rfl
    | zero => exact .inr rfl
    | finite => exact .inr rfl

namespace NeverNegative

variable {x y : Float32}

/-- A sum of numbers that are never negative is never negative. -/
theorem add (hx : NeverNegative x) (hy : NeverNegative y) : NeverNegative (x + y) := by
  rw [neverNegative_iff] at hx hy ⊢
  exact (hx.add .binary32 hy).unpack_pack

/-- A product of numbers that are never negative is never negative. -/
theorem mul (hx : NeverNegative x) (hy : NeverNegative y) : NeverNegative (x * y) := by
  rw [neverNegative_iff] at hx hy ⊢
  exact (hx.mul .binary32 hy).unpack_pack

/-- A quotient is never negative if its dividend is not and its divisor is unsigned. -/
theorem div (hx : NeverNegative x) (hy : Unsigned y) : NeverNegative (x / y) := by
  rw [neverNegative_iff] at hx ⊢
  exact (hx.div .binary32 hy).unpack_pack

/-- No square root is negative: that of a negative number is a NaN. -/
theorem sqrt (x : Float32) : NeverNegative x.sqrt :=
  neverNegative_iff.mpr (NotBelowZero.sqrt .binary32 x.toModel.unpack).unpack_pack

/-- A running sum of numbers that are never negative is never negative. -/
theorem foldl_add {xs : List Float32} (hxs : ∀ y ∈ xs, NeverNegative y) (hx : NeverNegative x) :
    NeverNegative (xs.foldl (· + ·) x) := by
  induction xs generalizing x with
  | nil => exact hx
  | cons y ys ih =>
    apply ih
    · intro z hz
      exact hxs z (List.mem_cons_of_mem _ hz)
    · exact hx.add (hxs y List.mem_cons_self)

/-- A sum that starts at minus zero is never negative if its terms are not. -/
theorem orderedSum {xs : List Float32} (hxs : ∀ y ∈ xs, NeverNegative y) :
    NeverNegative (orderedSum xs) :=
  foldl_add hxs (.inr rfl)

/-- The ratio of the circle is not negative. -/
theorem circleRatio : NeverNegative circleRatio := .inr rfl

end NeverNegative

/-! ## Segments and meshes -/

namespace Segment

variable {s : Segment} {density : Float32}

/-- No length of a segment is negative. -/
theorem length_neverNegative (s : Segment) : NeverNegative s.length := .sqrt _

/-- A segment without a negative radius has no negative volume. -/
theorem volume_neverNegative (h : 0 ≤ s.radius) : NeverNegative s.volume :=
  ((NeverNegative.circleRatio.mul (.inr h)).mul (.inr h)).mul s.length_neverNegative

/-- A segment without a negative radius has no negative mass. -/
theorem mass_neverNegative (h : 0 ≤ s.radius) (hdensity : 0 ≤ density) :
    NeverNegative (s.mass density) := by
  have hradius : NeverNegative s.radius := .inr h
  have htwo : NeverNegative 2 := .inr rfl
  have hhalf : NeverNegative (s.length / 2) := s.length_neverNegative.div (.of_pos rfl)
  exact (((NeverNegative.circleRatio.mul (hradius.mul hradius)).mul htwo).mul hhalf).mul
    (.inr hdensity)

end Segment

/-- No length, volume or mass in a mesh is a negative number, and every radius is a finite
one that is not negative. -/
structure Mesh.MassesNeverNegative (m : Mesh) (density : Float32) : Prop where
  volume : NeverNegative m.volume
  mass : NeverNegative (m.mass density)
  segments : ∀ s ∈ m.segments,
    NeverNegative s.length ∧ NeverNegative s.volume ∧ NeverNegative (s.mass density)
  radii : ∀ s ∈ m.segments, s.radius.isFinite = true ∧ 0 ≤ s.radius

/-- Volumes and masses are never negative if no radius is. -/
theorem Mesh.massesNeverNegative_of_radii {m : Mesh} {density : Float32} (hdensity : 0 ≤ density)
    (hradii : ∀ s ∈ m.segments, s.radius.isFinite = true ∧ 0 ≤ s.radius) :
    m.MassesNeverNegative density where
  volume := by
    apply NeverNegative.orderedSum
    intro x hx
    obtain ⟨s, hs, rfl⟩ := List.mem_map.mp hx
    exact s.volume_neverNegative (hradii s (Array.mem_toList_iff.mp hs)).2
  mass := by
    apply NeverNegative.orderedSum
    intro x hx
    obtain ⟨s, hs, rfl⟩ := List.mem_map.mp hx
    exact s.mass_neverNegative (hradii s (Array.mem_toList_iff.mp hs)).2 hdensity
  segments := by
    intro s hs
    have hradius := (hradii s hs).2
    exact ⟨s.length_neverNegative, s.volume_neverNegative hradius,
      s.mass_neverNegative hradius hdensity⟩
  radii := hradii

/-- Usable extents are at least zero. -/
theorem zero_le_usableExtent (x : Float32) : 0 ≤ usableExtent x := by
  rcases (usableExtent_nonneg x).2 with hzero | hpos
  · rw [hzero]
    rfl
  · exact (Unsigned.of_pos hpos).zero_le

namespace Setup

variable {density : Float32}

/-- No mass in the mesh of an interpretation is negative. -/
theorem massesNeverNegative_of_interpret {s : Setup} {is : List Instruction} {r : Interpretation}
    (hdensity : 0 ≤ density) (h : s.interpret is = .ok r) :
    r.mesh.MassesNeverNegative density := by
  obtain ⟨-, m, hrun, rfl⟩ := interpret_eq_ok_iff.mp h
  apply Mesh.massesNeverNegative_of_radii hdensity
  intro segment hsegment
  obtain ⟨x, hx⟩ := Machine.radius_of_run hrun segment hsegment
  rw [hx]
  exact ⟨(usableExtent_nonneg x).1, zero_le_usableExtent x⟩

/-- **No negative mass.**  Whatever the parameters and the settings, in every mesh that is drawn
from a word or from the modules of a derivation the volume and the mass, and the length, the volume
and the mass of every segment, are a NaN or at least zero, for a density of at least zero. -/
theorem massesNeverNegative (s : Setup) (hdensity : 0 ≤ density) :
    (∀ (word : String) (mesh : Mesh), s.meshOfText word = .ok mesh →
      mesh.MassesNeverNegative density) ∧
    ∀ (commands : CommandMap) (d : Derivation) (mesh : Mesh),
      s.meshOfModules commands d = .ok mesh → mesh.MassesNeverNegative density := by
  constructor
  · intro word mesh hmesh
    obtain ⟨r, hr, rfl⟩ := meshOfText_eq_ok_iff.mp hmesh
    exact massesNeverNegative_of_interpret hdensity hr
  · intro commands d mesh hmesh
    obtain ⟨r, hr, rfl⟩ := meshOfModules_eq_ok_iff.mp hmesh
    exact massesNeverNegative_of_interpret hdensity hr

/-- Decays that turn the signs of thickness and length.  With short segments there is a mass; with
long ones the volume of the first segment is infinite and that of the second one a NaN. -/
theorem massesNeverNegative_alternating :
    let s (length : Float32) : Setup :=
      ⟨{ Parameters.standard with thickness := 2, thicknessDecay := -1, length, lengthDecay := -1 },
        .standard⟩
    (0 : Float32) ≤ 2 ∧
    (∃ mesh, (s 1).meshOfText "F#F[#F]$F" = .ok mesh ∧ mesh.MassesNeverNegative 2 ∧
      0 < mesh.mass 2) ∧
    ∃ mesh, (s 3e38).meshOfText "F#F[#F]$F" = .ok mesh ∧ mesh.MassesNeverNegative 2 ∧
      (mesh.segments[0]?.map Segment.volume = some (1 / 0)) ∧ mesh.volume.isNaN = true := by
  intro s
  have hdensity : (0 : Float32) ≤ 2 := rfl
  refine ⟨hdensity, ?_, ?_⟩
  · have hmass : ((s 1).meshOfText "F#F[#F]$F").map (fun mesh => decide (0 < mesh.mass 2)) =
        .ok true := by
      decide +kernel
    cases hmesh : (s 1).meshOfText "F#F[#F]$F" with
    | error e => simp [hmesh, Except.map] at hmass
    | ok mesh =>
      refine ⟨mesh, rfl, (massesNeverNegative (s 1) hdensity).1 _ _ hmesh, ?_⟩
      simpa [hmesh, Except.map] using hmass
  · have hvolumes : ((s 3e38).meshOfText "F#F[#F]$F").map (fun mesh =>
        (mesh.segments[0]?.map Segment.volume, mesh.volume.isNaN)) = .ok (some (1 / 0), true) := by
      decide +kernel
    cases hmesh : (s 3e38).meshOfText "F#F[#F]$F" with
    | error e => simp [hmesh, Except.map] at hvolumes
    | ok mesh =>
      refine ⟨mesh, rfl, (massesNeverNegative (s 3e38) hdensity).1 _ _ hmesh, ?_⟩
      simpa [hmesh, Except.map] using hvolumes

end Setup

end BranchingTubes
