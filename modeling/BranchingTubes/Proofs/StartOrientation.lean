import BranchingTubes.Proofs.InterpretationOutcome
import BranchingTubes.Proofs.SingleRanks
import BranchingTubes.Proofs.UnsignedSums
import Mathlib

/-!
# Which starting orientations survive normalisation

An orientation is checked for finite components and for a squared length that is not too small,
and then divided by its length.  The check says nothing about a squared length that overflows.
`nondegenerate_start_iff` states what an accepted orientation needs besides: it is normalised to
a rotation with finite components, not all of them zero, if and only if its squared length is
finite.  If it is not, the length is infinite, and all four quotients are zero
(`normalize_of_infinite`); `overflowing_start_is_zero` is an orientation with finite components
to which this happens.
-/

set_option autoImplicit false

namespace BranchingTubes

open Float.Model (UnpackedFloat Format)
open Float.Model.UnpackedFloat

/-- A rotation is the zero quaternion, whatever the signs of its zeros. -/
def Rotation.IsZero (q : Rotation) : Prop :=
  (q.x == 0) = true ∧ (q.y == 0) = true ∧ (q.z == 0) = true ∧ (q.w == 0) = true

instance (q : Rotation) : Decidable q.IsZero :=
  inferInstanceAs (Decidable
    ((q.x == 0) = true ∧ (q.y == 0) = true ∧ (q.z == 0) = true ∧ (q.w == 0) = true))

/-- A rotation has finite components and is not the zero quaternion. -/
def Rotation.Nondegenerate (q : Rotation) : Prop := q.isFinite = true ∧ ¬ q.IsZero

/-! ## Infinite squared lengths -/

section Infinite

variable {a b : Float32}

/-- The square of a finite number has no minus sign. -/
theorem unsigned_mul_self (h : a.isFinite = true) : Unsigned (a * a) := by
  apply PlusSigned.unpack_pack
  change a.toModel.unpack.isFinite = true at h
  generalize a.toModel.unpack = u at h
  cases u with
  | notANumber => cases h
  | infinity sign => cases h
  | zero sign => cases sign <;> exact .zero
  | finite sign m e pos =>
    have hsign : sign * sign = Sign.positive := by cases sign <;> rfl
    unfold UnpackedFloat.mul
    simp only [hsign]
    exact .roundWithAccuracy ..

/-- A number without a minus sign that is not finite is infinity. -/
theorem Unsigned.unpack_of_not_isFinite (h : Unsigned a) (ha : a.isFinite = false) :
    a.toModel.unpack = .infinity .positive := by
  unfold Unsigned at h
  change a.toModel.unpack.isFinite = false at ha
  generalize a.toModel.unpack = u at h ha
  cases h with
  | infinity => rfl
  | zero => cases ha
  | finite => cases ha

/-- The square root of an infinite number is infinite, and a quotient by it is zero. -/
theorem div_sqrt_of_infinite (ha : a.isFinite = true)
    (hb : b.toModel.unpack = .infinity .positive) : HasValue (a / b.sqrt) 0 := by
  have hsqrt : b.sqrt.toModel.unpack = .infinity .positive := by
    change unpack .binary32 (pack .binary32 (UnpackedFloat.sqrt .binary32 b.toModel.unpack)) = _
    rw [hb]
    rfl
  change Denotes (unpack .binary32 (pack .binary32
    (UnpackedFloat.div .binary32 a.toModel.unpack b.sqrt.toModel.unpack))) 0
  rw [hsqrt]
  change a.toModel.unpack.isFinite = true at ha
  generalize a.toModel.unpack = u at ha
  have hquotient : ∃ sign, UnpackedFloat.div .binary32 u (.infinity .positive) = .zero sign := by
    cases u with
    | notANumber => cases ha
    | infinity sign => cases ha
    | zero sign => exact ⟨_, rfl⟩
    | finite sign m e pos => exact ⟨_, rfl⟩
  obtain ⟨sign, hquotient⟩ := hquotient
  have hzero := Denotes.zero sign
  rw [hquotient, hzero.unpack_pack (by norm_num)]
  exact hzero

end Infinite

namespace Rotation

variable {q : Rotation}

/-- A rotation is finite if its four components are. -/
theorem isFinite_iff : q.isFinite = true ↔
    q.x.isFinite = true ∧ q.y.isFinite = true ∧ q.z.isFinite = true ∧ q.w.isFinite = true := by
  unfold isFinite
  simp only [Bool.and_eq_true, and_assoc]

/-- A squared length that overflows makes normalisation give the zero quaternion. -/
theorem normalize_of_infinite (hq : q.isFinite = true) (h : q.lengthSquared.isFinite = false) :
    q.normalize.IsZero := by
  obtain ⟨hx, hy, hz, hw⟩ := isFinite_iff.mp hq
  have hunsigned : Unsigned q.lengthSquared :=
    ((unsigned_mul_self hx).add (unsigned_mul_self hz)).add
      ((unsigned_mul_self hy).add (unsigned_mul_self hw))
  have hinfinite := hunsigned.unpack_of_not_isFinite h
  have hzero {a : Float32} (ha : a.isFinite = true) : (a / q.lengthSquared.sqrt == 0) = true :=
    ((div_sqrt_of_infinite ha hinfinite).beq_iff hasValue_zero).mpr rfl
  exact ⟨hzero hx, hzero hy, hzero hz, hzero hw⟩

end Rotation

/-! ## Finite squared lengths -/

/-- What is at most a power of two is not rounded above it. -/
theorem nearestSingle_le_zpow {x : ℝ} {e : ℤ} (he : -149 ≤ e) (h : x ≤ 2 ^ e) :
    nearestSingle x ≤ 2 ^ e :=
  nearestSingle_le_of_representable (representable_zpow he) h

/-- A number whose square is finite is below `2 ^ 64`. -/
theorem exists_squarable {a : Float32} (h : (a * a).isFinite = true) :
    ∃ x, HasValue a x ∧ |x| < 2 ^ (64 : ℤ) ∧ HasValue (a * a) (nearestSingle (x * x)) := by
  obtain ⟨x, hx⟩ := exists_hasValue (isFinite_of_isFinite_mul h).1
  have hsquare := (hx.mul hx).hasValue_of_isFinite h
  refine ⟨x, hx, ?_, hsquare⟩
  by_contra! hlarge
  have hlt := hsquare.abs_lt
  have hle : (2 : ℝ) ^ (128 : ℤ) ≤ nearestSingle (x * x) := by
    apply le_nearestSingle_of_representable (representable_zpow (by norm_num))
    calc (2 : ℝ) ^ (128 : ℤ) = 2 ^ (64 : ℤ) * 2 ^ (64 : ℤ) := by norm_num
      _ ≤ |x| * |x| := by gcongr
      _ = x * x := abs_mul_abs_self x
  rw [abs_of_nonneg (nearestSingle_nonneg (mul_self_nonneg x))] at hlt
  norm_num at hlt hle
  linarith

/-- A component divided by the length is finite.  If it vanishes, its square was small. -/
theorem exists_quotient {a length : Float32} {x l : ℝ} (ha : HasValue a x)
    (hx : |x| < 2 ^ (64 : ℤ)) (hlength : HasValue length l) (hlow : 2 ^ (-20 : ℤ) ≤ l)
    (hhigh : l ≤ 2 ^ (64 : ℤ)) :
    HasValue (a / length) (nearestSingle (x / l)) ∧
      (nearestSingle (x / l) = 0 → nearestSingle (x * x) ≤ 2 ^ (-46 : ℤ)) := by
  have hpos : 0 < l := lt_of_lt_of_le (by positivity) hlow
  have hsize : |x / l| ≤ 2 ^ (84 : ℤ) := by
    rw [abs_div, abs_of_pos hpos, div_le_iff₀ hpos]
    calc |x| ≤ 2 ^ (64 : ℤ) := hx.le
      _ = 2 ^ (84 : ℤ) * 2 ^ (-20 : ℤ) := by norm_num
      _ ≤ 2 ^ (84 : ℤ) * l := by gcongr
  refine ⟨((ha.div hlength hpos.ne').hasValue_of_abs_le (representable_zpow (by norm_num))
    (by norm_num) hsize).1, fun hzero => ?_⟩
  have hsmall : |x| < 2 ^ (-23 : ℤ) := by
    by_contra! hlarge
    have hle : (2 : ℝ) ^ (-87 : ℤ) ≤ |nearestSingle (x / l)| := by
      rw [abs_nearestSingle]
      apply le_nearestSingle_of_representable (representable_zpow (by norm_num))
      rw [abs_div, abs_of_pos hpos, le_div_iff₀ hpos]
      calc (2 : ℝ) ^ (-87 : ℤ) * l ≤ 2 ^ (-87 : ℤ) * 2 ^ (64 : ℤ) := by gcongr
        _ = 2 ^ (-23 : ℤ) := by norm_num
        _ ≤ |x| := hlarge
    rw [hzero, abs_zero] at hle
    norm_num at hle
  apply nearestSingle_le_zpow (by norm_num)
  calc x * x = |x| * |x| := (abs_mul_abs_self x).symm
    _ ≤ 2 ^ (-23 : ℤ) * 2 ^ (-23 : ℤ) := by gcongr
    _ = 2 ^ (-46 : ℤ) := by norm_num

/-- The least squared length that is accepted is a number of at least `2 ^ (-40)`. -/
theorem hasValue_leastSquaredLength :
    ∃ least, HasValue leastSquaredLength least ∧ 2 ^ (-40 : ℤ) ≤ least := by
  have h : HasValue leastSquaredLength ((0x8cbccc : ℕ) * 2 ^ (-63 : ℤ)) :=
    hasValue_of_fields 0x2b8cbccc (by decide +kernel) (by decide) (by decide) (by decide)
  exact ⟨_, h, by norm_num⟩

/-- The length is neither too small nor too large to divide by. -/
theorem exists_length {a : Float32} {x : ℝ} (ha : HasValue a x) (hlow : 2 ^ (-40 : ℤ) ≤ x) :
    ∃ l, HasValue a.sqrt l ∧ 2 ^ (-20 : ℤ) ≤ l ∧ l ≤ 2 ^ (64 : ℤ) := by
  have hpos : 0 < x := lt_of_lt_of_le (by positivity) hlow
  have hhigh := ha.abs_lt
  rw [abs_of_pos hpos] at hhigh
  have hroot_le : |√x| ≤ 2 ^ (64 : ℤ) := by
    rw [abs_of_nonneg (Real.sqrt_nonneg x), Real.sqrt_le_left (by positivity)]
    norm_num at hhigh ⊢
    exact hhigh.le
  have hroot_ge : 2 ^ (-20 : ℤ) ≤ √x := by
    apply Real.le_sqrt_of_sq_le
    norm_num at hlow ⊢
    exact hlow
  obtain ⟨hlength, hle⟩ := (ha.sqrt hpos.le).hasValue_of_abs_le
    (representable_zpow (e := 64) (by norm_num)) (by norm_num) hroot_le
  refine ⟨_, hlength, ?_, (le_abs_self _).trans hle⟩
  exact le_nearestSingle_of_representable (representable_zpow (by norm_num)) hroot_ge

/-- A sum of two numbers that are at most a power of two is not rounded above its double. -/
theorem nearestSingle_add_le {e : ℤ} {a b : ℝ} (he : -150 ≤ e) (ha : a ≤ 2 ^ e) (hb : b ≤ 2 ^ e) :
    nearestSingle (a + b) ≤ 2 ^ (e + 1) := by
  apply nearestSingle_le_zpow (by omega)
  rw [zpow_add_one₀ (by norm_num)]
  linarith

namespace Rotation

variable {q : Rotation}

/-- A squared length that is finite and not too small makes normalisation give finite
components, not all of them zero. -/
theorem nondegenerate_normalize (hfinite : q.lengthSquared.isFinite = true)
    (hleast : ¬ q.lengthSquared < leastSquaredLength) : q.normalize.Nondegenerate := by
  obtain ⟨hxz, hyw⟩ := isFinite_of_isFinite_add hfinite
  obtain ⟨hxx, hzz⟩ := isFinite_of_isFinite_add hxz
  obtain ⟨hyy, hww⟩ := isFinite_of_isFinite_add hyw
  obtain ⟨x, hx, hx_lt, hx_sq⟩ := exists_squarable hxx
  obtain ⟨y, hy, hy_lt, hy_sq⟩ := exists_squarable hyy
  obtain ⟨z, hz, hz_lt, hz_sq⟩ := exists_squarable hzz
  obtain ⟨w, hw, hw_lt, hw_sq⟩ := exists_squarable hww
  have hsquared : HasValue q.lengthSquared _ :=
    (((hx_sq.add hz_sq).hasValue_of_isFinite hxz).add
      ((hy_sq.add hw_sq).hasValue_of_isFinite hyw)).hasValue_of_isFinite hfinite
  obtain ⟨least, hleast_value, hleast_le⟩ := hasValue_leastSquaredLength
  rw [hsquared.lt_iff hleast_value, not_lt] at hleast
  have hsquared_ge := hleast_le.trans hleast
  obtain ⟨l, hlength, hl_ge, hl_le⟩ := exists_length hsquared hsquared_ge
  obtain ⟨hqx, hx_small⟩ := exists_quotient hx hx_lt hlength hl_ge hl_le
  obtain ⟨hqy, hy_small⟩ := exists_quotient hy hy_lt hlength hl_ge hl_le
  obtain ⟨hqz, hz_small⟩ := exists_quotient hz hz_lt hlength hl_ge hl_le
  obtain ⟨hqw, hw_small⟩ := exists_quotient hw hw_lt hlength hl_ge hl_le
  refine ⟨isFinite_iff.mpr ⟨hqx.isFinite, hqy.isFinite, hqz.isFinite, hqw.isFinite⟩, ?_⟩
  -- Four vanishing components would have had a squared length that is too small.
  rintro ⟨hx0, hy0, hz0, hw0⟩
  have hsmall := nearestSingle_add_le (by norm_num)
    (nearestSingle_add_le (by norm_num) (hx_small ((hqx.beq_iff hasValue_zero).mp hx0))
      (hz_small ((hqz.beq_iff hasValue_zero).mp hz0)))
    (nearestSingle_add_le (by norm_num) (hy_small ((hqy.beq_iff hasValue_zero).mp hy0))
      (hw_small ((hqw.beq_iff hasValue_zero).mp hw0)))
  have hcontra := hsquared_ge.trans hsmall
  norm_num at hcontra

end Rotation

/-! ## The start of an interpretation -/

namespace Setup

variable {s : Setup}

/-- A usable rotation passes both checks of the program. -/
theorem Usable.accepted {q : Rotation} (h : Usable q) :
    q.isFinite = true ∧ ¬ q.lengthSquared < leastSquaredLength := by
  rw [usable_iff, not_or] at h
  simpa using h

/-- The empty word is read if the parameters are accepted, and the turtle stays as it starts. -/
theorem interpretText_empty {r : Interpretation} (h : s.interpretText "" = .ok r) :
    s.fault? = none ∧ r.turtle = s.turtle := by
  unfold interpretText interpret at h
  split at h
  next => cases h
  next hfault =>
    cases h
    exact ⟨hfault, rfl⟩

/-- The turtle of an accepted setup starts with finite components that are not all zero if and
only if the squared length of the given orientation is finite. -/
theorem nondegenerate_start_iff {r : Interpretation} (h : s.interpretText "" = .ok r) :
    r.turtle.rotation.Nondegenerate ↔ s.settings.orientation.lengthSquared.isFinite = true := by
  obtain ⟨hfault, hturtle⟩ := interpretText_empty h
  obtain ⟨hfinite, hleast⟩ := (sound_of_fault?_eq_none hfault).orientation.accepted
  have hstart : r.turtle.rotation = s.settings.orientation.normalize := by
    rw [hturtle]
    rfl
  rw [hstart]
  constructor
  · intro hstart_good
    by_contra hinfinite
    exact hstart_good.2 (Rotation.normalize_of_infinite hfinite (by simpa using hinfinite))
  · intro hsquared
    exact Rotation.nondegenerate_normalize hsquared hleast

/-- An orientation of length three is accepted and normalised. -/
theorem nondegenerate_start_of_length_three :
    let s : Setup := ⟨.standard, { TubeSettings.standard with orientation := ⟨0, 0, 0, 3⟩ }⟩
    ∃ r, s.interpretText "" = .ok r ∧ r.turtle.rotation.Nondegenerate := by
  intro s
  have h : s.interpretText "" = .ok ⟨.empty, s.turtle, 0⟩ := by decide +kernel
  exact ⟨_, h, (nondegenerate_start_iff h).mpr (by decide +kernel)⟩

/-- An accepted orientation, with finite components, from which the turtle starts with the zero
quaternion. -/
theorem overflowing_start_is_zero :
    let s : Setup := ⟨.standard, { TubeSettings.standard with orientation := ⟨1e20, 0, 0, 0⟩ }⟩
    ∃ r, s.interpretText "" = .ok r ∧ r.turtle.rotation.IsZero := by
  intro s
  have h : s.interpretText "" = .ok ⟨.empty, s.turtle, 0⟩ := by decide +kernel
  have hzero : s.turtle.rotation = ⟨0, 0, 0, 0⟩ := by decide +kernel
  refine ⟨_, h, ?_⟩
  rw [hzero]
  decide

end Setup

end BranchingTubes
