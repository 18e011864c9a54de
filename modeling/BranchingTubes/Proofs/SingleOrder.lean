import BranchingTubes.Proofs.SingleArithmetic
import Mathlib

/-!
# The order of singles

A single that is no NaN is an extended real number (`HasExtendedValue`), and comparing such
singles is comparing these numbers.  So they are in a linear order but for the two zeros, which are
one number: singles that are at most each other are equal, or zeros of different signs
(`eq_or_zeros_of_le`).
-/

set_option autoImplicit false

namespace BranchingTubes

open Float.Model (UnpackedFloat)
open Float.Model.UnpackedFloat

/-! ## Unpacked numbers -/

/-- An unpacked number is an extended real number. -/
inductive DenotesExtended : UnpackedFloat → EReal → Prop
  | top : DenotesExtended (.infinity .positive) ⊤
  | bot : DenotesExtended (.infinity .negative) ⊥
  | finite {u : UnpackedFloat} {x : ℝ} (h : Denotes u x) : DenotesExtended u x

/-- Comparing in the extended reals is comparing in the reals. -/
theorem compare_coe (x y : ℝ) : compare (x : EReal) y = compare x y := by
  rcases lt_trichotomy x y with hlt | rfl | hgt
  · rw [compare_lt_iff_lt.mpr hlt, compare_lt_iff_lt.mpr (EReal.coe_lt_coe_iff.mpr hlt)]
  · rw [compare_eq_iff_eq.mpr rfl, compare_eq_iff_eq.mpr rfl]
  · rw [compare_gt_iff_gt.mpr hgt, compare_gt_iff_gt.mpr (EReal.coe_lt_coe_iff.mpr hgt)]

namespace DenotesExtended

variable {u v : UnpackedFloat} {x y : EReal}

/-- Only infinities are compared without looking at the other number. -/
theorem compare_eq (hu : DenotesExtended u x) (hv : DenotesExtended v y) :
    UnpackedFloat.compare u v = some (compare x y) := by
  cases hu with
  | top =>
    cases hv with
    | top => rw [compare_eq_iff_eq.mpr rfl]; rfl
    | bot => rw [compare_gt_iff_gt.mpr bot_lt_top]; rfl
    | finite hv =>
      rw [compare_gt_iff_gt.mpr (EReal.coe_lt_top _)]
      cases hv <;> rfl
  | bot =>
    cases hv with
    | top => rw [compare_lt_iff_lt.mpr bot_lt_top]; rfl
    | bot => rw [compare_eq_iff_eq.mpr rfl]; rfl
    | finite hv =>
      rw [compare_lt_iff_lt.mpr (EReal.bot_lt_coe _)]
      cases hv <;> rfl
  | finite hu =>
    cases hv with
    | top =>
      rw [compare_lt_iff_lt.mpr (EReal.coe_lt_top _)]
      cases hu <;> rfl
    | bot =>
      rw [compare_gt_iff_gt.mpr (EReal.bot_lt_coe _)]
      cases hu <;> rfl
    | finite hv => rw [hu.compare_eq hv, compare_coe]

end DenotesExtended

/-! ## Singles -/

/-- A single is no NaN, and it is the given extended real number. -/
def HasExtendedValue (a : Float32) (x : EReal) : Prop := DenotesExtended a.toModel.unpack x

/-- Every single but a NaN has an extended value. -/
theorem exists_hasExtendedValue {a : Float32} (h : a.isNaN = false) :
    ∃ x, HasExtendedValue a x := by
  change a.toModel.unpack.isNaN = false at h
  by_cases hfinite : a.isFinite = true
  · obtain ⟨x, hx⟩ := exists_hasValue hfinite
    exact ⟨x, .finite hx⟩
  · change ¬ a.toModel.unpack.isFinite = true at hfinite
    unfold HasExtendedValue
    generalize a.toModel.unpack = u at h hfinite ⊢
    cases u with
    | notANumber => cases h
    | infinity sign =>
      cases sign with
      | positive => exact ⟨⊤, .top⟩
      | negative => exact ⟨⊥, .bot⟩
    | zero sign => exact absurd rfl hfinite
    | finite => exact absurd rfl hfinite

namespace HasExtendedValue

variable {a b : Float32} {x y : EReal}

/-- Singles are ordered as their extended values are. -/
theorem lt_iff (ha : HasExtendedValue a x) (hb : HasExtendedValue b y) : a < b ↔ x < y := by
  have hlt : a < b ↔ UnpackedFloat.lt a.toModel.unpack b.toModel.unpack = true := by
    change Float32.lt a b = true ↔ _
    exact decide_eq_true_iff
  rw [hlt, UnpackedFloat.lt, DenotesExtended.compare_eq ha hb, ← compare_lt_iff_lt (a := x)]
  simp

/-- Singles are ordered as their extended values are, equality included. -/
theorem le_iff (ha : HasExtendedValue a x) (hb : HasExtendedValue b y) : a ≤ b ↔ x ≤ y := by
  have hle : a ≤ b ↔ UnpackedFloat.le a.toModel.unpack b.toModel.unpack = true := by
    change Float32.le a b = true ↔ _
    exact decide_eq_true_iff
  rw [hle, UnpackedFloat.le, DenotesExtended.compare_eq ha hb, ← compare_le_iff_le (a := x)]
  change (compare x y).isLE = true ↔ _
  cases compare x y <;> decide

/-- Singles are equal as numbers if their extended values are the same. -/
theorem beq_iff (ha : HasExtendedValue a x) (hb : HasExtendedValue b y) :
    (a == b) = true ↔ x = y := by
  change UnpackedFloat.beq a.toModel.unpack b.toModel.unpack = true ↔ _
  rw [UnpackedFloat.beq, DenotesExtended.compare_eq ha hb, ← compare_eq_iff_eq (a := x)]
  simp

end HasExtendedValue

/-- Two singles are equal, or they are zeros of different signs. -/
def SameButZeroSign (a b : Float32) : Prop := a = b ∨ a = 0 ∧ b = -0 ∨ a = -0 ∧ b = 0

variable {a b c : Float32}

/-- A number is at most itself. -/
theorem le_refl_of_number (ha : a.isNaN = false) : a ≤ a := by
  obtain ⟨x, hx⟩ := exists_hasExtendedValue ha
  rw [hx.le_iff hx]

/-- The order of numbers is transitive. -/
theorem le_trans_of_numbers (ha : a.isNaN = false) (hb : b.isNaN = false) (hc : c.isNaN = false)
    (hab : a ≤ b) (hbc : b ≤ c) : a ≤ c := by
  obtain ⟨x, hx⟩ := exists_hasExtendedValue ha
  obtain ⟨y, hy⟩ := exists_hasExtendedValue hb
  obtain ⟨z, hz⟩ := exists_hasExtendedValue hc
  rw [hx.le_iff hy] at hab
  rw [hy.le_iff hz] at hbc
  rw [hx.le_iff hz]
  exact hab.trans hbc

/-- Of two numbers, one is at most the other. -/
theorem le_of_not_lt_of_numbers (ha : a.isNaN = false) (hb : b.isNaN = false) (h : ¬ a < b) :
    b ≤ a := by
  obtain ⟨x, hx⟩ := exists_hasExtendedValue ha
  obtain ⟨y, hy⟩ := exists_hasExtendedValue hb
  rw [hx.lt_iff hy, not_lt] at h
  rwa [hy.le_iff hx]

/-- What is below a number is at most the number. -/
theorem le_of_lt_of_numbers (ha : a.isNaN = false) (hb : b.isNaN = false) (h : a < b) : a ≤ b := by
  obtain ⟨x, hx⟩ := exists_hasExtendedValue ha
  obtain ⟨y, hy⟩ := exists_hasExtendedValue hb
  rw [hx.lt_iff hy] at h
  rw [hx.le_iff hy]
  exact h.le

/-- Singles that are at most each other are the same number, and only zero is two singles. -/
theorem eq_or_zeros_of_le (ha : a.isNaN = false) (hb : b.isNaN = false) (hab : a ≤ b)
    (hba : b ≤ a) : SameButZeroSign a b := by
  obtain ⟨x, hx⟩ := exists_hasExtendedValue ha
  obtain ⟨y, hy⟩ := exists_hasExtendedValue hb
  rw [hx.le_iff hy] at hab
  rw [hy.le_iff hx] at hba
  have hbeq := (hx.beq_iff hy).mpr (le_antisymm hab hba)
  exact (Float32.beq_iff_ne_nan_and_eq.mp hbeq).2.2

end BranchingTubes
