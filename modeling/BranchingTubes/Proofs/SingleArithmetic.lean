import BranchingTubes.Proofs.UnpackedArithmetic
import Mathlib

/-!
# Singles as real numbers

`HasValue` says that a single is finite and which real number it is; `RoundedFrom` says that a
single is the result of an operation whose exact result is a real number.  An operation on
finite singles is rounded from the exact operation on their values, and comparing singles is
comparing their values.

`RoundedFrom` leaves open whether the result is finite.  It is so if and only if the nearest
single to the exact result is less than `2 ^ 128`.
-/

set_option autoImplicit false

namespace BranchingTubes

open Float.Model (UnpackedFloat Format)
open Float.Model.UnpackedFloat

/-! ## Packing -/

/-- Packed fields with a normal significand are unpacked to it. -/
theorem unpack_normal (sign : Sign) {m : ℕ} {e : ℤ} (pos : 0 < m) (hlow : 2 ^ 23 ≤ m)
    (hhigh : m < 2 ^ 24) (he : -149 ≤ e) (he' : e ≤ 104) :
    unpack .binary32 (packComponents .binary32 sign (BitVec.ofNat 8 (e + 150).toNat)
      (BitVec.ofNat 23 m)) = .finite sign m e pos := by
  have hexponent : (BitVec.ofNat 8 (e + 150).toNat).toNat = (e + 150).toNat := by
    rw [BitVec.toNat_ofNat]
    exact Nat.mod_eq_of_lt (by omega)
  have hmantissa : (BitVec.ofNat 1 1 ++ BitVec.ofNat 23 m).toNat = m := by
    rw [BitVec.toNat_append, BitVec.toNat_ofNat, BitVec.toNat_ofNat,
      ← Nat.shiftLeft_add_eq_or_of_lt (by omega), Nat.shiftLeft_eq]
    omega
  have hones : ¬ BitVec.ofNat 8 (e + 150).toNat = -BitVec.ofNat 8 1 := by
    rw [← BitVec.toNat_inj, hexponent]
    simp only [BitVec.toNat_neg, BitVec.toNat_ofNat]
    omega
  have hzero : ¬ BitVec.ofNat 8 (e + 150).toNat = BitVec.ofNat 8 0 := by
    rw [← BitVec.toNat_inj, hexponent]
    simp only [BitVec.toNat_ofNat]
    omega
  have hbias : (Format.binary32.exponentBias : ℤ) = 127 := rfl
  unfold unpack
  simp only [unpackExponent_packComponents, unpackMantissa_packComponents,
    unpackSign_packComponents, Sign.ofBitVec_toBitVec]
  rw [if_neg hones, if_neg hzero, finite.injEq]
  refine ⟨rfl, hmantissa, ?_⟩
  rw [hexponent, hbias]
  omega

/-- Packed fields with the exponent zero are unpacked to a subnormal significand. -/
theorem unpack_subnormal (sign : Sign) {m : ℕ} (pos : 0 < m) (hm : m < 2 ^ 23) :
    unpack .binary32 (packComponents .binary32 sign (BitVec.ofNat 8 0) (BitVec.ofNat 23 m)) =
      .finite sign m (-149) pos := by
  have hmantissa : (BitVec.ofNat 23 m).toNat = m := by
    rw [BitVec.toNat_ofNat]
    exact Nat.mod_eq_of_lt hm
  have hne : ¬ BitVec.ofNat 23 m = BitVec.ofNat 23 0 := by
    rw [← BitVec.toNat_inj, hmantissa]
    exact pos.ne'
  have hones : ¬ BitVec.ofNat 8 0 = -BitVec.ofNat 8 1 := by decide
  unfold unpack
  simp only [unpackExponent_packComponents, unpackMantissa_packComponents,
    unpackSign_packComponents, Sign.ofBitVec_toBitVec, if_neg hones, if_true, dif_neg hne, hmantissa]
  rfl

namespace Denotes

variable {u v : UnpackedFloat} {x y : ℝ}

/-- A number of the form that singles are unpacked to is less than `2 ^ 128` if and only if its
exponent fits. -/
theorem abs_lt_iff {sign : Sign} {m : ℕ} {e : ℤ} {pos : 0 < m}
    (h : Denotes (.finite sign m e pos) x) : |x| < 2 ^ 128 ↔ e ≤ 104 := by
  cases h with
  | finite sign pos bits place normal =>
    rw [abs_signed, abs_of_pos (by positivity)]
    have hpow : (2 : ℝ) ^ 128 = 2 ^ (128 : ℤ) := by norm_cast
    rw [hpow]
    constructor
    · intro hlt
      by_contra! hlarge
      have hm : 2 ^ 23 ≤ m := normal.resolve_right (by omega)
      have hcast : (2 : ℝ) ^ (23 : ℤ) ≤ m := by exact_mod_cast hm
      have hge : (2 : ℝ) ^ (128 : ℤ) ≤ m * 2 ^ e := by
        calc (2 : ℝ) ^ (128 : ℤ) = 2 ^ (23 : ℤ) * 2 ^ (105 : ℤ) := by
              rw [← zpow_add₀ (by norm_num)]
              norm_num
          _ ≤ m * 2 ^ e := by
              gcongr
              · norm_num
              · omega
      linarith
    · intro he
      have hcast : (m : ℝ) < 2 ^ (24 : ℤ) := by exact_mod_cast bits
      calc (m : ℝ) * 2 ^ e < 2 ^ (24 : ℤ) * 2 ^ e := by gcongr
        _ ≤ 2 ^ (24 : ℤ) * 2 ^ (104 : ℤ) := by
            gcongr
            norm_num
        _ = 2 ^ (128 : ℤ) := by
            rw [← zpow_add₀ (by norm_num)]
            norm_num

/-- A finite number is packed as an infinity, as a normal or as a subnormal number. -/
theorem pack_finite (sign : Sign) {m : ℕ} (e : ℤ) (pos : 0 < m) :
    pack .binary32 (.finite sign m e pos) =
      if 2 ^ 8 ≤ (e + 150).toNat + 1 then packedInfinity .binary32 sign
      else if m.log2 + 1 = 24 then
        packComponents .binary32 sign (BitVec.ofNat 8 (e + 150).toNat) (BitVec.ofNat 23 m)
      else packComponents .binary32 sign (BitVec.ofNat 8 0) (BitVec.ofNat 23 m) := by
  have hbiased : (e + (Format.binary32.exponentBias : ℤ) + (23 : ℕ)).toNat = (e + 150).toNat := by
    have hbias : (Format.binary32.exponentBias : ℤ) = 127 := rfl
    omega
  unfold pack
  simp only [hbiased]
  rfl

/-- Packing a number that is small enough loses nothing. -/
theorem unpack_pack (h : Denotes u x) (hx : |x| < 2 ^ 128) :
    unpack .binary32 (pack .binary32 u) = u := by
  cases h with
  | zero sign => cases sign <;> rfl
  | @finite sign m e pos bits place normal =>
    have he := (Denotes.finite sign pos bits place normal).abs_lt_iff.mp hx
    rw [pack_finite, if_neg (by omega)]
    split
    next hlog =>
      have hlead : 2 ^ 23 ≤ m := (Nat.le_log2 pos.ne').mp (by omega)
      exact unpack_normal sign pos hlead bits place he
    next hlog =>
      have hsmall : m < 2 ^ 23 := by
        by_contra! hlarge
        have hlow := (Nat.le_log2 pos.ne').mpr hlarge
        have hhigh := (Nat.log2_lt pos.ne').mpr bits
        omega
      obtain rfl := normal.resolve_left (by omega)
      exact unpack_subnormal sign pos hsmall

/-- Packing a number that is too large gives an infinite one. -/
theorem unpack_pack_of_ge (h : Denotes u x) (hx : 2 ^ 128 ≤ |x|) :
    ∃ sign, unpack .binary32 (pack .binary32 u) = .infinity sign := by
  cases h with
  | zero sign => norm_num at hx
  | @finite sign m e pos bits place normal =>
    have he : ¬ e ≤ 104 := by
      rw [← (Denotes.finite sign pos bits place normal).abs_lt_iff]
      exact not_lt.mpr hx
    rw [pack_finite, if_pos (by omega)]
    exact ⟨sign, by cases sign <;> rfl⟩

/-- Unpacking gives a finite number that is not too large, or none at all. -/
theorem of_unpack {b : BitVec 32} (h : (unpack .binary32 b).isFinite = true) :
    ∃ x, Denotes (unpack .binary32 b) x ∧ |x| < 2 ^ 128 := by
  have hbias : (Format.binary32.exponentBias : ℤ) = 127 := rfl
  have hexponent : (@unpackExponent .binary32 b).toNat < 2 ^ 8 := BitVec.isLt _
  have hmantissa : (@unpackMantissa .binary32 b).toNat < 2 ^ 23 := BitVec.isLt _
  unfold unpack at h ⊢
  simp only [hbias] at h ⊢
  split at h
  next => split at h <;> cases h
  next hones =>
    have hfits : (@unpackExponent .binary32 b).toNat ≠ 255 :=
      fun heq => hones (BitVec.eq_of_toNat_eq heq)
    rw [if_neg hones]
    split
    next hzero =>
      split
      next => exact ⟨0, .zero _, by norm_num⟩
      next hne =>
        have hplace : ((@unpackExponent .binary32 b).toNat : ℤ) - (127 + (23 : ℕ)) + 1 = -149 := by
          rw [hzero]
          rfl
        have hpos : 0 < (@unpackMantissa .binary32 b).toNat := by
          rw [Nat.pos_iff_ne_zero]
          exact fun heq => hne (BitVec.eq_of_toNat_eq heq)
        have hdenotes := Denotes.finite (Sign.ofBitVec (@unpackSign .binary32 b)) hpos
          (by omega) hplace.ge (.inr hplace)
        exact ⟨_, hdenotes, hdenotes.abs_lt_iff.mpr (by omega)⟩
    next hnormal =>
      have hpositive : (@unpackExponent .binary32 b).toNat ≠ 0 :=
        fun heq => hnormal (BitVec.eq_of_toNat_eq heq)
      have hlead : (BitVec.ofNat 1 1 ++ @unpackMantissa .binary32 b).toNat =
          2 ^ 23 + (@unpackMantissa .binary32 b).toNat := by
        rw [BitVec.toNat_append, ← Nat.shiftLeft_add_eq_or_of_lt hmantissa, Nat.shiftLeft_eq]
        rfl
      have hdenotes := Denotes.finite (m := (BitVec.ofNat 1 1 ++ @unpackMantissa .binary32 b).toNat)
        (e := ((@unpackExponent .binary32 b).toNat : ℤ) - (127 + (23 : ℕ)))
        (Sign.ofBitVec (@unpackSign .binary32 b)) (by omega)
        (by omega) (by omega) (.inl (by omega))
      exact ⟨_, hdenotes, hdenotes.abs_lt_iff.mpr (by omega)⟩

/-- Of two significands in the form of singles, the one with the greater exponent is greater. -/
theorem significand_lt {m m' : ℕ} {e e' : ℤ} (bits : m < 2 ^ 24) (place : -149 ≤ e)
    (normal' : 2 ^ 23 ≤ m' ∨ e' = -149) (h : e < e') : (m : ℝ) * 2 ^ e < m' * 2 ^ e' := by
  have hbits : (m : ℝ) < 2 ^ (24 : ℤ) := by exact_mod_cast bits
  have hlead : (2 : ℝ) ^ (23 : ℤ) ≤ m' := by exact_mod_cast normal'.resolve_right (by omega)
  calc (m : ℝ) * 2 ^ e < 2 ^ (24 : ℤ) * 2 ^ e := by gcongr
    _ = 2 ^ (23 : ℤ) * 2 ^ (e + 1) := by
        rw [← zpow_add₀ (by norm_num), ← zpow_add₀ (by norm_num)]
        ring_nf
    _ ≤ m' * 2 ^ e' := by
        gcongr
        · norm_num
        · omega

/-- Numbers with normal significands are compared by their exponents first, and then by the
significands. -/
theorem compare_significands {m m' : ℕ} {e e' : ℤ} (bits : m < 2 ^ 24) (bits' : m' < 2 ^ 24)
    (place : -149 ≤ e) (place' : -149 ≤ e') (normal : 2 ^ 23 ≤ m ∨ e = -149)
    (normal' : 2 ^ 23 ≤ m' ∨ e' = -149) :
    (compare e e').then (compare m m') = compare ((m : ℝ) * 2 ^ e) (m' * 2 ^ e') := by
  rcases lt_trichotomy e e' with hlt | rfl | hgt
  · rw [compare_lt_iff_lt.mpr (significand_lt bits place normal' hlt), compare_lt_iff_lt.mpr hlt]
    rfl
  · rw [compare_eq_iff_eq.mpr (rfl : e = e)]
    rcases lt_trichotomy m m' with hlt | rfl | hgt
    · have hreal : (m : ℝ) * 2 ^ e < m' * 2 ^ e := by gcongr
      rw [compare_lt_iff_lt.mpr hreal, compare_lt_iff_lt.mpr hlt]
      rfl
    · rw [compare_eq_iff_eq.mpr rfl, compare_eq_iff_eq.mpr rfl]
      rfl
    · have hreal : (m' : ℝ) * 2 ^ e < m * 2 ^ e := by gcongr
      rw [compare_gt_iff_gt.mpr hreal, compare_gt_iff_gt.mpr hgt]
      rfl
  · rw [compare_gt_iff_gt.mpr (significand_lt bits' place' normal hgt), compare_gt_iff_gt.mpr hgt]
    rfl

/-- Unpacked numbers are compared as the numbers that they denote. -/
theorem compare_eq (hu : Denotes u x) (hv : Denotes v y) :
    UnpackedFloat.compare u v = some (compare x y) := by
  cases hu with
  | zero sign =>
    cases hv with
    | zero sign' => rw [compare_eq_iff_eq.mpr rfl]; rfl
    | @finite sign' m' e' pos' bits' place' normal' =>
      have hpos : (0 : ℝ) < m' * 2 ^ e' := by positivity
      cases sign' with
      | negative =>
        rw [compare_gt_iff_gt.mpr (by simpa [signed] using hpos)]
        rfl
      | positive =>
        rw [compare_lt_iff_lt.mpr (by simpa [signed] using hpos)]
        rfl
  | @finite sign m e pos bits place normal =>
    have hpos : (0 : ℝ) < m * 2 ^ e := by positivity
    cases hv with
    | zero sign' =>
      cases sign with
      | negative =>
        rw [compare_lt_iff_lt.mpr (by simpa [signed] using hpos)]
        rfl
      | positive =>
        rw [compare_gt_iff_gt.mpr (by simpa [signed] using hpos)]
        rfl
    | @finite sign' m' e' pos' bits' place' normal' =>
      have hpos' : (0 : ℝ) < m' * 2 ^ e' := by positivity
      have hsame := compare_significands bits bits' place place' normal normal'
      cases sign <;> cases sign'
      case negative.positive =>
        rw [compare_lt_iff_lt.mpr]
        · rfl
        · simp only [signed]
          linarith
      case positive.negative =>
        rw [compare_gt_iff_gt.mpr]
        · rfl
        · simp only [signed]
          linarith
      case positive.positive => exact congrArg some hsame
      case negative.negative =>
        change some ((compare e e').then (compare m m')).swap = some (compare (-_) (-_))
        rw [hsame]
        rcases lt_trichotomy ((m : ℝ) * 2 ^ e) (m' * 2 ^ e') with hlt | heq | hgt
        · rw [compare_lt_iff_lt.mpr hlt, compare_gt_iff_gt.mpr (neg_lt_neg hlt)]
          rfl
        · rw [compare_eq_iff_eq.mpr heq, compare_eq_iff_eq.mpr (congrArg Neg.neg heq)]
          rfl
        · rw [compare_gt_iff_gt.mpr hgt, compare_lt_iff_lt.mpr (neg_lt_neg hgt)]
          rfl

/-- An unpacked number denotes at most one number. -/
theorem unique (h : Denotes u x) (h' : Denotes u y) : x = y := by
  have hself := compare_eq h h
  rw [compare_eq h h', compare_eq_iff_eq.mpr (rfl : x = x)] at hself
  exact compare_eq_iff_eq.mp (Option.some.inj hself)

/-- What denotes a number is finite. -/
theorem isFinite (h : Denotes u x) : u.isFinite = true := by
  cases h <;> rfl

end Denotes

/-! ## Values -/

/-- A single is finite, and it is the given real number. -/
def HasValue (a : Float32) (x : ℝ) : Prop := Denotes a.toModel.unpack x

/-- A single is what a real number is rounded to: the nearest single to it, or an infinite one if
that would be too large. -/
def RoundedFrom (a : Float32) (z : ℝ) : Prop :=
  ∃ u, Denotes u (nearestSingle z) ∧ a.toModel = .pack u

/-- What is packed to something finite is finite. -/
theorem isFinite_of_isFinite_pack {u : UnpackedFloat}
    (h : (unpack .binary32 (pack .binary32 u)).isFinite = true) : u.isFinite = true := by
  cases u with
  | notANumber => exact absurd h (by decide)
  | infinity sign => exact absurd h (by cases sign <;> decide)
  | zero sign => rfl
  | finite => rfl

/-- A sum is finite only if both numbers are. -/
theorem isFinite_of_isFinite_add {a b : Float32} (h : (a + b).isFinite = true) :
    a.isFinite = true ∧ b.isFinite = true := by
  have hadd : (UnpackedFloat.add .binary32 a.toModel.unpack b.toModel.unpack).isFinite = true :=
    isFinite_of_isFinite_pack h
  change a.toModel.unpack.isFinite = true ∧ b.toModel.unpack.isFinite = true
  generalize a.toModel.unpack = u at hadd ⊢
  generalize b.toModel.unpack = v at hadd ⊢
  cases u <;> cases v <;> first
    | exact ⟨rfl, rfl⟩
    | (simp only [UnpackedFloat.add] at hadd; split at hadd <;> cases hadd)
    | cases hadd

/-- A product is finite only if both numbers are. -/
theorem isFinite_of_isFinite_mul {a b : Float32} (h : (a * b).isFinite = true) :
    a.isFinite = true ∧ b.isFinite = true := by
  have hmul : (UnpackedFloat.mul .binary32 a.toModel.unpack b.toModel.unpack).isFinite = true :=
    isFinite_of_isFinite_pack h
  change a.toModel.unpack.isFinite = true ∧ b.toModel.unpack.isFinite = true
  generalize a.toModel.unpack = u at hmul ⊢
  generalize b.toModel.unpack = v at hmul ⊢
  cases u <;> cases v <;> first
    | exact ⟨rfl, rfl⟩
    | cases hmul

/-- A quotient is finite only if its dividend is. -/
theorem isFinite_of_isFinite_div {a b : Float32} (h : (a / b).isFinite = true) :
    a.isFinite = true := by
  have hdiv : (UnpackedFloat.div .binary32 a.toModel.unpack b.toModel.unpack).isFinite = true :=
    isFinite_of_isFinite_pack h
  change a.toModel.unpack.isFinite = true
  generalize a.toModel.unpack = u at hdiv ⊢
  generalize b.toModel.unpack = v at hdiv
  cases u <;> cases v <;> first
    | rfl
    | cases hdiv

/-- A finite single has a value. -/
theorem exists_hasValue {a : Float32} (h : a.isFinite = true) : ∃ x, HasValue a x := by
  obtain ⟨x, hx, -⟩ := Denotes.of_unpack h
  exact ⟨x, hx⟩

namespace HasValue

variable {a b : Float32} {x y : ℝ}

/-- A single with a value is finite. -/
theorem isFinite (h : HasValue a x) : a.isFinite = true := Denotes.isFinite h

/-- A single has at most one value. -/
theorem unique (h : HasValue a x) (h' : HasValue a y) : x = y := Denotes.unique h h'

/-- Values are below `2 ^ 128` in size. -/
theorem abs_lt (h : HasValue a x) : |x| < 2 ^ 128 := by
  obtain ⟨y, hy, hlt⟩ := Denotes.of_unpack (b := a.toModel.toBits.toBitVec) h.isFinite
  rwa [h.unique hy]

/-- Values are representable. -/
theorem representable (h : HasValue a x) : Representable x := Denotes.representable h

/-! ### Comparing -/

/-- Singles are ordered as their values are. -/
theorem lt_iff (ha : HasValue a x) (hb : HasValue b y) : a < b ↔ x < y := by
  have hcompare := Denotes.compare_eq ha hb
  have hlt : a < b ↔ (UnpackedFloat.lt a.toModel.unpack b.toModel.unpack) = true := by
    change Float32.lt a b = true ↔ _
    exact decide_eq_true_iff
  rw [hlt, UnpackedFloat.lt, hcompare, ← compare_lt_iff_lt (a := x) (b := y)]
  simp

/-- Singles are ordered as their values are, equality included. -/
theorem le_iff (ha : HasValue a x) (hb : HasValue b y) : a ≤ b ↔ x ≤ y := by
  have hcompare := Denotes.compare_eq ha hb
  have hle : a ≤ b ↔ (UnpackedFloat.le a.toModel.unpack b.toModel.unpack) = true := by
    change Float32.le a b = true ↔ _
    exact decide_eq_true_iff
  rw [hle, UnpackedFloat.le, hcompare, ← compare_le_iff_le (a := x) (b := y)]
  change (compare x y).isLE = true ↔ _
  cases compare x y <;> decide

/-- Singles are equal as numbers if their values are the same. -/
theorem beq_iff (ha : HasValue a x) (hb : HasValue b y) : (a == b) = true ↔ x = y := by
  have hcompare := Denotes.compare_eq ha hb
  change UnpackedFloat.beq a.toModel.unpack b.toModel.unpack = true ↔ _
  rw [UnpackedFloat.beq, hcompare, ← compare_eq_iff_eq (a := x) (b := y)]
  simp

/-! ### Arithmetic -/

/-- The sign of a finite single is turned in its unpacked form. -/
theorem unpack_neg (ha : HasValue a x) : (-a).toModel.unpack = a.toModel.unpack.neg := by
  have habs : |-x| < 2 ^ 128 := by
    rw [abs_neg]
    exact ha.abs_lt
  exact (Denotes.neg ha).unpack_pack habs

/-- A negated single has the negated value. -/
theorem neg (ha : HasValue a x) : HasValue (-a) (-x) := by
  unfold HasValue
  rw [ha.unpack_neg]
  exact Denotes.neg ha

/-- The signs of two factors cancel, also where the product is zero or overflows. -/
theorem neg_mul_neg (ha : HasValue a x) (hb : HasValue b y) : -a * -b = a * b := by
  have hmul : UnpackedFloat.mul .binary32 (-a).toModel.unpack (-b).toModel.unpack =
      UnpackedFloat.mul .binary32 a.toModel.unpack b.toModel.unpack := by
    rw [ha.unpack_neg, hb.unpack_neg, mul_negated]
  exact congrArg (fun u => Float32.ofModel (.pack u)) hmul

/-- A sum is rounded from the exact sum. -/
theorem add (ha : HasValue a x) (hb : HasValue b y) : RoundedFrom (a + b) (x + y) :=
  ⟨_, Denotes.add ha hb, rfl⟩

/-- A difference is rounded from the exact difference. -/
theorem sub (ha : HasValue a x) (hb : HasValue b y) : RoundedFrom (a - b) (x - y) :=
  ⟨_, Denotes.sub ha hb, rfl⟩

/-- A product is rounded from the exact product. -/
theorem mul (ha : HasValue a x) (hb : HasValue b y) : RoundedFrom (a * b) (x * y) :=
  ⟨_, Denotes.mul ha hb, rfl⟩

/-- A quotient is rounded from the exact quotient, unless the divisor is zero. -/
theorem div (ha : HasValue a x) (hb : HasValue b y) (hy : y ≠ 0) : RoundedFrom (a / b) (x / y) :=
  ⟨_, Denotes.div ha hb hy, rfl⟩

/-- A square root is rounded from the exact root, unless the number is negative. -/
theorem sqrt (ha : HasValue a x) (hx : 0 ≤ x) : RoundedFrom a.sqrt (√x) :=
  ⟨_, Denotes.sqrt ha hx, rfl⟩

end HasValue

/-- A 64-bit word is converted to the nearest single. -/
theorem roundedFrom_ofNat (n : UInt64) : RoundedFrom n.toFloat32 n.toNat := by
  have h : Denotes (ofUInt64 .binary32 n) (nearestSingle ((n.toNat : ℤ) * 2 ^ (0 : ℤ))) :=
    denotes_normalize n.toNat 0 .positive
  exact ⟨_, by simpa using h, rfl⟩

namespace RoundedFrom

variable {a : Float32} {z B : ℝ}

/-- A rounded result has the nearest single for its value, unless that is too great. -/
theorem hasValue (h : RoundedFrom a z) (hz : |nearestSingle z| < 2 ^ 128) :
    HasValue a (nearestSingle z) := by
  obtain ⟨u, hu, ha⟩ := h
  unfold HasValue
  rw [ha]
  change Denotes (unpack .binary32 (pack .binary32 u)) _
  rwa [hu.unpack_pack hz]

/-- A rounded result that is finite has the nearest single for its value. -/
theorem hasValue_of_isFinite (h : RoundedFrom a z) (ha : a.isFinite = true) :
    HasValue a (nearestSingle z) := by
  apply h.hasValue
  by_contra! hlarge
  obtain ⟨u, hu, hpack⟩ := h
  obtain ⟨sign, hinf⟩ := hu.unpack_pack_of_ge hlarge
  change a.toModel.unpack.isFinite = true at ha
  rw [hpack] at ha
  change (unpack .binary32 (pack .binary32 u)).isFinite = true at ha
  rw [hinf] at ha
  cases ha

/-- A result whose exact value is at most a single in size is finite and at most that single. -/
theorem hasValue_of_abs_le (h : RoundedFrom a z) (hB : Representable B) (hlt : B < 2 ^ 128)
    (hz : |z| ≤ B) : HasValue a (nearestSingle z) ∧ |nearestSingle z| ≤ B := by
  have hle : |nearestSingle z| ≤ B := by
    rw [abs_nearestSingle]
    exact nearestSingle_le_of_representable hB hz
  exact ⟨h.hasValue (hle.trans_lt hlt), hle⟩

end RoundedFrom

end BranchingTubes
