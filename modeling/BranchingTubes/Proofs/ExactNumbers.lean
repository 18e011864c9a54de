import BranchingTubes.Number.Decimal
import BranchingTubes.Proofs.SingleRanks
import Mathlib

/-!
# Reading a number that is a single

Rounding leaves a number of a format as it is.  Every single is also a double
(`exists_rank_of_single`), so a decimal that is a single survives the rounding to a double and from
there to a single (`Decimal.narrow_toDouble`).  Every finite single is such a decimal
(`Decimal.ofSingle?_eq_some`).
-/

set_option autoImplicit false

namespace BranchingTubes

open Float.Model (UnpackedFloat Format)
open Float.Model.UnpackedFloat

/-! ## Doubles -/

/-- The rank of infinity in double precision, written out. -/
theorem binary64_lt_infinity_iff {rank : ℕ} :
    rank < BinaryFormat.binary64.infinity ↔ rank < 2047 * 2 ^ 52 := Iff.rfl

/-- The leading bit of a number can be moved up to any place above it. -/
theorem two_pow_le_shifted {m bits : ℕ} (hpos : 0 < m) (hbits : m.log2 ≤ bits) :
    2 ^ bits ≤ m * 2 ^ (bits - m.log2) ∧ m * 2 ^ (bits - m.log2) < 2 ^ (bits + 1) := by
  have hsplit : m.log2 + (bits - m.log2) = bits := by omega
  constructor
  · calc 2 ^ bits = 2 ^ m.log2 * 2 ^ (bits - m.log2) := by rw [← pow_add, hsplit]
      _ ≤ m * 2 ^ (bits - m.log2) := by
          gcongr
          exact Nat.log2_self_le hpos.ne'
  · calc m * 2 ^ (bits - m.log2) < 2 ^ (m.log2 + 1) * 2 ^ (bits - m.log2) := by
          gcongr
          exact Nat.lt_log2_self
      _ = 2 ^ (bits + 1) := by rw [← pow_add, Nat.add_right_comm, hsplit]

/-- Every single is a double. -/
theorem exists_rank_of_single {rank : ℕ} (h : rank < BinaryFormat.binary32.infinity) :
    ∃ wide < BinaryFormat.binary64.infinity,
      BinaryFormat.binary64.value wide = BinaryFormat.binary32.value rank := by
  have hinfinity : BinaryFormat.binary32.infinity = 255 * 2 ^ 23 := rfl
  have hhidden : BinaryFormat.binary32.hiddenBit = 2 ^ 23 := rfl
  have hleast : BinaryFormat.binary32.minExponent = -149 := rfl
  have hwide : BinaryFormat.binary64.hiddenBit = 2 ^ 52 := rfl
  have hwideleast : BinaryFormat.binary64.minExponent = -1074 := rfl
  have hlt := BinaryFormat.binary32.significand_lt rank
  have hlow := BinaryFormat.binary32.minExponent_le_exponent rank
  have hrank := BinaryFormat.binary32.rank_eq rank
  simp only [BinaryFormat.value_eq]
  rw [hhidden] at hlt hrank
  rw [hleast] at hlow hrank
  rw [hinfinity] at h
  generalize BinaryFormat.binary32.significand rank = m at hlt hrank ⊢
  generalize BinaryFormat.binary32.exponent rank = e at hlow hrank ⊢
  rcases Nat.eq_zero_or_pos m with rfl | hpos
  · refine ⟨0, by decide, ?_⟩
    rw [← BinaryFormat.value_eq, BinaryFormat.value_zero, Nat.cast_zero, zero_mul]
  · -- The significand is moved up until it has the leading bit of a double.
    have hbits : m.log2 < 24 := (Nat.log2_lt hpos.ne').mpr hlt
    obtain ⟨hlead, hfits⟩ := @two_pow_le_shifted m 52 hpos (by omega)
    set spare := 52 - m.log2 with hspare
    have hvalue := @BinaryFormat.value_of_place .binary64 (e - spare) (m * 2 ^ spare)
    rw [hwide, hwideleast] at hvalue
    specialize hvalue (by omega) (by omega) (.inl hlead)
    refine ⟨_, ?_, hvalue.trans ?_⟩
    · rw [binary64_lt_infinity_iff]
      omega
    · rw [Nat.cast_mul, Nat.cast_pow, Nat.cast_ofNat, mul_assoc, ← zpow_natCast,
        ← zpow_add₀ (by norm_num)]
      congr 2
      omega

/-- A finite double keeps its bits. -/
theorem toNat_toBits_doubleOfRank (negative : Bool) {rank : ℕ}
    (h : rank < BinaryFormat.binary64.infinity) :
    (doubleOfRank negative rank).toBits.toNat =
      negative.toNat * BinaryFormat.binary64.signWeight + rank := by
  have hweight : BinaryFormat.binary64.signWeight = 2 ^ 63 := rfl
  have hsign : negative.toNat < 2 := Bool.toNat_lt negative
  rw [binary64_lt_infinity_iff] at h
  unfold doubleOfRank
  rw [BinaryFormat.pattern_eq, hweight]
  generalize hbits : BitVec.ofNat 64 (negative.toNat * 2 ^ 63 + rank) = bits
  have htoNat : bits.toNat = negative.toNat * 2 ^ 63 + rank := by
    rw [← hbits, BitVec.toNat_ofNat]
    omega
  have hnumber : @isNaNBits .binary64 bits = false := by
    apply decide_eq_false
    rintro ⟨hones, -⟩
    have hfield := congrArg BitVec.toNat hones
    change (BitVec.cast _ (BitVec.extractLsb 62 52 bits)).toNat = 2047 at hfield
    rw [BitVec.toNat_cast, BitVec.extractLsb_toNat, Nat.shiftRight_eq_div_pow, htoNat] at hfield
    omega
  have hpack : pack .binary64 (unpack .binary64 bits) = bits := by
    rw [@pack_unpack .binary64 bits (by decide), hnumber]
    rfl
  change (pack .binary64 (unpack .binary64 (BitVec.ofNat 64 _))).toNat = _
  rw [hbits, hpack, htoNat]

/-- A ratio of natural numbers stands for a significand times a power of the base. -/
theorem ratio_eq {base : ℕ} (hbase : 0 < base) (m : ℕ) (e : ℤ) :
    ((ratio base m e).1 : ℝ) / (ratio base m e).2 = m * (base : ℝ) ^ e := by
  have hpos : (0 : ℝ) < base := by exact_mod_cast hbase
  unfold ratio
  simp only [Nat.pow_eq]
  push_cast
  rw [pow_toNat_eq hpos.ne' e, div_eq_iff (by positivity), mul_assoc]

/-- The denominator of the ratio is not zero. -/
theorem ratio_snd_pos {base : ℕ} (hbase : 0 < base) (m : ℕ) (e : ℤ) : 0 < (ratio base m e).2 :=
  Nat.pow_pos hbase

/-- A double that is a single becomes this single. -/
theorem narrow_doubleOfRank (negative : Bool) {wide rank : ℕ}
    (hwide : wide < BinaryFormat.binary64.infinity) (hrank : rank < BinaryFormat.binary32.infinity)
    (h : BinaryFormat.binary64.value wide = BinaryFormat.binary32.value rank) :
    narrow (doubleOfRank negative wide) = singleOfRank negative rank := by
  have hlt := hwide.trans BinaryFormat.binary64.infinity_lt_signWeight
  have hnearest := BinaryFormat.nearest_of_value (f := .binary32)
    (ratio_snd_pos two_pos (BinaryFormat.binary64.significand wide)
      (BinaryFormat.binary64.exponent wide)) hrank.le ((ratio_eq two_pos _ _).trans h)
  unfold narrow
  simp only [toNat_toBits_doubleOfRank negative hwide, BinaryFormat.rank_of_pattern negative hlt,
    BinaryFormat.sign_of_pattern negative hlt, hnearest, if_neg hwide.not_gt, if_neg hwide.ne]

/-! ## Decimals -/

/-- Every number of single precision is zero or at least the least of them. -/
theorem le_value_of_pos {rank : ℕ} (h : 0 < BinaryFormat.binary32.value rank) :
    2 ^ (-149 : ℤ) ≤ BinaryFormat.binary32.value rank := by
  have hpos : 0 < BinaryFormat.binary32.significand rank := by
    by_contra! hzero
    rw [BinaryFormat.value_eq, Nat.le_zero.mp hzero, Nat.cast_zero, zero_mul] at h
    exact lt_irrefl 0 h
  have hone : (1 : ℝ) ≤ BinaryFormat.binary32.significand rank := by exact_mod_cast hpos
  have hexponent : -149 ≤ BinaryFormat.binary32.exponent rank :=
    BinaryFormat.minExponent_le_exponent .binary32 rank
  calc (2 : ℝ) ^ (-149 : ℤ) ≤ 2 ^ BinaryFormat.binary32.exponent rank := by
        gcongr
        norm_num
    _ ≤ BinaryFormat.binary32.value rank := by
        rw [BinaryFormat.value_eq]
        exact le_mul_of_one_le_left (by positivity) hone

/-- A finite single is below `2 ^ 128`. -/
theorem value_lt {rank : ℕ} (h : rank < BinaryFormat.binary32.infinity) :
    BinaryFormat.binary32.value rank < 2 ^ 128 := by
  have hlt := (hasValue_ofBits rank h).abs_lt
  exact (le_abs_self _).trans_lt hlt

namespace Decimal

variable {d : Decimal} {f : BinaryFormat} {rank : ℕ}

/-- The number of a decimal without its sign. -/
noncomputable def magnitude (d : Decimal) : ℝ := d.digits * 10 ^ d.exponent

/-- A decimal in the range of singles does not have a great exponent. -/
theorem exponent_le_of_magnitude (hdigits : 0 < d.digits) (h : d.magnitude < 2 ^ 128) :
    d.exponent ≤ 400 := by
  by_contra! hlarge
  have hone : (1 : ℝ) ≤ d.digits := by exact_mod_cast hdigits
  have hge : (10 : ℝ) ^ (40 : ℤ) ≤ d.magnitude := by
    calc (10 : ℝ) ^ (40 : ℤ) ≤ 10 ^ d.exponent := by
          gcongr
          · norm_num
          · omega
      _ ≤ d.magnitude := le_mul_of_one_le_left (by positivity) hone
  have hgap : (2 : ℝ) ^ 128 < 10 ^ (40 : ℤ) := by norm_num
  exact absurd (hge.trans_lt h) hgap.not_gt

/-- A decimal in the range of singles has an exponent that is not far below zero, counting its
digits. -/
theorem le_exponent_of_magnitude (h : 2 ^ (-149 : ℤ) ≤ d.magnitude) :
    -400 ≤ d.exponent + Nat.log2 d.digits := by
  by_contra! hsmall
  have hdigits : (d.digits : ℝ) ≤ 10 ^ (d.digits.log2 + 1) := by
    calc (d.digits : ℝ) ≤ 2 ^ (d.digits.log2 + 1) := by exact_mod_cast Nat.lt_log2_self.le
      _ ≤ 10 ^ (d.digits.log2 + 1) := by gcongr; norm_num
  have hle : d.magnitude ≤ 10 ^ (-50 : ℤ) := by
    calc d.magnitude ≤ 10 ^ (d.digits.log2 + 1) * 10 ^ d.exponent := by
          unfold magnitude
          gcongr
      _ = 10 ^ ((d.digits.log2 + 1 : ℕ) + d.exponent) := by
          rw [← zpow_natCast, ← zpow_add₀ (by norm_num)]
      _ ≤ 10 ^ (-50 : ℤ) := by
          gcongr
          · norm_num
          · push_cast
            omega
  have hgap : (10 : ℝ) ^ (-50 : ℤ) < 2 ^ (-149 : ℤ) := by norm_num
  exact absurd (h.trans hle) hgap.not_ge

/-- A decimal that is a number of the format has the rank of this number, if it is of the size of a
single. -/
theorem rank_of_value (hrank : rank ≤ f.infinity) (h : d.magnitude = f.value rank)
    (hlow : 0 < d.magnitude → 2 ^ (-149 : ℤ) ≤ d.magnitude) (hhigh : d.magnitude < 2 ^ 128) :
    d.rank f = rank := by
  have hnearest : f.nearest (ratio 10 d.digits d.exponent).1 (ratio 10 d.digits d.exponent).2 =
      rank := by
    apply BinaryFormat.nearest_of_value (ratio_snd_pos (by norm_num) _ _) hrank
    rw [ratio_eq (by norm_num), ← h, magnitude, Nat.cast_ofNat]
  unfold Decimal.rank
  rcases Nat.eq_zero_or_pos d.digits with hzero | hpos
  · rw [hzero, ratio, Nat.zero_mul] at hnearest
    rw [if_pos hzero, ← hnearest]
    exact (if_pos rfl).symm
  · have hmagnitude : 0 < d.magnitude := by
      have hcast : (0 : ℝ) < d.digits := by exact_mod_cast hpos
      unfold magnitude
      positivity
    have hlarge := exponent_le_of_magnitude hpos hhigh
    have hsmall := le_exponent_of_magnitude (hlow hmagnitude)
    rw [if_neg hpos.ne', if_neg (by omega), if_neg (by omega)]
    exact hnearest

section Single

variable (hrank : rank < BinaryFormat.binary32.infinity)
  (h : d.magnitude = BinaryFormat.binary32.value rank)

include hrank h

/-- A decimal that is the value of a rank is read as the single of that rank. -/
theorem toSingle_of_value : d.toSingle = singleOfRank d.negative rank := by
  unfold toSingle
  rw [rank_of_value hrank.le h]
  · rw [h]
    exact le_value_of_pos
  · rw [h]
    exact value_lt hrank

/-- A decimal that is a single survives the rounding to a double. -/
theorem narrow_toDouble : narrow d.toDouble = singleOfRank d.negative rank := by
  obtain ⟨wide, hwide, hvalue⟩ := exists_rank_of_single hrank
  unfold toDouble
  rw [rank_of_value hwide.le (h.trans hvalue.symm)]
  · exact narrow_doubleOfRank d.negative hwide hrank hvalue
  · rw [h]
    exact le_value_of_pos
  · rw [h]
    exact value_lt hrank

end Single

/-- An integer read as a decimal has its absolute value for a magnitude. -/
theorem magnitude_ofInt (i : ℤ) : (ofInt i).magnitude = i.natAbs := by
  unfold magnitude ofInt
  rw [zpow_zero, mul_one]

/-- The decimal of a finite single has its sign and its value; the others have no decimal. -/
theorem ofSingle?_eq_some {x : Float32} (h : x.isFinite = true) :
    ∃ d, ofSingle? x = some d ∧ d.negative = singleSign x ∧
      d.magnitude = BinaryFormat.binary32.value (singleRank x) := by
  unfold ofSingle?
  simp only [if_neg (singleRank_lt h).not_ge, BinaryFormat.value_eq]
  generalize BinaryFormat.binary32.significand (singleRank x) = m
  generalize BinaryFormat.binary32.exponent (singleRank x) = e
  refine ⟨_, rfl, ?_⟩
  split
  next hwhole =>
    refine ⟨rfl, ?_⟩
    obtain ⟨k, rfl⟩ := Int.eq_ofNat_of_zero_le hwhole
    simp [magnitude]
  next hfraction =>
    refine ⟨rfl, ?_⟩
    -- Tens are twos and fives, and the fives are in the digits.
    have hfives : (5 : ℝ) ^ (-e).toNat = 5 ^ (-e) := by
      rw [← zpow_natCast, Int.toNat_of_nonneg (by omega)]
    have hten : (10 : ℝ) ^ e = 5 ^ e * 2 ^ e := by
      rw [← mul_zpow]
      norm_num
    simp only [magnitude, Nat.pow_eq]
    push_cast
    rw [hfives, hten, mul_assoc, ← mul_assoc (5 ^ (-e) : ℝ), ← zpow_add₀ (by norm_num)]
    simp

/-- A single that is not finite has no number to be written as. -/
theorem ofSingle?_eq_none {x : Float32} (h : x.isFinite = false) : ofSingle? x = none := by
  unfold ofSingle?
  apply if_pos
  by_contra! hlt
  have hvalue := hasValue_singleOfRank (singleSign x) (singleRank x) hlt
  rw [singleOfRank_singleRank] at hvalue
  rw [hvalue.isFinite] at h
  cases h

end Decimal

end BranchingTubes
