import BranchingTubes.Number.Binary
import BranchingTubes.Proofs.UnpackedArithmetic
import Mathlib

/-!
# The numbers of a binary format

A rank stands for a significand times a power of two, and the two give the rank back
(`BinaryFormat.rank_eq`).  Conversely, a number of units in a place of the format is the number of
the rank that counts these units from that place (`BinaryFormat.value_of_place`).  A bit pattern is
a sign and a rank, which can be told apart in it (`BinaryFormat.sign_of_pattern`,
`BinaryFormat.rank_of_pattern`).

The magnitude of a quotient and its rounding to an integer are computed in natural numbers, and they
are the logarithm and the nearest integer of the real quotient (`binaryMagnitude_eq`,
`roundHalfEven_eq`).  It follows that rounding leaves a number of the format as it is
(`BinaryFormat.nearest_of_value`).
-/

set_option autoImplicit false

namespace BranchingTubes

namespace BinaryFormat

variable {f : BinaryFormat} {rank : ℕ}

/-- The number of a rank. -/
noncomputable def value (f : BinaryFormat) (rank : ℕ) : ℝ :=
  f.significand rank * (2 : ℕ) ^ f.exponent rank

/-- The value of a rank is its significand times a power of two. -/
theorem value_eq (f : BinaryFormat) (rank : ℕ) :
    f.value rank = f.significand rank * 2 ^ f.exponent rank := by rw [value, Nat.cast_ofNat]

/-- The hidden bit is the one above the fraction. -/
theorem hiddenBit_eq (f : BinaryFormat) : f.hiddenBit = 2 ^ f.fractionBits := rfl

/-- The hidden bit is not zero. -/
theorem hiddenBit_pos (f : BinaryFormat) : 0 < f.hiddenBit := Nat.pow_pos (by norm_num)

/-- A subnormal rank is its own significand. -/
theorem significand_of_lt (h : rank < f.hiddenBit) : f.significand rank = rank := if_pos h

/-- Subnormal ranks have the least exponent. -/
theorem exponent_of_lt (h : rank < f.hiddenBit) : f.exponent rank = f.minExponent := by
  unfold exponent
  rw [Nat.div_eq_of_lt h]
  simp

/-- A normal rank has the hidden bit set in its significand. -/
theorem significand_of_le (h : f.hiddenBit ≤ rank) :
    f.significand rank = rank % f.hiddenBit + f.hiddenBit := if_neg (not_lt.mpr h)

/-- No rank has an exponent below that of the subnormal ones. -/
theorem minExponent_le_exponent (f : BinaryFormat) (rank : ℕ) : f.minExponent ≤ f.exponent rank := by
  unfold exponent
  omega

/-- A significand has at most one bit more than the fraction. -/
theorem significand_lt (f : BinaryFormat) (rank : ℕ) : f.significand rank < 2 * f.hiddenBit := by
  have hpos := f.hiddenBit_pos
  rcases lt_or_ge rank f.hiddenBit with hsmall | hlarge
  · rw [significand_of_lt hsmall]
    omega
  · have hrest := Nat.mod_lt rank hpos
    rw [significand_of_le hlarge]
    omega

/-- A significand has its leading bit, or else its last place is the least one. -/
theorem normal_significand (f : BinaryFormat) (rank : ℕ) :
    f.hiddenBit ≤ f.significand rank ∨ f.exponent rank = f.minExponent := by
  rcases lt_or_ge rank f.hiddenBit with hsmall | hlarge
  · exact .inr (exponent_of_lt hsmall)
  · rw [significand_of_le hlarge]
    exact .inl (Nat.le_add_left ..)

/-- A rank counts the significand from the place where it stands. -/
theorem rank_eq (f : BinaryFormat) (rank : ℕ) :
    (f.exponent rank - f.minExponent).toNat * f.hiddenBit + f.significand rank = rank := by
  rcases lt_or_ge rank f.hiddenBit with hsmall | hlarge
  · rw [exponent_of_lt hsmall, significand_of_lt hsmall, sub_self, Int.toNat_zero, zero_mul, zero_add]
  · have hfield : 0 < rank / f.hiddenBit := Nat.div_pos hlarge f.hiddenBit_pos
    have hplace : (f.exponent rank - f.minExponent).toNat = rank / f.hiddenBit - 1 := by
      unfold exponent
      omega
    rw [hplace, significand_of_le hlarge, Nat.sub_one_mul]
    have hle : f.hiddenBit ≤ rank / f.hiddenBit * f.hiddenBit := Nat.le_mul_of_pos_left _ hfield
    have hsplit := Nat.div_add_mod' rank f.hiddenBit
    omega

/-- Only the rank zero has the significand zero. -/
theorem eq_zero_of_significand (h : f.significand rank = 0) : rank = 0 := by
  have hnormal := (f.normal_significand rank).resolve_left (by
    rw [h]
    exact not_le.mpr f.hiddenBit_pos)
  have hrank := f.rank_eq rank
  rwa [hnormal, h, sub_self, Int.toNat_zero, zero_mul, zero_add, eq_comm] at hrank

/-- Ranks stand for numbers of at least zero. -/
theorem value_nonneg (f : BinaryFormat) (rank : ℕ) : 0 ≤ f.value rank := by
  rw [value_eq]
  positivity

/-- The rank zero stands for zero. -/
theorem value_zero (f : BinaryFormat) : f.value 0 = 0 := by
  rw [value_eq, significand_of_lt f.hiddenBit_pos, Nat.cast_zero, zero_mul]

/-- A number of units in a place stands at the rank that counts from that place, and a carry out
of the significand moves on to the next exponent. -/
theorem value_of_place {place : ℤ} {n : ℕ} (hplace : f.minExponent ≤ place)
    (hn : n ≤ 2 * f.hiddenBit) (hnormal : f.hiddenBit ≤ n ∨ place = f.minExponent) :
    f.value ((place - f.minExponent).toNat * f.hiddenBit + n) = n * 2 ^ place := by
  have hpos := f.hiddenBit_pos
  rcases lt_or_ge n f.hiddenBit with hsmall | hlarge
  · obtain rfl := hnormal.resolve_left (not_le.mpr hsmall)
    rw [sub_self, Int.toNat_zero, zero_mul, zero_add, value_eq, significand_of_lt hsmall,
      exponent_of_lt hsmall]
  · -- Past the hidden bit, the rank is the exponent field and what is left of the units.
    obtain ⟨rest, rfl⟩ := Nat.exists_eq_add_of_le hlarge
    set k := (place - f.minExponent).toNat with hk
    have hrank : k * f.hiddenBit + (f.hiddenBit + rest) = rest + (k + 1) * f.hiddenBit := by ring
    have hge : f.hiddenBit ≤ rest + (k + 1) * f.hiddenBit := by nlinarith
    rw [hrank, value_eq, significand_of_le hge, exponent, Nat.add_mul_mod_self_right,
      Nat.add_mul_div_right _ _ hpos]
    rcases lt_or_ge rest f.hiddenBit with hrest | hcarry
    · have hexponent : f.minExponent + ((rest / f.hiddenBit + (k + 1) - 1 : ℕ) : ℤ) = place := by
        rw [Nat.div_eq_of_lt hrest]
        omega
      rw [hexponent, Nat.mod_eq_of_lt hrest, Nat.add_comm rest]
    · obtain rfl : rest = f.hiddenBit := by omega
      have hexponent :
          f.minExponent + ((f.hiddenBit / f.hiddenBit + (k + 1) - 1 : ℕ) : ℤ) = place + 1 := by
        rw [Nat.div_self hpos]
        omega
      rw [hexponent, Nat.mod_self, zero_add, zpow_add_one₀ (by norm_num)]
      push_cast
      ring

/-! ## Bit patterns -/

/-- The rank of infinity leaves the sign bit free. -/
theorem infinity_lt_signWeight (f : BinaryFormat) : f.infinity < f.signWeight := by
  have hfield : 0 < 2 ^ f.exponentBits := by positivity
  unfold infinity signWeight
  rw [hiddenBit_eq, Nat.pow_eq, Nat.pow_eq, pow_add, mul_comm (2 ^ f.fractionBits)]
  exact Nat.mul_lt_mul_of_pos_right (Nat.sub_one_lt hfield.ne') (by positivity)

/-- The bit pattern of a sign and a rank. -/
theorem pattern_eq (f : BinaryFormat) (negative : Bool) (rank : ℕ) :
    (if negative then f.signWeight + rank else rank) = negative.toNat * f.signWeight + rank := by
  cases negative <;> simp

/-- The bits below the sign are the rank. -/
theorem rank_of_pattern (negative : Bool) (h : rank < f.signWeight) :
    (negative.toNat * f.signWeight + rank) % f.signWeight = rank := by
  rw [Nat.mul_add_mod_self_right, Nat.mod_eq_of_lt h]

/-- The bit above the rank is the sign. -/
theorem sign_of_pattern (negative : Bool) (h : rank < f.signWeight) :
    decide (f.signWeight ≤ negative.toNat * f.signWeight + rank) = negative := by
  cases negative
  · apply decide_eq_false
    rw [Bool.toNat_false]
    omega
  · apply decide_eq_true
    rw [Bool.toNat_true]
    omega

end BinaryFormat

/-! ## Quotients of natural numbers -/

/-- The nearest integer to a whole number and a rest. -/
theorem nearestEven_add_div {whole rest den : ℕ} (h : rest < den) :
    nearestEven (whole + rest / den) =
      (if den < 2 * rest ∨ (2 * rest = den ∧ whole % 2 = 1) then whole + 1 else whole : ℕ) := by
  have hpos : (0 : ℝ) < den := by exact_mod_cast Nat.zero_lt_of_lt h
  have hrest : (0 : ℝ) ≤ rest / den := by positivity
  have hrest_lt : (rest : ℝ) / den < 1 := by
    rw [div_lt_one hpos]
    exact_mod_cast h
  have hhalf : (rest : ℝ) / den = 1 / 2 ↔ 2 * rest = den := by
    rw [div_eq_div_iff hpos.ne' (by norm_num), ← Nat.cast_inj (R := ℝ)]
    push_cast
    constructor <;> intro h <;> linarith
  apply NearestEven.eq_nearestEven
  split
  next hup =>
    have hge : 1 / 2 ≤ (rest : ℝ) / den := by
      have hcast : (den : ℝ) ≤ 2 * rest := by
        exact_mod_cast hup.elim Nat.le_of_lt fun htie => htie.1.ge
      rw [div_le_div_iff₀ (by norm_num) hpos]
      linarith
    have herror : |(whole : ℝ) + rest / den - ((whole + 1 : ℕ) : ℤ)| = 1 - rest / den := by
      push_cast
      rw [abs_of_nonpos] <;> linarith
    constructor
    · rw [herror]
      linarith
    · intro htie
      have hexact := hhalf.mp (by linarith)
      rw [Int.even_coe_nat, Nat.even_iff]
      omega
  next hdown =>
    have hle : (rest : ℝ) / den ≤ 1 / 2 := by
      have hcast : 2 * (rest : ℝ) ≤ den := by
        rw [not_or, not_lt] at hdown
        exact_mod_cast hdown.1
      rw [div_le_div_iff₀ hpos (by norm_num)]
      linarith
    have herror : |(whole : ℝ) + rest / den - ((whole : ℕ) : ℤ)| = rest / den := by
      push_cast
      rw [abs_of_nonneg] <;> linarith
    constructor
    · rw [herror]
      exact hle
    · intro htie
      have hexact := hhalf.mp (by linarith)
      rw [Int.even_coe_nat, Nat.even_iff]
      omega

/-- The rounded quotient of natural numbers is the integer nearest to their exact quotient. -/
theorem roundHalfEven_eq {num den : ℕ} (hden : 0 < den) :
    (roundHalfEven num den : ℤ) = nearestEven (num / den) := by
  have hsplit : (num : ℝ) / den = (num / den : ℕ) + (num % den : ℕ) / (den : ℝ) := by
    have hpos : (0 : ℝ) < den := by exact_mod_cast hden
    rw [div_eq_iff hpos.ne', add_mul, div_mul_cancel₀ _ hpos.ne', mul_comm ((num / den : ℕ) : ℝ)]
    exact_mod_cast (Nat.div_add_mod num den).symm
  rw [hsplit, nearestEven_add_div (Nat.mod_lt num hden)]
  rfl

/-- A power with the positive part of an exponent is the power with the exponent, less the negative
part. -/
theorem pow_toNat_eq {b : ℝ} (hb : b ≠ 0) (k : ℤ) : b ^ k.toNat = b ^ k * b ^ (-k).toNat := by
  rw [← zpow_natCast, ← zpow_natCast, ← zpow_add₀ hb]
  congr 1
  omega

/-- Scaling a numerator or a denominator, by which an exponent of either sign is applied. -/
theorem scaled_quotient (num den : ℕ) (k : ℤ) :
    ((num * Nat.pow 2 (-k).toNat : ℕ) : ℝ) / ((den * Nat.pow 2 k.toNat : ℕ) : ℝ) =
      num / den / 2 ^ k := by
  have hpos : (0 : ℝ) < 2 ^ (-k).toNat := by positivity
  simp only [Nat.pow_eq]
  push_cast
  rw [pow_toNat_eq two_ne_zero k, div_div, mul_comm (2 ^ k : ℝ), ← mul_assoc, mul_right_comm,
    mul_div_mul_right _ _ hpos.ne']

/-- The magnitude of a quotient is the binary logarithm of its exact value. -/
theorem binaryMagnitude_eq {num den : ℕ} (hnum : 0 < num) (hden : 0 < den) :
    binaryMagnitude num den = Int.log 2 ((num : ℝ) / den) := by
  have hlog {n : ℕ} (hn : 0 < n) : Int.log 2 (n : ℝ) = n.log2 := by
    simpa using log_natCast_mul_zpow hn 0
  have hge := log_div_ge (x := num) (y := den) (by exact_mod_cast hnum) (by exact_mod_cast hden)
  have hle := log_div_le (x := num) (y := den) (by exact_mod_cast hnum) (by exact_mod_cast hden)
  rw [hlog hnum, hlog hden] at hge hle
  -- The estimate is right or one too high, and the comparison tells which.
  have htest : num * Nat.pow 2 (-((num.log2 : ℤ) - den.log2)).toNat <
        den * Nat.pow 2 ((num.log2 : ℤ) - den.log2).toNat ↔
      Int.log 2 ((num : ℝ) / den) < (num.log2 : ℤ) - den.log2 := by
    have hscaled := scaled_quotient num den ((num.log2 : ℤ) - den.log2)
    have hscale : 0 < den * Nat.pow 2 ((num.log2 : ℤ) - den.log2).toNat :=
      Nat.mul_pos hden (Nat.pow_pos (by norm_num))
    rw [← Int.lt_zpow_iff_log_lt (b := 2) (by norm_num) (by positivity), Nat.cast_ofNat,
      ← div_lt_one (b := (2 : ℝ) ^ ((num.log2 : ℤ) - den.log2)) (by positivity), ← hscaled,
      div_lt_one (by exact_mod_cast hscale), Nat.cast_lt]
  unfold binaryMagnitude
  simp only [htest]
  split <;> omega

namespace BinaryFormat

variable {f : BinaryFormat} {rank num den : ℕ}

/-- The place that rounding takes for a number of the format is that of its significand. -/
theorem place_of_value (hpos : 0 < f.significand rank) :
    max f.minExponent (((f.significand rank).log2 : ℤ) + f.exponent rank - f.fractionBits) =
      f.exponent rank := by
  have hlt := f.significand_lt rank
  rw [hiddenBit_eq, ← pow_succ', ← Nat.log2_lt hpos.ne'] at hlt
  rcases f.normal_significand rank with hnormal | hleast
  · rw [hiddenBit_eq, ← Nat.le_log2 hpos.ne'] at hnormal
    have hle := f.minExponent_le_exponent rank
    omega
  · omega

/-- Rounding leaves a number of the format as it is. -/
theorem nearest_of_value (hden : 0 < den) (hrank : rank ≤ f.infinity)
    (h : (num : ℝ) / den = f.value rank) : f.nearest num den = rank := by
  have hden_ne : (den : ℝ) ≠ 0 := by exact_mod_cast hden.ne'
  unfold nearest
  split
  next hzero =>
    rw [hzero, Nat.cast_zero, zero_div, value_eq, zero_eq_mul, Nat.cast_eq_zero] at h
    exact (eq_zero_of_significand (h.resolve_right (by positivity))).symm
  next hnum =>
    have hpos : 0 < f.significand rank := by
      by_contra! hzero
      rw [value_eq, Nat.le_zero.mp hzero, Nat.cast_zero, zero_mul, div_eq_zero_iff] at h
      exact hnum (by exact_mod_cast h.resolve_right hden_ne)
    have hplace : max f.minExponent (binaryMagnitude num den - f.fractionBits) =
        f.exponent rank := by
      rw [binaryMagnitude_eq (Nat.pos_of_ne_zero hnum) hden, h, value_eq, log_natCast_mul_zpow hpos]
      exact place_of_value hpos
    have hrounded : roundHalfEven (num * Nat.pow 2 (-f.exponent rank).toNat)
        (den * Nat.pow 2 (f.exponent rank).toNat) = f.significand rank := by
      have hscale : 0 < den * Nat.pow 2 (f.exponent rank).toNat :=
        Nat.mul_pos hden (Nat.pow_pos (by norm_num))
      have hnearest := @roundHalfEven_eq (num * Nat.pow 2 (-f.exponent rank).toNat) _ hscale
      rw [scaled_quotient, h, value_eq, mul_div_cancel_right₀ _ (by positivity)] at hnearest
      have hexact := nearestEven_intCast (f.significand rank)
      rw [Int.cast_natCast] at hexact
      rw [hexact] at hnearest
      exact_mod_cast hnearest
    simp only [hplace, hrounded]
    rw [f.rank_eq]
    exact min_eq_right hrank

end BinaryFormat

end BranchingTubes
