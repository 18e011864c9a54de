import BranchingTubes.Number.Single
import BranchingTubes.Proofs.FormatRanks
import BranchingTubes.Proofs.SingleArithmetic
import Mathlib

/-!
# The value of a single of a given rank

A bit pattern is a sign bit and the rank of its number, and a rank below that of infinity is read
as a significand times a power of two (`hasValue_singleOfRank`).  The constants of the library are
such patterns.  Going the other way, the rank of a quotient of natural numbers is that of the
nearest single (`hasValue_nearest`).
-/

set_option autoImplicit false

namespace BranchingTubes

open Float.Model (UnpackedFloat Format)
open Float.Model.UnpackedFloat

/-- The sign whose bit is set or not. -/
def signOf (negative : Bool) : Sign := if negative then .negative else .positive

/-- Packed fields stand side by side in the bit pattern: sign, exponent, fraction. -/
theorem toNat_packComponents (negative : Bool) (exponent : BitVec 8) (mantissa : BitVec 23) :
    (packComponents .binary32 (signOf negative) exponent mantissa).toNat =
      negative.toNat * 2 ^ 31 + exponent.toNat * 2 ^ 23 + mantissa.toNat := by
  have hsign : (signOf negative).toBitVec.toNat = negative.toNat := by cases negative <;> rfl
  unfold packComponents
  rw [BitVec.toNat_append, BitVec.toNat_append, ← Nat.shiftLeft_add_eq_or_of_lt mantissa.isLt,
    ← Nat.shiftLeft_add_eq_or_of_lt exponent.isLt, Nat.shiftLeft_eq, Nat.shiftLeft_eq, hsign]
  change (negative.toNat * 2 ^ 8 + exponent.toNat) * 2 ^ 23 + mantissa.toNat = _
  omega

/-- The bit pattern of a rank is packed from its upper and its lower bits. -/
theorem ofNat_eq_packComponents (negative : Bool) {rank : ℕ} (h : rank < 2 ^ 31) :
    BitVec.ofNat 32 (negative.toNat * 2 ^ 31 + rank) =
      packComponents .binary32 (signOf negative) (BitVec.ofNat 8 (rank / 2 ^ 23))
        (BitVec.ofNat 23 rank) := by
  have hbit : negative.toNat < 2 := Bool.toNat_lt negative
  apply BitVec.eq_of_toNat_eq
  rw [toNat_packComponents, BitVec.toNat_ofNat, BitVec.toNat_ofNat, BitVec.toNat_ofNat]
  omega

/-- The bit pattern of a rank below infinity denotes the value of the rank, with the sign. -/
theorem unpack_rank (negative : Bool) {rank : ℕ} (h : rank < BinaryFormat.binary32.infinity) :
    Denotes (unpack .binary32 (BitVec.ofNat 32 (negative.toNat * 2 ^ 31 + rank)))
      (signed (signOf negative) (BinaryFormat.binary32.value rank)) := by
  have hinfinity : BinaryFormat.binary32.infinity = 255 * 2 ^ 23 := rfl
  have hhidden : BinaryFormat.binary32.hiddenBit = 2 ^ 23 := rfl
  have hleast : BinaryFormat.binary32.minExponent = -149 := rfl
  rw [hinfinity] at h
  rw [ofNat_eq_packComponents _ (by omega), BinaryFormat.value_eq, BinaryFormat.significand,
    BinaryFormat.exponent, hhidden, hleast]
  split
  next hsmall =>
    have hfield : rank / 2 ^ 23 = 0 := Nat.div_eq_of_lt hsmall
    rw [hfield]
    rcases Nat.eq_zero_or_pos rank with rfl | hpos
    · rw [Nat.cast_zero, zero_mul, signed_zero]
      cases negative
      · exact .zero .positive
      · exact .zero .negative
    · rw [unpack_subnormal _ hpos hsmall]
      exact .finite _ hpos (by omega) le_rfl (.inr rfl)
  next hlarge =>
    have hplace : (-149 : ℤ) + ((rank / 2 ^ 23 - 1 : ℕ) : ℤ) = (rank / 2 ^ 23 : ℕ) - 150 := by omega
    have hfield : BitVec.ofNat 8 (rank / 2 ^ 23) =
        BitVec.ofNat 8 (((rank / 2 ^ 23 : ℕ) : ℤ) - 150 + 150).toNat := by
      congr 1
      omega
    have hfraction : BitVec.ofNat 23 rank = BitVec.ofNat 23 (rank % 2 ^ 23 + 2 ^ 23) := by
      apply BitVec.eq_of_toNat_eq
      rw [BitVec.toNat_ofNat, BitVec.toNat_ofNat]
      omega
    rw [hplace, hfield, hfraction, unpack_normal _ (by omega) (by omega) (by omega) (by omega)
      (by omega)]
    exact .finite _ (by omega) (by omega) (by omega) (.inl (by omega))

/-- A rank below that of infinity is read as a significand and an exponent. -/
theorem hasValue_singleOfRank (negative : Bool) (rank : ℕ)
    (h : rank < BinaryFormat.binary32.infinity) :
    HasValue (singleOfRank negative rank)
      (signed (signOf negative) (BinaryFormat.binary32.value rank)) := by
  have hweight : BinaryFormat.binary32.signWeight = 2 ^ 31 := rfl
  have hdenotes := unpack_rank negative h
  obtain ⟨x, hx, hlt⟩ := Denotes.of_unpack hdenotes.isFinite
  rw [hx.unique hdenotes] at hlt
  unfold singleOfRank
  rw [BinaryFormat.pattern_eq, hweight]
  change Denotes (unpack .binary32 (pack .binary32
    (unpack .binary32 (BitVec.ofNat 32 (negative.toNat * 2 ^ 31 + rank))))) _
  rwa [hdenotes.unpack_pack hlt]

/-- The single of a rank below infinity has the value of the rank. -/
theorem hasValue_ofBits (rank : ℕ) (h : rank < BinaryFormat.binary32.infinity) :
    HasValue (Float32.ofBits (UInt32.ofNat rank)) (BinaryFormat.binary32.value rank) :=
  hasValue_singleOfRank false rank h

/-- The value of a constant is read off the fields of its bit pattern. -/
theorem hasValue_of_fields {a : Float32} {m : ℕ} {e : ℤ} (rank : ℕ)
    (ha : a = Float32.ofBits (UInt32.ofNat rank)) (h : rank < BinaryFormat.binary32.infinity)
    (hm : BinaryFormat.binary32.significand rank = m)
    (he : BinaryFormat.binary32.exponent rank = e) : HasValue a (m * 2 ^ e) := by
  rw [ha, ← hm, ← he, ← BinaryFormat.value_eq]
  exact hasValue_ofBits rank h

/-- The value of zero. -/
theorem hasValue_zero : HasValue 0 0 := Denotes.zero .positive

/-- The value of one. -/
theorem hasValue_one : HasValue 1 1 := by
  have h : HasValue 1 ((2 ^ 23 : ℕ) * 2 ^ (-23 : ℤ)) :=
    hasValue_of_fields 0x3f800000 rfl (by decide) (by decide) (by decide)
  norm_num at h
  exact h

/-- The value of a half. -/
theorem hasValue_half : HasValue 0.5 (1 / 2) := by
  have h : HasValue 0.5 ((2 ^ 23 : ℕ) * 2 ^ (-24 : ℤ)) :=
    hasValue_of_fields 0x3f000000 (by decide +kernel) (by decide) (by decide) (by decide)
  norm_num at h ⊢
  exact h

/-- The value of two. -/
theorem hasValue_two : HasValue 2 2 := by
  have h : HasValue 2 ((2 ^ 23 : ℕ) * 2 ^ (-22 : ℤ)) :=
    hasValue_of_fields 0x40000000 rfl (by decide) (by decide) (by decide)
  norm_num at h
  exact h

/-- A factor of at most one keeps a number finite. -/
theorem isFinite_mul_of_abs_le_one {a b : Float32} {y : ℝ} (ha : a.isFinite = true)
    (hb : HasValue b y) (hy : |y| ≤ 1) : (a * b).isFinite = true := by
  obtain ⟨x, hx⟩ := exists_hasValue ha
  have hrepresentable : Representable |x| := by
    rcases abs_choice x with habs | habs <;> rw [habs]
    · exact hx.representable
    · exact hx.representable.neg
  have hproduct : |x * y| ≤ |x| := by
    rw [abs_mul]
    exact mul_le_of_le_one_right (abs_nonneg x) hy
  exact ((hx.mul hb).hasValue_of_abs_le hrepresentable hx.abs_lt hproduct).1.isFinite

/-! ## Singles by sign and rank -/

/-- A single is its sign and its rank. -/
theorem singleOfRank_singleRank (a : Float32) : singleOfRank (singleSign a) (singleRank a) = a := by
  have hweight : BinaryFormat.binary32.signWeight = 2 ^ 31 := rfl
  have hlt := a.toBits.toNat_lt
  have hpattern : (if singleSign a then BinaryFormat.binary32.signWeight + singleRank a
      else singleRank a) = a.toBits.toNat := by
    unfold singleSign singleRank
    rw [hweight]
    by_cases hsign : 2 ^ 31 ≤ a.toBits.toNat
    · rw [if_pos (decide_eq_true hsign)]
      omega
    · rw [if_neg (mt of_decide_eq_true hsign)]
      omega
  unfold singleOfRank
  rw [hpattern, UInt32.ofNat_toNat, Float32.ofBits_toBits]

/-- A finite single has a rank below that of infinity. -/
theorem singleRank_lt {a : Float32} (h : a.isFinite = true) :
    singleRank a < BinaryFormat.binary32.infinity := by
  have hinfinity : BinaryFormat.binary32.infinity = 255 * 2 ^ 23 := rfl
  have hweight : BinaryFormat.binary32.signWeight = 2 ^ 31 := rfl
  change (unpack .binary32 a.toBits.toBitVec).isFinite = true at h
  change a.toBits.toBitVec.toNat % BinaryFormat.binary32.signWeight < _
  generalize a.toBits.toBitVec = b at h
  rw [hinfinity, hweight]
  by_contra! hlarge
  have hfield : @unpackExponent .binary32 b = -BitVec.ofNat 8 1 := by
    apply BitVec.eq_of_toNat_eq
    change (BitVec.cast _ (BitVec.extractLsb 30 23 b)).toNat = 255
    rw [BitVec.toNat_cast, BitVec.extractLsb_toNat, Nat.shiftRight_eq_div_pow]
    omega
  unfold unpack at h
  simp only [hfield] at h
  split at h
  next => split at h <;> cases h
  next hne => exact hne trivial

/-- The value of a finite single is read off its sign and its rank. -/
theorem hasValue_of_isFinite {a : Float32} (h : a.isFinite = true) :
    HasValue a (signed (signOf (singleSign a)) (BinaryFormat.binary32.value (singleRank a))) := by
  have hvalue := hasValue_singleOfRank (singleSign a) (singleRank a) (singleRank_lt h)
  rwa [singleOfRank_singleRank] at hvalue

/-! ## The rank of a quotient -/

/-- A number of units in a last place stands at the rank that counts from that place, and a carry
out of the significand moves on to the next exponent. -/
theorem value_of_lastPlace {place : ℤ} {n : ℕ} (hplace : -149 ≤ place) (hn : n ≤ 2 ^ 24)
    (hnormal : 2 ^ 23 ≤ n ∨ place = -149) :
    BinaryFormat.binary32.value ((place + 149).toNat * 2 ^ 23 + n) = n * 2 ^ place := by
  have hhidden : BinaryFormat.binary32.hiddenBit = 2 ^ 23 := rfl
  have hleast : BinaryFormat.binary32.minExponent = -149 := rfl
  have hvalue := @BinaryFormat.value_of_place .binary32 place n
  rw [hhidden, hleast, sub_neg_eq_add] at hvalue
  exact hvalue hplace hn hnormal

/-- The rank of a number that is not too large is below that of infinity. -/
theorem rank_lt_infinity {place : ℤ} {n : ℕ} (hn : n ≤ 2 ^ 24) (hnormal : 2 ^ 23 ≤ n ∨ place = -149)
    (hlt : (n : ℝ) * 2 ^ place < 2 ^ 128) :
    (place + 149).toNat * 2 ^ 23 + n < BinaryFormat.binary32.infinity := by
  have hinfinity : BinaryFormat.binary32.infinity = 255 * 2 ^ 23 := rfl
  rw [hinfinity]
  by_contra! hlarge
  rcases le_or_gt place 104 with hlast | hbeyond
  · have hcarry : n = 2 ^ 24 := by omega
    have hexponent : place = 104 := by omega
    rw [hcarry, hexponent] at hlt
    norm_num at hlt
  · have hlead : (2 : ℝ) ^ (23 : ℤ) ≤ n := by exact_mod_cast hnormal.resolve_right (by omega)
    have hover : (2 : ℝ) ^ (23 : ℤ) * 2 ^ (105 : ℤ) ≤ n * 2 ^ place := by
      gcongr
      · norm_num
      · omega
    norm_num at hover
    linarith

/-- In units of its last place, the nearest single to a positive number is a significand, or the
carry out of one. -/
theorem units_of_nearestSingle {x : ℝ} {n : ℕ} (hx : 0 < x)
    (h : (n : ℝ) * 2 ^ lastPlace x = nearestSingle x) :
    n ≤ 2 ^ 24 ∧ (2 ^ 23 ≤ n ∨ lastPlace x = -149) := by
  constructor
  · have hbound := nearestSingle_le_of_pos hx
    rw [← h, zpow_add₀ (by norm_num), mul_comm (2 ^ lastPlace x : ℝ)] at hbound
    have hcast := le_of_mul_le_mul_right hbound (by positivity)
    exact_mod_cast hcast
  · rcases (neg149_le_lastPlace x).eq_or_lt with heq | hlt
    · exact .inr heq.symm
    · have hbound := le_nearestSingle_of_pos hx hlt
      rw [← h, zpow_add₀ (by norm_num), mul_comm (2 ^ lastPlace x : ℝ)] at hbound
      have hcast := le_of_mul_le_mul_right hbound (by positivity)
      exact .inl (by exact_mod_cast hcast)

/-- The nearest single to a positive quotient stands at its last place and so many units of it. -/
theorem exists_nearest_eq {num den : ℕ} (hnum : 0 < num) (hden : 0 < den)
    (hx : nearestSingle ((num : ℝ) / den) < 2 ^ 128) :
    ∃ n : ℕ, (n : ℝ) * 2 ^ lastPlace (num / den) = nearestSingle (num / den) ∧
      BinaryFormat.binary32.nearest num den =
        (lastPlace ((num : ℝ) / den) + 149).toNat * 2 ^ 23 + n := by
  have hhidden : BinaryFormat.binary32.hiddenBit = 2 ^ 23 := rfl
  have hleast : BinaryFormat.binary32.minExponent = -149 := rfl
  have hfraction : BinaryFormat.binary32.fractionBits = 23 := rfl
  have hpos : (0 : ℝ) < num / den := by positivity
  set x : ℝ := num / den with hquotient
  have hplace : max BinaryFormat.binary32.minExponent
      (binaryMagnitude num den - BinaryFormat.binary32.fractionBits) = lastPlace x := by
    rw [binaryMagnitude_eq hnum hden, hleast, hfraction, ← hquotient, lastPlace, abs_of_pos hpos]
    exact max_comm _ _
  set n := roundHalfEven (num * Nat.pow 2 (-lastPlace x).toNat)
    (den * Nat.pow 2 (lastPlace x).toNat) with hn_def
  have hrounded : (n : ℝ) * 2 ^ lastPlace x = nearestSingle x := by
    have hscale : 0 < den * Nat.pow 2 (lastPlace x).toNat :=
      Nat.mul_pos hden (Nat.pow_pos (by norm_num))
    have hnearest := @roundHalfEven_eq (num * Nat.pow 2 (-lastPlace x).toNat) _ hscale
    rw [scaled_quotient, ← hquotient, ← hn_def] at hnearest
    unfold nearestSingle
    rw [← hnearest, Int.cast_natCast]
  refine ⟨n, hrounded, ?_⟩
  obtain ⟨hn, hnormal⟩ := units_of_nearestSingle hpos hrounded
  rw [← hrounded] at hx
  unfold BinaryFormat.nearest
  rw [if_neg hnum.ne']
  simp only [hplace]
  rw [hhidden, hleast, sub_neg_eq_add]
  exact min_eq_right (rank_lt_infinity hn hnormal hx).le

/-- The rank of a quotient is that of the nearest single, unless this is too large. -/
theorem hasValue_nearest (negative : Bool) {num den : ℕ} (hden : 0 < den)
    (hx : nearestSingle ((num : ℝ) / den) < 2 ^ 128) :
    HasValue (singleOfRank negative (BinaryFormat.binary32.nearest num den))
      (signed (signOf negative) (nearestSingle (num / den))) := by
  rcases Nat.eq_zero_or_pos num with rfl | hnum
  · have hzero := hasValue_singleOfRank negative 0 (by decide)
    rw [BinaryFormat.value_zero, signed_zero] at hzero
    rwa [Nat.cast_zero, zero_div, nearestSingle_zero, signed_zero]
  obtain ⟨n, hrounded, hnearest⟩ := exists_nearest_eq hnum hden hx
  obtain ⟨hn, hnormal⟩ := units_of_nearestSingle (by positivity) hrounded
  rw [← hrounded] at hx
  rw [hnearest, ← hrounded, ← value_of_lastPlace (neg149_le_lastPlace _) hn hnormal]
  exact hasValue_singleOfRank negative _ (rank_lt_infinity hn hnormal hx)

end BranchingTubes
