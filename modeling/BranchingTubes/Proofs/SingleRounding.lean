import BranchingTubes.Proofs.NearestSingle
import Mathlib

/-!
# What the rounding of unpacked numbers computes

The standard library computes with unpacked numbers and rounds them by shifting significands.
`Denotes` says which real number an unpacked single is, and `denotes_roundWithAccuracy` that
rounding gives the nearest single of the exact result.

The shifted-out bits are kept as two: whether they reach a half of the last place, and whether
they are anything else than nothing or a half.  `Truncates` is this invariant.  A shift by one
place keeps it, and it decides about the nearest integer.
-/

set_option autoImplicit false

namespace BranchingTubes

open Float.Model (UnpackedFloat Format totalExponent)
open Float.Model.UnpackedFloat

/-! ## Truncated significands -/

/-- A significand with two further bits is a number cut off at the last place: the first bit
tells whether the rest reaches a half, the second whether it is neither nothing nor a half. -/
structure Truncates (em : ExtendedMantissa) (y : ℝ) : Prop where
  le : (em.mantissa : ℝ) ≤ y
  lt : y < em.mantissa + 1
  roundBit : em.roundBit = true ↔ (em.mantissa : ℝ) + 1 / 2 ≤ y
  stickyBit : em.stickyBit = true ↔ y ≠ em.mantissa ∧ y ≠ em.mantissa + 1 / 2

namespace Truncates

variable {em : ExtendedMantissa} {y : ℝ}

/-- What was cut off is noticed if and only if there was something. -/
theorem inexact_iff (h : Truncates em y) :
    (em.roundBit || em.stickyBit) = true ↔ y ≠ em.mantissa := by
  rw [Bool.or_eq_true, h.roundBit, h.stickyBit]
  constructor
  · rintro (hhalf | ⟨hne, -⟩) heq
    · linarith
    · exact hne heq
  · intro hne
    by_cases hhalf : y = em.mantissa + 1 / 2
    · exact .inl hhalf.ge
    · exact .inr ⟨hne, hhalf⟩

/-- A mantissa that is shifted by one place stands for half the number. -/
theorem shiftRightOne (h : Truncates em y) : Truncates em.shiftRightOne (y / 2) := by
  have hinexact := h.inexact_iff
  obtain ⟨m, r, s⟩ := em
  obtain ⟨hle, hlt, -, -⟩ := h
  simp only at hle hlt hinexact
  have hsplit : (m : ℝ) = 2 * ((m / 2 : ℕ) : ℝ) + ((m % 2 : ℕ) : ℝ) := by
    exact_mod_cast (Nat.div_add_mod m 2).symm
  rcases Nat.mod_two_eq_zero_or_one m with hbit | hbit
  · rw [hbit, Nat.cast_zero, add_zero] at hsplit
    constructor <;> simp only [ExtendedMantissa.shiftRightOne, hbit, hinexact]
    · linarith
    · linarith
    · simp only [bne_self_eq_false, Bool.false_eq_true, false_iff, not_le]
      linarith
    · constructor
      · intro hne
        refine ⟨fun heq => hne (by linarith), fun heq => ?_⟩
        linarith
      · rintro ⟨hne, -⟩ heq
        exact hne (by linarith)
  · rw [hbit, Nat.cast_one] at hsplit
    constructor <;> simp only [ExtendedMantissa.shiftRightOne, hbit, hinexact]
    · linarith
    · linarith
    · simp only [bne_iff_ne, ne_eq, one_ne_zero, not_false_eq_true, true_iff]
      linarith
    · constructor
      · intro hne
        refine ⟨fun heq => ?_, fun heq => hne (by linarith)⟩
        linarith
      · rintro ⟨-, hne⟩ heq
        exact hne (by linarith)

/-- A mantissa that is shifted stands for the number divided by the power of two. -/
theorem shiftRight (h : Truncates em y) (places : ℕ) :
    Truncates (em >>> places) (y / 2 ^ places) := by
  change Truncates (places.repeat ExtendedMantissa.shiftRightOne em) _
  induction places with
  | zero => simpa [Nat.repeat] using h
  | succ places ih =>
    rw [Nat.repeat, pow_succ, ← div_div]
    exact ih.shiftRightOne

/-- The rounded mantissa is the nearest integer, even in case of doubt. -/
theorem nearestEven (h : Truncates em y) : NearestEven y em.roundedMantissa := by
  obtain ⟨m, r, s⟩ := em
  obtain ⟨hle, hlt, hround, hsticky⟩ := h
  simp only at hle hlt hround hsticky
  cases r with
  | false =>
    have hbelow : y < m + 1 / 2 := by simpa using hround
    have hm : (ExtendedMantissa.mk m false s).roundedMantissa = m := by cases s <;> rfl
    have hclose : |y - (m : ℤ)| < 1 / 2 := by
      rw [Int.cast_natCast, abs_of_nonneg] <;> linarith
    rw [hm]
    exact ⟨hclose.le, fun htie => absurd htie hclose.ne⟩
  | true =>
    have hhalf : (m : ℝ) + 1 / 2 ≤ y := by simpa using hround
    cases s with
    | false =>
      -- Exactly a half: the even one of the two neighbours is taken.
      have heq : y = m + 1 / 2 := by
        by_contra hne
        exact absurd (hsticky.mpr ⟨by linarith, hne⟩) (by simp)
      have hm : (ExtendedMantissa.mk m true false).roundedMantissa = m + m % 2 := rfl
      rw [hm]
      have heven : Even ((m + m % 2 : ℕ) : ℤ) := by
        rw [Int.even_coe_nat, Nat.even_iff]
        omega
      have htie : |y - ((m + m % 2 : ℕ) : ℤ)| = 1 / 2 := by
        rcases Nat.mod_two_eq_zero_or_one m with hbit | hbit <;>
          · rw [hbit, heq]
            push_cast
            norm_num
      exact ⟨htie.le, fun _ => heven⟩
    | true =>
      have hne : y ≠ m + 1 / 2 := (hsticky.mp rfl).2
      have habove : (m : ℝ) + 1 / 2 < y := lt_of_le_of_ne hhalf hne.symm
      have hm : (ExtendedMantissa.mk m true true).roundedMantissa = m + 1 := rfl
      have hclose : |y - ((m + 1 : ℕ) : ℤ)| < 1 / 2 := by
        push_cast
        rw [abs_of_nonpos] <;> linarith
      rw [hm]
      exact ⟨hclose.le, fun htie => absurd htie hclose.ne⟩

/-- A mantissa that is exact stands for itself. -/
theorem exact (m : ℕ) : Truncates (ExtendedMantissa.ofMantissaAndAccuracy m .exact) m := by
  constructor <;> simp [ExtendedMantissa.ofMantissaAndAccuracy]

/-- A mantissa known to be less than a half too small. -/
theorem below {m : ℕ} (hlow : m < y) (hhigh : y < m + 1 / 2) :
    Truncates (ExtendedMantissa.ofMantissaAndAccuracy m (.inexact .lt)) y where
  le := hlow.le
  lt := by
    change y < m + 1
    linarith
  roundBit := iff_of_false Bool.false_ne_true (not_le.mpr hhigh)
  stickyBit := iff_of_true rfl ⟨hlow.ne', hhigh.ne⟩

/-- A mantissa known to be a half too small. -/
theorem half {m : ℕ} (h : y = m + 1 / 2) :
    Truncates (ExtendedMantissa.ofMantissaAndAccuracy m (.inexact .eq)) y where
  le := by
    change (m : ℝ) ≤ y
    linarith
  lt := by
    change y < m + 1
    linarith
  roundBit := iff_of_true rfl h.ge
  stickyBit := iff_of_false Bool.false_ne_true fun hne => hne.2 h

/-- A mantissa known to be more than a half too small. -/
theorem above {m : ℕ} (hlow : m + 1 / 2 < y) (hhigh : y < m + 1) :
    Truncates (ExtendedMantissa.ofMantissaAndAccuracy m (.inexact .gt)) y where
  le := by
    change (m : ℝ) ≤ y
    linarith
  lt := hhigh
  roundBit := iff_of_true rfl hlow.le
  stickyBit := iff_of_true rfl ⟨by
    change y ≠ m
    linarith, hlow.ne'⟩

end Truncates

/-! ## Unpacked singles -/

/-- A real number with the sign of a single. -/
def signed : Sign → ℝ → ℝ
  | .positive, x => x
  | .negative, x => -x

/-- An unpacked number is finite, is in the form that singles are unpacked to, and is the given
real number.  There is no bound on the exponent, so it may be too large for a single. -/
inductive Denotes : UnpackedFloat → ℝ → Prop where
  | zero (sign : Sign) : Denotes (.zero sign) 0
  | finite (sign : Sign) {m : ℕ} {e : ℤ} (pos : 0 < m) (bits : m < 2 ^ 24) (place : -149 ≤ e)
      (normal : 2 ^ 23 ≤ m ∨ e = -149) : Denotes (.finite sign m e pos) (signed sign (m * 2 ^ e))

/-- The exponent that rounding aims at, written out for singles. -/
theorem targetExponent_eq (t : ℤ) : Format.binary32.targetExponent t = max (t - 24) (-149) := rfl

/-- The leading bit of a number is that of its truncation, unless nothing is left of it. -/
theorem log_eq_of_truncated {m : ℕ} {e : ℤ} {x : ℝ} (hm : 0 < m) (hx : 0 < x)
    (hle : m * 2 ^ e ≤ x) (hlt : x < (m + 1) * 2 ^ e) : Int.log 2 x = Nat.log2 m + e := by
  apply le_antisymm
  · have hsucc : (m : ℝ) + 1 ≤ 2 ^ ((Nat.log2 m : ℤ) + 1) := by
      exact_mod_cast Nat.lt_log2_self (n := m)
    have hlt' : x < ((2 : ℕ) : ℝ) ^ ((Nat.log2 m : ℤ) + e + 1) := by
      calc x < (m + 1) * 2 ^ e := hlt
        _ ≤ 2 ^ ((Nat.log2 m : ℤ) + 1) * 2 ^ e := by gcongr
        _ = ((2 : ℕ) : ℝ) ^ ((Nat.log2 m : ℤ) + e + 1) := by
            rw [← zpow_add₀ (by norm_num)]
            push_cast
            ring_nf
    have := (Int.lt_zpow_iff_log_lt (b := 2) (by norm_num) hx).mp hlt'
    omega
  · rw [← Int.zpow_le_iff_le_log (b := 2) (by norm_num) hx]
    have hpow : (2 : ℝ) ^ (Nat.log2 m : ℤ) ≤ m := by exact_mod_cast Nat.log2_self_le hm.ne'
    push_cast
    calc (2 : ℝ) ^ ((Nat.log2 m : ℤ) + e) = 2 ^ (Nat.log2 m : ℤ) * 2 ^ e :=
          zpow_add₀ (by norm_num) _ _
      _ ≤ m * 2 ^ e := by gcongr
      _ ≤ x := hle

/-- The binary logarithm of a significand times a power of two is read off the bits. -/
theorem log_natCast_mul_zpow {m : ℕ} (hm : 0 < m) (e : ℤ) :
    Int.log 2 ((m : ℝ) * 2 ^ e) = Nat.log2 m + e :=
  log_eq_of_truncated hm (by positivity) le_rfl (by gcongr; simp)

/-- The exponent that rounding aims at is the last place of the number, if the logarithm is
known. -/
theorem targetExponent_of_log_eq {m : ℕ} {e : ℤ} {x : ℝ} (hx : 0 < x)
    (hlog : Int.log 2 x = Nat.log2 m + e) :
    Format.binary32.targetExponent (totalExponent m e) = lastPlace x := by
  rw [targetExponent_eq, lastPlace, totalExponent, abs_of_pos hx]
  omega

/-- The exponent that rounding aims at is the last place of the number, if the significand is
truncated from it. -/
theorem targetExponent_of_truncated {m : ℕ} {e : ℤ} {x : ℝ} (hx : 0 < x)
    (hle : m * 2 ^ e ≤ x) (hlt : x < (m + 1) * 2 ^ e) (he : e ≤ lastPlace x) :
    Format.binary32.targetExponent (totalExponent m e) = lastPlace x := by
  rcases Nat.eq_zero_or_pos m with rfl | hm
  · -- Nothing is left above the last place, which is then the least one.
    have hlog : Int.log 2 x < e := by
      rw [← Int.lt_zpow_iff_log_lt (b := 2) (by norm_num) hx]
      simpa using hlt
    rw [lastPlace, abs_of_pos hx] at he
    rw [targetExponent_eq, lastPlace, totalExponent, abs_of_pos hx, Nat.log2_zero]
    omega
  · exact targetExponent_of_log_eq hx (log_eq_of_truncated hm hx hle hlt)

/-- A mantissa is shifted as far as its exponent is below the target. -/
theorem shiftToExponent_of_le {m : ℕ} {e target : ℤ} (acc : Accuracy) (h : e ≤ target) :
    shiftToExponent m e acc target =
      (ExtendedMantissa.ofMantissaAndAccuracy m acc >>> (target - e).toNat, target) := by
  unfold shiftToExponent
  simp only [Prod.mk.injEq, true_and]
  omega

/-- A mantissa whose exponent is not below the target is not shifted. -/
theorem shiftToExponent_of_ge {m : ℕ} {e target : ℤ} (acc : Accuracy) (h : target ≤ e) :
    shiftToExponent m e acc target = (ExtendedMantissa.ofMantissaAndAccuracy m acc, e) := by
  have hplaces : (target - e).toNat = 0 := by omega
  unfold shiftToExponent
  simp only [hplaces, Int.ofNat_zero, add_zero]
  rfl

/-- The rounded significand has at most one bit too many, and is then a power of two. -/
theorem denotes_of_rounded (sign : Sign) {n : ℕ} {place : ℤ} (hn : n ≤ 2 ^ 24)
    (hplace : -149 ≤ place) (hnormal : 2 ^ 23 ≤ n ∨ place = -149) (em : ExtendedMantissa) (e : ℤ)
    (hshift : shiftToTargetExponent .binary32 n place .exact = (em, e)) :
    Denotes (if h : em.mantissa = 0 then .zero sign
      else .finite sign em.mantissa e (Nat.pos_of_ne_zero h)) (signed sign (n * 2 ^ place)) := by
  unfold shiftToTargetExponent at hshift
  rw [targetExponent_eq, totalExponent] at hshift
  rcases hn.eq_or_lt with rfl | hlt
  · -- A carry out of the last bit: one more shift, which drops a zero.
    have hlog : Nat.log2 (2 ^ 24) = 24 := by decide
    rw [hlog, shiftToExponent_of_le _ (by omega)] at hshift
    have hone : (max ((24 : ℕ) + 1 + place - 24) (-149) - place).toNat = 1 := by omega
    rw [hone] at hshift
    obtain ⟨rfl, rfl⟩ := Prod.mk.inj hshift
    have hexponent : max (((24 : ℕ) : ℤ) + 1 + place - 24) (-149) = place + 1 := by omega
    have hvalue : ((2 ^ 24 : ℕ) : ℝ) * 2 ^ place = ((2 ^ 23 : ℕ) : ℝ) * 2 ^ (place + 1) := by
      rw [zpow_add₀ (by norm_num)]
      push_cast
      ring
    rw [hvalue, hexponent]
    change Denotes (.finite sign (2 ^ 23) (place + 1) _) _
    exact .finite sign (by norm_num) (by norm_num) (by omega) (.inl le_rfl)
  · have hlog : Nat.log2 n ≤ 23 := by
      rcases Nat.eq_zero_or_pos n with rfl | hpos
      · simp
      · have := (Nat.log2_lt hpos.ne').mpr hlt
        omega
    rw [shiftToExponent_of_ge _ (by omega)] at hshift
    obtain ⟨rfl, rfl⟩ := Prod.mk.inj hshift
    change Denotes (if h : n = 0 then .zero sign
      else .finite sign n place (Nat.pos_of_ne_zero h)) _
    split
    next hzero =>
      have hvalue : signed sign (n * 2 ^ place) = 0 := by
        cases sign <;> simp [signed, hzero]
      rw [hvalue]
      exact .zero sign
    next hpos => exact .finite sign _ hlt hplace hnormal

/-- Rounding gives the nearest single to the number whose truncation it is given. -/
theorem denotes_roundWithAccuracy (sign : Sign) {m : ℕ} {e : ℤ} {acc : Accuracy} {x : ℝ}
    (hx : 0 < x) (h : Truncates (.ofMantissaAndAccuracy m acc) (x / 2 ^ e))
    (he : e ≤ lastPlace x) :
    Denotes (roundWithAccuracy .binary32 sign m e acc) (signed sign (nearestSingle x)) := by
  have hmantissa : (ExtendedMantissa.ofMantissaAndAccuracy m acc).mantissa = m := by
    unfold ExtendedMantissa.ofMantissaAndAccuracy
    split <;> rfl
  have htarget : Format.binary32.targetExponent (totalExponent m e) = lastPlace x := by
    have hunit : (0 : ℝ) < 2 ^ e := by positivity
    apply targetExponent_of_truncated hx _ _ he
    · rw [← le_div_iff₀ hunit]
      simpa [hmantissa] using h.le
    · rw [← div_lt_iff₀ hunit]
      simpa [hmantissa] using h.lt
  have hshifted : Truncates
      (ExtendedMantissa.ofMantissaAndAccuracy m acc >>> (lastPlace x - e).toNat)
      (x / 2 ^ lastPlace x) := by
    have hpow : (2 : ℝ) ^ lastPlace x = 2 ^ e * 2 ^ (lastPlace x - e).toNat := by
      rw [← zpow_natCast, ← zpow_add₀ (by norm_num), Int.toNat_of_nonneg (by omega)]
      ring_nf
    rw [hpow, ← div_div]
    exact h.shiftRight _
  unfold roundWithAccuracy
  rw [shiftToTargetExponent, htarget, shiftToExponent_of_le acc he]
  simp only
  generalize ExtendedMantissa.ofMantissaAndAccuracy m acc >>> (lastPlace x - e).toNat = em
    at hshifted
  have hrounded : (em.roundedMantissa : ℝ) * 2 ^ lastPlace x = nearestSingle x := by
    unfold nearestSingle
    rw [hshifted.nearestEven.eq_nearestEven]
    push_cast
    rfl
  have hunit : (0 : ℝ) < 2 ^ lastPlace x := by positivity
  rw [← hrounded]
  apply denotes_of_rounded sign _ (neg149_le_lastPlace x) _ _ _ rfl
  · have hle := nearestSingle_le_of_pos hx
    rw [← hrounded, add_comm, zpow_add₀ (by norm_num)] at hle
    exact_mod_cast le_of_mul_le_mul_right hle hunit
  · rcases (neg149_le_lastPlace x).eq_or_lt with hleast | hlarge
    · exact .inr hleast.symm
    · have hge := le_nearestSingle_of_pos hx hlarge
      rw [← hrounded, add_comm, zpow_add₀ (by norm_num)] at hge
      exact .inl (by exact_mod_cast le_of_mul_le_mul_right hge hunit)

/-- A significand that is exact, and fine enough, is rounded to the nearest single. -/
theorem denotes_roundWithAccuracy_exact (sign : Sign) {m : ℕ} {e : ℤ} {x : ℝ} (hm : 0 < m)
    (hx : m * 2 ^ e = x) (he : e ≤ lastPlace x) :
    Denotes (roundWithAccuracy .binary32 sign m e .exact) (signed sign (nearestSingle x)) := by
  have hexact : x / 2 ^ e = m := by
    rw [← hx, mul_div_cancel_right₀ _ (by positivity)]
  apply denotes_roundWithAccuracy sign _ _ he
  · rw [← hx]
    positivity
  · rw [hexact]
    exact .exact m

/-- Decreasing the exponent does not change the number. -/
theorem decreaseExponent_mul_zpow (m : ℕ) (e target : ℤ) :
    ((decreaseExponent m e target).1 : ℝ) * 2 ^ (decreaseExponent m e target).2 = m * 2 ^ e := by
  unfold decreaseExponent
  simp only [Nat.shiftLeft_eq]
  push_cast
  rw [mul_assoc, ← zpow_natCast, ← zpow_add₀ (by norm_num)]
  ring_nf

/-- Decreasing the exponent brings it down to the target. -/
theorem decreaseExponent_snd_le (m : ℕ) (e target : ℤ) :
    (decreaseExponent m e target).2 ≤ target := by
  unfold decreaseExponent
  simp only
  omega

/-- A significand times a power of two is rounded to the nearest single. -/
theorem denotes_round (sign : Sign) {m : ℕ} (hm : 0 < m) (e : ℤ) :
    Denotes (UnpackedFloat.round .binary32 sign m e)
      (signed sign (nearestSingle (m * 2 ^ e))) := by
  have htarget : Format.binary32.targetExponent (totalExponent m e) = lastPlace (m * 2 ^ e) :=
    targetExponent_of_log_eq (by positivity) (log_natCast_mul_zpow hm e)
  have hvalue := decreaseExponent_mul_zpow m e (lastPlace (m * 2 ^ e))
  have hle := decreaseExponent_snd_le m e (lastPlace (m * 2 ^ e))
  have hpos : 0 < (decreaseExponent m e (lastPlace (m * 2 ^ e))).1 := by
    simp only [decreaseExponent, Nat.shiftLeft_eq]
    positivity
  have hround : UnpackedFloat.round .binary32 sign m e = roundWithAccuracy .binary32 sign
      (decreaseExponent m e (lastPlace (m * 2 ^ e))).1
      (decreaseExponent m e (lastPlace (m * 2 ^ e))).2 .exact := by
    rw [← htarget]
    rfl
  rw [hround]
  exact denotes_roundWithAccuracy_exact sign hpos hvalue hle

/-- A number with an integer significand of either sign is rounded to the nearest single. -/
theorem denotes_normalize (k e : ℤ) (zeroSign : Sign) :
    Denotes (UnpackedFloat.normalize .binary32 k e zeroSign) (nearestSingle (k * 2 ^ e)) := by
  unfold UnpackedFloat.normalize
  split
  next h =>
    have hk : k < 0 := compare_lt_iff_lt.mp h
    have hround := denotes_round .negative (m := (-k).toNat) (by omega) e
    have hcast : (((-k).toNat : ℕ) : ℝ) = -k := by
      rw [← Int.cast_natCast, Int.toNat_of_nonneg (by omega)]
      push_cast
      rfl
    simpa [signed, hcast] using hround
  next h =>
    have hk : k = 0 := compare_eq_iff_eq.mp h
    simpa [hk] using Denotes.zero zeroSign
  next h =>
    have hk : 0 < k := compare_gt_iff_gt.mp h
    have hround := denotes_round .positive (m := k.toNat) (by omega) e
    have hcast : ((k.toNat : ℕ) : ℝ) = k := by
      rw [← Int.cast_natCast, Int.toNat_of_nonneg (by omega)]
    simpa [signed, hcast] using hround

end BranchingTubes
