import BranchingTubes.Proofs.SingleRounding
import Mathlib

/-!
# Arithmetic on unpacked singles

An operation on unpacked singles gives the nearest single of the exact result.  There is one
lemma for each operation; each is the lemma on rounding of the significands, applied to what the
operation does to them.

None of the results is bounded here.  Whether one is too large for a single shows when it is
packed.
-/

set_option autoImplicit false

namespace BranchingTubes

open Float.Model (UnpackedFloat Format totalExponent)
open Float.Model.UnpackedFloat

/-! ## Signs -/

/-- Zero is zero with either sign. -/
@[simp] theorem signed_zero (sign : Sign) : signed sign 0 = 0 := by
  cases sign <;> simp [signed]

/-- A sign does not change the size. -/
@[simp] theorem abs_signed (sign : Sign) (x : ℝ) : |signed sign x| = |x| := by
  cases sign <;> simp [signed]

/-- The opposite sign is the negated number. -/
theorem signed_neg (sign : Sign) (x : ℝ) : signed (-sign) x = -signed sign x := by
  cases sign
  · change x = - -x
    rw [neg_neg]
  · rfl

/-- The product of the signs is the sign of the product. -/
theorem signed_mul (sign sign' : Sign) (x y : ℝ) :
    signed (sign * sign') (x * y) = signed sign x * signed sign' y := by
  cases sign <;> cases sign'
  · change x * y = -x * -y
    ring
  · change -(x * y) = -x * y
    ring
  · change -(x * y) = x * -y
    ring
  · rfl

/-- The quotient of the signs is the sign of the quotient. -/
theorem signed_div (sign sign' : Sign) (x y : ℝ) :
    signed (sign / sign') (x / y) = signed sign x / signed sign' y := by
  cases sign <;> cases sign'
  · change x / y = -x / -y
    rw [neg_div_neg_eq]
  · change -(x / y) = -x / y
    rw [neg_div]
  · change -(x / y) = x / -y
    rw [div_neg]
  · rfl

/-- Rounding treats both signs alike. -/
theorem nearestSingle_signed (sign : Sign) (x : ℝ) :
    nearestSingle (signed sign x) = signed sign (nearestSingle x) := by
  cases sign
  · exact nearestSingle_neg x
  · rfl

/-- A sign may be taken by the significand. -/
theorem signed_natCast_mul (sign : Sign) (m : ℕ) (y : ℝ) :
    signed sign (m * y) = (sign.apply m : ℤ) * y := by
  cases sign <;> simp [signed, Sign.apply]

/-- The opposite sign negates an integer. -/
theorem sign_apply_neg (sign : Sign) (n : ℤ) : (-sign).apply n = -sign.apply n := by
  cases sign
  · change n = - -n
    omega
  · rfl

/-- To subtract is to add what is negated. -/
theorem sub_eq_add_negated (spec : Format) (u v : UnpackedFloat) :
    UnpackedFloat.sub spec u v = UnpackedFloat.add spec u v.neg := by
  cases u <;> cases v <;> try rfl
  simp only [UnpackedFloat.sub, UnpackedFloat.add, UnpackedFloat.neg, sign_apply_neg,
    Int.sub_eq_add_neg]

/-- Two opposite signs have the product of the signs themselves. -/
theorem sign_neg_mul_neg (sign sign' : Sign) : -sign * -sign' = sign * sign' := by
  cases sign <;> cases sign' <;> rfl

/-- A product stays the same when both factors are negated. -/
theorem mul_negated (spec : Format) (u v : UnpackedFloat) :
    UnpackedFloat.mul spec u.neg v.neg = UnpackedFloat.mul spec u v := by
  cases u <;> cases v <;>
    simp only [UnpackedFloat.mul, UnpackedFloat.neg, sign_neg_mul_neg]

/-! ## Sums and products -/

/-- A finite number with its significand brought to a lower exponent. -/
theorem signed_decreased (sign : Sign) (m : ℕ) {e target : ℤ} (h : target ≤ e) :
    signed sign (m * 2 ^ e) =
      (sign.apply (decreaseExponent m e target).1 : ℤ) * 2 ^ target := by
  have htarget : (decreaseExponent m e target).2 = target := by
    unfold decreaseExponent
    simp only
    omega
  have hvalue := decreaseExponent_mul_zpow m e target
  rw [htarget] at hvalue
  rw [← hvalue, signed_natCast_mul]

/-- The product of two significands fills the places of the result. -/
theorem le_lastPlace_of_mul {m m' : ℕ} {e e' : ℤ} (hm : 0 < m) (hm' : 0 < m')
    (he : -149 ≤ e) (he' : -149 ≤ e') (hnormal : 2 ^ 23 ≤ m ∨ e = -149)
    (hnormal' : 2 ^ 23 ≤ m' ∨ e' = -149) :
    e + e' ≤ lastPlace ((m * m' : ℕ) * 2 ^ (e + e')) := by
  have hlog := log_natCast_mul_zpow (Nat.mul_pos hm hm') (e + e')
  rw [lastPlace, abs_of_pos (by positivity), hlog]
  by_cases hlarge : 2 ^ 23 ≤ m * m'
  · have := (Nat.le_log2 (Nat.mul_pos hm hm').ne').mpr hlarge
    omega
  · have hle : m ≤ m * m' := Nat.le_mul_of_pos_right m hm'
    have hle' : m' ≤ m * m' := Nat.le_mul_of_pos_left m' hm
    have hleast : e = -149 := hnormal.resolve_left (by omega)
    have hleast' : e' = -149 := hnormal'.resolve_left (by omega)
    omega

namespace Denotes

variable {u v : UnpackedFloat} {x y : ℝ}

/-- What a float denotes is representable. -/
theorem representable (h : Denotes u x) : Representable x := by
  cases h with
  | zero sign => exact ⟨0, 0, by norm_num, by norm_num, by simp⟩
  | @finite sign m e pos bits place normal =>
    refine ⟨sign.apply m, e, ?_, place, signed_natCast_mul sign m _⟩
    rw [abs_lt]
    cases sign <;> simp only [Sign.apply] <;> omega

/-- Rounding leaves what a float denotes as it is. -/
theorem nearestSingle_eq (h : Denotes u x) : nearestSingle x = x :=
  nearestSingle_of_representable h.representable

/-- Negation is exact. -/
theorem neg (h : Denotes u x) : Denotes u.neg (-x) := by
  cases h with
  | zero sign =>
    rw [neg_zero]
    exact .zero (-sign)
  | finite sign pos bits place normal =>
    rw [← signed_neg]
    exact .finite (-sign) pos bits place normal

/-- A sum of floats denotes the rounded sum. -/
theorem add (hu : Denotes u x) (hv : Denotes v y) :
    Denotes (UnpackedFloat.add .binary32 u v) (nearestSingle (x + y)) := by
  cases hu with
  | zero sign =>
    rw [zero_add, hv.nearestSingle_eq]
    cases hv with
    | zero sign' =>
      unfold UnpackedFloat.add
      simp only
      split <;> exact .zero _
    | finite sign' pos bits place normal => exact .finite sign' pos bits place normal
  | @finite sign m e pos bits place normal =>
    cases hv with
    | zero sign' =>
      rw [add_zero, (Denotes.finite sign pos bits place normal).nearestSingle_eq]
      exact .finite sign pos bits place normal
    | @finite sign' m' e' pos' bits' place' normal' =>
      have hsum : signed sign (m * 2 ^ e) + signed sign' (m' * 2 ^ e') =
          ((sign.apply (decreaseExponent m e (min e e')).1 +
            sign'.apply (decreaseExponent m' e' (min e e')).1 : ℤ) : ℝ) * 2 ^ min e e' := by
        rw [signed_decreased sign m (min_le_left e e'),
          signed_decreased sign' m' (min_le_right e e')]
        push_cast
        ring
      rw [hsum]
      exact denotes_normalize _ _ _

/-- A difference of floats denotes the rounded difference. -/
theorem sub (hu : Denotes u x) (hv : Denotes v y) :
    Denotes (UnpackedFloat.sub .binary32 u v) (nearestSingle (x - y)) := by
  rw [sub_eq_add_negated, sub_eq_add_neg]
  exact hu.add hv.neg

/-- A product of floats denotes the rounded product. -/
theorem mul (hu : Denotes u x) (hv : Denotes v y) :
    Denotes (UnpackedFloat.mul .binary32 u v) (nearestSingle (x * y)) := by
  cases hu with
  | zero sign =>
    rw [zero_mul, nearestSingle_zero]
    cases hv <;> exact .zero _
  | @finite sign m e pos bits place normal =>
    cases hv with
    | zero sign' =>
      rw [mul_zero, nearestSingle_zero]
      exact .zero _
    | @finite sign' m' e' pos' bits' place' normal' =>
      have hproduct : (m : ℝ) * 2 ^ e * (m' * 2 ^ e') = (m * m' : ℕ) * 2 ^ (e + e') := by
        rw [zpow_add₀ (by norm_num)]
        push_cast
        ring
      rw [← signed_mul, nearestSingle_signed, hproduct]
      apply denotes_roundWithAccuracy_exact _ (Nat.mul_pos pos pos') rfl
      exact le_lastPlace_of_mul pos pos' place place' normal normal'

end Denotes

/-! ## Quotients -/

/-- A quotient of natural numbers is cut off by division with remainder. -/
theorem truncates_quotient (k : ℕ) {n : ℕ} (hn : 0 < n) :
    Truncates (.ofMantissaAndAccuracy (k / n) (accuracyOfFraction (k % n) n)) ((k : ℝ) / n) := by
  have hpos : (0 : ℝ) < n := by exact_mod_cast hn
  have hrest : ((k % n : ℕ) : ℝ) < n := by exact_mod_cast Nat.mod_lt k hn
  have hsplit : (k : ℝ) / n = (k / n : ℕ) + (k % n : ℕ) / n := by
    have hdiv : (k : ℝ) = n * (k / n : ℕ) + (k % n : ℕ) := by
      exact_mod_cast (Nat.div_add_mod k n).symm
    rw [div_eq_iff hpos.ne', add_mul, div_mul_cancel₀ _ hpos.ne', mul_comm]
    exact hdiv
  rw [hsplit]
  generalize k / n = quotient
  generalize k % n = rest at hrest
  unfold accuracyOfFraction
  split
  next hzero => simpa [hzero] using Truncates.exact quotient
  next hrest_ne =>
    have hrest_pos : (0 : ℝ) < rest := by exact_mod_cast Nat.pos_of_ne_zero hrest_ne
    rcases lt_trichotomy (2 * rest) n with hlt | heq | hgt
    · rw [compare_lt_iff_lt.mpr hlt]
      apply Truncates.below
      · have : (0 : ℝ) < rest / n := by positivity
        linarith
      · have hcast : 2 * (rest : ℝ) < n := by exact_mod_cast hlt
        have : (rest : ℝ) / n < 1 / 2 := by
          rw [div_lt_iff₀ hpos]
          linarith
        linarith
    · rw [compare_eq_iff_eq.mpr heq]
      apply Truncates.half
      have hcast : 2 * (rest : ℝ) = n := by exact_mod_cast heq
      rw [← hcast]
      field_simp
    · rw [compare_gt_iff_gt.mpr hgt]
      apply Truncates.above
      · have hcast : (n : ℝ) < 2 * rest := by exact_mod_cast hgt
        have : 1 / 2 < (rest : ℝ) / n := by
          rw [lt_div_iff₀ hpos]
          linarith
        linarith
      · have : (rest : ℝ) / n < 1 := by rwa [div_lt_one hpos]
        linarith

/-- The leading bit of a quotient is at most one place below the difference of the leading
bits. -/
theorem log_div_ge {x y : ℝ} (hx : 0 < x) (hy : 0 < y) :
    Int.log 2 x - Int.log 2 y - 1 ≤ Int.log 2 (x / y) := by
  rw [← Int.zpow_le_iff_le_log (b := 2) (by norm_num) (by positivity), le_div_iff₀ hy]
  have hlow := Int.zpow_log_le_self (b := 2) (by norm_num) hx
  have hhigh := Int.lt_zpow_succ_log_self (b := 2) (by norm_num) y
  push_cast at hlow hhigh ⊢
  calc (2 : ℝ) ^ (Int.log 2 x - Int.log 2 y - 1) * y
      ≤ 2 ^ (Int.log 2 x - Int.log 2 y - 1) * 2 ^ (Int.log 2 y + 1) := by gcongr
    _ = 2 ^ Int.log 2 x := by
        rw [← zpow_add₀ (by norm_num)]
        ring_nf
    _ ≤ x := hlow

/-- The binary logarithm of a quotient is at most the difference of the logarithms. -/
theorem log_div_le {x y : ℝ} (hx : 0 < x) (hy : 0 < y) :
    Int.log 2 (x / y) ≤ Int.log 2 x - Int.log 2 y := by
  rw [← Int.lt_add_one_iff, ← Int.lt_zpow_iff_log_lt (b := 2) (by norm_num) (by positivity)]
  have hlow := Int.zpow_log_le_self (b := 2) (by norm_num) hy
  have hhigh := Int.lt_zpow_succ_log_self (b := 2) (by norm_num) x
  push_cast at hlow hhigh ⊢
  rw [div_lt_iff₀ hy]
  calc x < 2 ^ (Int.log 2 x + 1) := hhigh
    _ = 2 ^ (Int.log 2 x - Int.log 2 y + 1) * 2 ^ Int.log 2 y := by
        rw [← zpow_add₀ (by norm_num)]
        ring_nf
    _ ≤ 2 ^ (Int.log 2 x - Int.log 2 y + 1) * y := by gcongr

/-- A quotient of floats denotes the rounded quotient, unless the divisor is zero. -/
theorem Denotes.div {u v : UnpackedFloat} {x y : ℝ} (hu : Denotes u x) (hv : Denotes v y)
    (hy : y ≠ 0) : Denotes (UnpackedFloat.div .binary32 u v) (nearestSingle (x / y)) := by
  cases hv with
  | zero sign' => exact absurd rfl hy
  | @finite sign' m' e' pos' bits' place' normal' =>
    cases hu with
    | zero sign =>
      rw [zero_div, nearestSingle_zero]
      exact .zero _
    | @finite sign m e pos bits place normal =>
      rw [← signed_div, nearestSingle_signed]
      set target := min (e - e')
        (Format.binary32.targetExponent (totalExponent m e - totalExponent m' e')) with htarget
      have hquotient : (m : ℝ) * 2 ^ e / (m' * 2 ^ e') / 2 ^ target =
          (m <<< (e - e' - target).toNat : ℕ) / (m' : ℝ) := by
        have hpow : (2 : ℝ) ^ (e - e' - target).toNat = 2 ^ e / 2 ^ e' / 2 ^ target := by
          rw [← zpow_natCast, Int.toNat_of_nonneg (by omega), zpow_sub₀ (by norm_num),
            zpow_sub₀ (by norm_num)]
        rw [Nat.shiftLeft_eq]
        push_cast
        rw [hpow]
        field_simp
      apply denotes_roundWithAccuracy (m := (m <<< (e - e' - target).toNat) / m') _ (by positivity)
      · rw [hquotient]
        exact truncates_quotient _ pos'
      · have hlog := log_div_ge (x := (m : ℝ) * 2 ^ e) (y := m' * 2 ^ e') (by positivity)
          (by positivity)
        rw [log_natCast_mul_zpow pos, log_natCast_mul_zpow pos'] at hlog
        rw [lastPlace, abs_of_pos (by positivity)]
        rw [targetExponent_eq, totalExponent, totalExponent] at htarget
        omega

/-! ## Square roots -/

/-- The square root of a natural number is cut off by the integer square root.  It is never a
half above it, since its square is an integer. -/
theorem truncates_sqrt (n : ℕ) :
    Truncates (.ofMantissaAndAccuracy (Nat.sqrt n) (if n - Nat.sqrt n * Nat.sqrt n = 0 then .exact
      else .inexact (if n - Nat.sqrt n * Nat.sqrt n ≤ Nat.sqrt n then .lt else .gt))) (√n) := by
  have hle : Nat.sqrt n * Nat.sqrt n ≤ n := Nat.sqrt_le n
  have hlt : n < (Nat.sqrt n + 1) * (Nat.sqrt n + 1) := Nat.lt_succ_sqrt n
  generalize Nat.sqrt n = root at hle hlt
  split
  next hzero =>
    have hn : n = root * root := by omega
    have hsqrt : √(n : ℝ) = root := by
      rw [hn]
      push_cast
      exact Real.sqrt_mul_self root.cast_nonneg
    rw [hsqrt]
    exact .exact root
  next hne =>
    have hnext : √(n : ℝ) < root + 1 := by
      rw [Real.sqrt_lt' (by positivity), sq]
      exact_mod_cast hlt
    have hlow : (root : ℝ) < √n := by
      rw [Real.lt_sqrt root.cast_nonneg, sq]
      exact_mod_cast (by omega : root * root < n)
    split
    next hrest =>
      refine .below hlow ?_
      have hcast : (n : ℝ) ≤ root * root + root := by
        exact_mod_cast (by omega : n ≤ root * root + root)
      rw [Real.sqrt_lt' (by positivity)]
      nlinarith
    next hrest =>
      refine .above ?_ hnext
      have hcast : (root : ℝ) * root + root + 1 ≤ n := by
        exact_mod_cast (by omega : root * root + root + 1 ≤ n)
      rw [Real.lt_sqrt (by positivity)]
      nlinarith

/-- The leading bit of a square root stands at half the place. -/
theorem log_sqrt {x : ℝ} (hx : 0 < x) : Int.log 2 (√x) = Int.log 2 x / 2 := by
  have hlow := Int.zpow_log_le_self (b := 2) (by norm_num) hx
  have hhigh := Int.lt_zpow_succ_log_self (b := 2) (by norm_num) x
  push_cast at hlow hhigh
  have hsq (k : ℤ) : ((2 : ℝ) ^ k) ^ 2 = 2 ^ (2 * k) := by
    rw [← zpow_natCast, ← zpow_mul]
    ring_nf
  apply le_antisymm
  · rw [← Int.lt_add_one_iff, ← Int.lt_zpow_iff_log_lt (b := 2) (by norm_num) (by positivity)]
    push_cast
    rw [Real.sqrt_lt' (by positivity), hsq]
    exact hhigh.trans_le (zpow_le_zpow_right₀ (by norm_num) (by omega))
  · rw [← Int.zpow_le_iff_le_log (b := 2) (by norm_num) (by positivity)]
    push_cast
    apply Real.le_sqrt_of_sq_le
    rw [hsq]
    exact (zpow_le_zpow_right₀ (by norm_num) (by omega)).trans hlow

/-- A square root of a float denotes the rounded root, unless the number is negative. -/
theorem Denotes.sqrt {u : UnpackedFloat} {x : ℝ} (hu : Denotes u x) (hx : 0 ≤ x) :
    Denotes (UnpackedFloat.sqrt .binary32 u) (nearestSingle (√x)) := by
  cases hu with
  | zero sign =>
    rw [Real.sqrt_zero, nearestSingle_zero]
    exact .zero sign
  | @finite sign m e pos bits place normal =>
    have hpos : (0 : ℝ) < m * 2 ^ e := by positivity
    cases sign with
    | negative => exact absurd hx (by simpa [signed] using hpos)
    | positive =>
      change Denotes (roundWithAccuracy _ _ _ _ _) (signed .positive (nearestSingle √(m * 2 ^ e)))
      have hlog := log_sqrt hpos
      rw [log_natCast_mul_zpow pos] at hlog
      set target := min (e.ediv 2)
        (Format.binary32.targetExponent ((totalExponent m e + 1).ediv 2)) with htarget
      have heven : 2 * target ≤ e := by
        have := Int.mul_ediv_self_le (x := e) (k := 2) (by norm_num)
        have : target ≤ e / 2 := min_le_left _ _
        omega
      have hroot : √((m : ℝ) * 2 ^ e) / 2 ^ target =
          √((m <<< (e - 2 * target).toNat : ℕ) : ℝ) := by
        have hpow : (2 : ℝ) ^ (e - 2 * target).toNat = 2 ^ e / (2 ^ target) ^ 2 := by
          rw [← zpow_natCast, Int.toNat_of_nonneg (by omega), zpow_sub₀ (by norm_num), two_mul,
            zpow_add₀ (by norm_num), sq]
        rw [Nat.shiftLeft_eq]
        push_cast
        rw [hpow, ← mul_div_assoc, Real.sqrt_div hpos.le, Real.sqrt_sq (by positivity)]
      apply denotes_roundWithAccuracy _ (by positivity)
      · rw [hroot]
        exact truncates_sqrt _
      · rw [lastPlace, abs_of_pos (by positivity), hlog]
        rw [targetExponent_eq, totalExponent] at htarget
        have hdiv (k : ℤ) : k.ediv 2 = k / 2 := rfl
        rw [hdiv, hdiv] at htarget
        omega

end BranchingTubes
