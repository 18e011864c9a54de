import BranchingTubes.Proofs.SingleRanks
import BranchingTubes.Space.Angle
import Mathlib

/-!
# The size of sine and cosine

The sine and the cosine of a finite angle are at most one, and their squares add up to one but for
`2 ^ (-16)` (`exists_sine_cosine`).  Both properties come from the fixed-point numbers that are
rounded to them.  What is left of an angle after whole quarter turns is at most an eighth of a turn,
where each term of a cut-off series encloses the series from one more side
(`seriesValue_succ_bounds`): four terms are enough to see that the two series belong to a point of
the unit circle (`abs_circle_sub_one_le`).
-/

set_option autoImplicit false

namespace BranchingTubes

open Float.Model (UnpackedFloat Format)
open Float.Model.UnpackedFloat

/-! ## Fixed point -/

/-- There are parts in fixed point. -/
theorem angleUnit_pos : 0 < angleUnit := by decide +kernel

/-- A part in fixed point is small. -/
theorem one_div_angleUnit_le : (1 : ℝ) / angleUnit ≤ 1 / 2 ^ 100 := by
  have hle : 2 ^ 100 ≤ angleUnit := by decide +kernel
  have hreal : (2 : ℝ) ^ 100 ≤ angleUnit := by exact_mod_cast hle
  exact one_div_le_one_div_of_le (by norm_num) hreal

/-- A quarter turn is not nothing. -/
theorem quarterTurn_pos : 0 < quarterTurn := by decide +kernel

/-- The square of half a quarter turn is at most five eighths. -/
theorem quarterTurn_sq_le : 2 * (quarterTurn * quarterTurn) ≤ 5 * (angleUnit * angleUnit) := by
  decide +kernel

/-- A cut-off series is at most one. -/
theorem alternatingSeries_le (u terms k : ℕ) : alternatingSeries u terms k ≤ angleUnit := by
  cases terms with
  | zero => exact le_rfl
  | succ terms => exact Nat.sub_le _ _

/-- The square of what is left of an angle, in fixed point, is at most five eighths. -/
theorem square_le_of_rest {rest : ℤ} (h : 2 * rest.natAbs ≤ quarterTurn) :
    8 * (rest.natAbs * rest.natAbs) ≤ 5 * (angleUnit * angleUnit) := by
  have hsquare : 2 * rest.natAbs * (2 * rest.natAbs) ≤ quarterTurn * quarterTurn :=
    Nat.mul_le_mul h h
  have := quarterTurn_sq_le
  calc 8 * (rest.natAbs * rest.natAbs) = 2 * (2 * rest.natAbs * (2 * rest.natAbs)) := by ring
    _ ≤ 2 * (quarterTurn * quarterTurn) := Nat.mul_le_mul_left 2 hsquare
    _ ≤ 5 * (angleUnit * angleUnit) := this

/-- What is left of an angle is less than one radian. -/
theorem natAbs_le_angleUnit {rest : ℤ} (h : 2 * rest.natAbs ≤ quarterTurn) :
    rest.natAbs ≤ angleUnit := by
  have hsquare := square_le_of_rest h
  by_contra! hlarge
  have : angleUnit * angleUnit ≤ rest.natAbs * rest.natAbs := Nat.mul_le_mul hlarge.le hlarge.le
  have hpos : 0 < angleUnit * angleUnit := Nat.mul_pos angleUnit_pos angleUnit_pos
  omega

/-- A series times a rest of at most one, back in fixed point, is at most one. -/
theorem natAbs_mul_series_le {rest : ℤ} (h : rest.natAbs ≤ angleUnit) (u terms k : ℕ) :
    (rest * alternatingSeries u terms k / angleUnit).natAbs ≤ angleUnit := by
  have hunit : (0 : ℤ) < angleUnit := by exact_mod_cast angleUnit_pos
  have hseries : (alternatingSeries u terms k : ℤ) ≤ angleUnit := by
    exact_mod_cast alternatingSeries_le u terms k
  have hproduct : |rest * alternatingSeries u terms k| ≤ angleUnit * angleUnit := by
    rw [abs_mul, Nat.abs_cast, Int.abs_eq_natAbs]
    gcongr
  obtain ⟨hlow, hhigh⟩ := abs_le.mp hproduct
  have hge : -(angleUnit : ℤ) ≤ rest * alternatingSeries u terms k / angleUnit := by
    rw [Int.le_ediv_iff_mul_le hunit]
    linarith
  have hle : rest * alternatingSeries u terms k / angleUnit ≤ angleUnit :=
    Int.ediv_le_of_le_mul hunit hhigh
  omega

/-- A sine in fixed point is at most one. -/
theorem natAbs_quarterSine_le {rest : ℤ} (h : 2 * rest.natAbs ≤ quarterTurn) (quarters : ℕ) :
    (quarterSine quarters rest).natAbs ≤ angleUnit := by
  have hsine := natAbs_mul_series_le (natAbs_le_angleUnit h)
  unfold quarterSine
  dsimp only
  split
  · exact hsine ..
  · rw [Int.natAbs_natCast]
    exact alternatingSeries_le ..
  · rw [Int.natAbs_neg]
    exact hsine ..
  · rw [Int.natAbs_neg, Int.natAbs_natCast]
    exact alternatingSeries_le ..

/-! ## The unit circle -/

/-- A cut-off series as a real number. -/
noncomputable def seriesValue (u terms k : ℕ) : ℝ := alternatingSeries u terms k / angleUnit

/-- A cut-off series is not negative, and at most one. -/
theorem seriesValue_bounds (u terms k : ℕ) :
    0 ≤ seriesValue u terms k ∧ seriesValue u terms k ≤ 1 := by
  have hunit : (0 : ℝ) < angleUnit := by exact_mod_cast angleUnit_pos
  refine ⟨div_nonneg (Nat.cast_nonneg _) hunit.le, ?_⟩
  rw [seriesValue, div_le_one hunit]
  exact_mod_cast alternatingSeries_le u terms k

/-- One term more encloses a series, but for the rounding in fixed point: the series is one less a
part of the series after it. -/
theorem seriesValue_succ_bounds {u k : ℕ} (hu : u ≤ angleUnit) (hk : 1 ≤ k) (terms : ℕ) :
    1 - u / angleUnit * seriesValue u terms (k + 2) / (k * (k + 1)) ≤
        seriesValue u (terms + 1) k ∧
      seriesValue u (terms + 1) k ≤
        1 - u / angleUnit * seriesValue u terms (k + 2) / (k * (k + 1)) + 1 / 2 ^ 100 := by
  have hunit : (0 : ℝ) < angleUnit := by exact_mod_cast angleUnit_pos
  have hdivisor : 0 < angleUnit * (k * (k + 1)) := Nat.mul_pos angleUnit_pos (by positivity)
  have hdivisor_real : (0 : ℝ) < angleUnit * (k * (k + 1)) := by exact_mod_cast hdivisor
  have hk_real : (0 : ℝ) < k * (k + 1) := by
    have : (1 : ℝ) ≤ k := by exact_mod_cast hk
    positivity
  generalize hlater : alternatingSeries u terms (k + 2) = later
  have hlater_le : later ≤ angleUnit := hlater ▸ alternatingSeries_le u terms (k + 2)
  -- The term that is taken away, rounded down in fixed point.
  obtain ⟨term, hterm⟩ : ∃ term, term = u * later / (angleUnit * (k * (k + 1))) := ⟨_, rfl⟩
  have hterm_le : term ≤ angleUnit := by
    rw [hterm]
    apply Nat.div_le_of_le_mul
    calc u * later ≤ angleUnit * angleUnit := Nat.mul_le_mul hu hlater_le
      _ ≤ angleUnit * (k * (k + 1)) * angleUnit := by
          rw [mul_right_comm]
          exact Nat.le_mul_of_pos_right _ (by positivity)
  have hbelow : (term : ℝ) * (angleUnit * (k * (k + 1))) ≤ u * later := by
    have := Nat.div_mul_le_self (u * later) (angleUnit * (k * (k + 1)))
    rw [← hterm] at this
    exact_mod_cast this
  have habove : (u * later : ℝ) ≤ (term + 1) * (angleUnit * (k * (k + 1))) := by
    have := (Nat.lt_div_mul_add (a := u * later) hdivisor).le
    rw [← hterm, ← Nat.succ_mul] at this
    exact_mod_cast this
  have hvalue : seriesValue u (terms + 1) k = 1 - term / angleUnit := by
    rw [seriesValue, alternatingSeries, hlater, ← hterm, Nat.cast_sub hterm_le, sub_div,
      div_self hunit.ne']
  have hexact : u / angleUnit * seriesValue u terms (k + 2) / (k * (k + 1)) =
      u * later / (angleUnit * (k * (k + 1))) / angleUnit := by
    rw [seriesValue, hlater]
    field_simp
  rw [hvalue, hexact]
  constructor
  · gcongr
    rwa [le_div_iff₀ hdivisor_real]
  · have hone : u * later / (angleUnit * (k * (k + 1))) ≤ (term + 1 : ℝ) := by
      rwa [div_le_iff₀ hdivisor_real]
    have hpart : u * later / (angleUnit * (k * (k + 1))) / angleUnit ≤
        (term / angleUnit + 1 / angleUnit : ℝ) := by
      rw [← add_div]
      gcongr
    have := one_div_angleUnit_le
    linarith

/-- Numbers that are one less a part of the next number are enclosed by cutting off after three and
after four of them. -/
theorem between_of_nested {p v : ℕ → ℝ} {e : ℝ} (hp : ∀ i, 0 ≤ p i ∧ p i ≤ 1) (he : 0 ≤ e)
    (hv : ∀ i < 4, 1 - p i * v (i + 1) ≤ v i ∧ v i ≤ 1 - p i * v (i + 1) + e)
    (hlast : 0 ≤ v 4 ∧ v 4 ≤ 1) :
    1 - p 0 * (1 - p 1 * (1 - p 2)) - 4 * e ≤ v 0 ∧
      v 0 ≤ 1 - p 0 * (1 - p 1 * (1 - p 2 * (1 - p 3))) + 4 * e := by
  have hstep (i : ℕ) (hi : i < 4) {low high : ℝ} {n : ℕ}
      (h : low - n * e ≤ v (i + 1) ∧ v (i + 1) ≤ high + n * e) :
      1 - p i * high - (n + 1 : ℕ) * e ≤ v i ∧ v i ≤ 1 - p i * low + (n + 1 : ℕ) * e := by
    obtain ⟨hlow, hhigh⟩ := h
    obtain ⟨hp_nonneg, hp_le⟩ := hp i
    obtain ⟨hbelow, habove⟩ := hv i hi
    have herror : p i * (n * e) ≤ n * e := mul_le_of_le_one_left (by positivity) hp_le
    have hproduct_high := mul_le_mul_of_nonneg_left hhigh hp_nonneg
    have hproduct_low := mul_le_mul_of_nonneg_left hlow hp_nonneg
    push_cast
    constructor <;> linarith
  have hthird : 1 - p 3 - (1 : ℕ) * e ≤ v 3 ∧ v 3 ≤ 1 + (1 : ℕ) * e := by
    have hfourth : 0 - (0 : ℕ) * e ≤ v 4 ∧ v 4 ≤ 1 + (0 : ℕ) * e := by simpa using hlast
    simpa using hstep 3 (by norm_num) hfourth
  have hsecond : 1 - p 2 - (2 : ℕ) * e ≤ v 2 ∧ v 2 ≤ 1 - p 2 * (1 - p 3) + (2 : ℕ) * e := by
    simpa using hstep 2 (by norm_num) hthird
  have hfirst := hstep 1 (by norm_num) hsecond
  have hzeroth := hstep 0 (by norm_num) hfirst
  simpa using hzeroth

/-- A series of at least four terms is enclosed by cutting it off after three and after four of
them, but for the rounding in fixed point. -/
theorem seriesValue_between {u k : ℕ} {t : ℝ} (ht : t = u / angleUnit) (hu : u ≤ angleUnit)
    (hk : 1 ≤ k) (terms : ℕ) {d : ℕ → ℝ} (hd : ∀ i, d i = (k + 2 * i) * (k + 2 * i + 1)) :
    1 - t / d 0 * (1 - t / d 1 * (1 - t / d 2)) - 4 / 2 ^ 100 ≤ seriesValue u (terms + 4) k ∧
      seriesValue u (terms + 4) k ≤
        1 - t / d 0 * (1 - t / d 1 * (1 - t / d 2 * (1 - t / d 3))) + 4 / 2 ^ 100 := by
  have hunit : (0 : ℝ) < angleUnit := by exact_mod_cast angleUnit_pos
  have hk_real : (1 : ℝ) ≤ k := by exact_mod_cast hk
  have ht_nonneg : 0 ≤ t := ht ▸ by positivity
  have ht_le : t ≤ 1 := by
    rw [ht, div_le_one hunit]
    exact_mod_cast hu
  have hparts (i : ℕ) : 0 ≤ t / d i ∧ t / d i ≤ 1 := by
    have hdivisor : 1 ≤ d i := by
      have : (0 : ℝ) ≤ i := Nat.cast_nonneg i
      rw [hd]
      nlinarith
    exact ⟨by positivity, (div_le_one (by linarith)).mpr (ht_le.trans hdivisor)⟩
  have hnested (i : ℕ) (hi : i < 4) :
      1 - t / d i * seriesValue u (terms + 4 - (i + 1)) (k + 2 * (i + 1)) ≤
          seriesValue u (terms + 4 - i) (k + 2 * i) ∧
        seriesValue u (terms + 4 - i) (k + 2 * i) ≤
          1 - t / d i * seriesValue u (terms + 4 - (i + 1)) (k + 2 * (i + 1)) + 1 / 2 ^ 100 := by
    have hbounds := seriesValue_succ_bounds hu (k := k + 2 * i) (by omega) (terms + 3 - i)
    rw [show terms + 3 - i + 1 = terms + 4 - i by omega, mul_div_right_comm, ← ht] at hbounds
    push_cast at hbounds
    rwa [hd, show terms + 4 - (i + 1) = terms + 3 - i by omega,
      show k + 2 * (i + 1) = k + 2 * i + 2 by ring]
  have hbetween := between_of_nested (v := fun i => seriesValue u (terms + 4 - i) (k + 2 * i))
    hparts (by norm_num) hnested (seriesValue_bounds u terms (k + 8))
  rwa [mul_one_div] at hbetween

/-- The square of a number that is enclosed but for a small error is enclosed too. -/
theorem sq_between {low high e x : ℝ} (he : 0 ≤ e) (he_le : e ≤ 1) (hlow : e ≤ low)
    (hlow_le : low ≤ 1) (hhigh : high ≤ 1) (hx : low - e ≤ x ∧ x ≤ high + e) :
    low ^ 2 - 3 * e ≤ x ^ 2 ∧ x ^ 2 ≤ high ^ 2 + 3 * e := by
  obtain ⟨hbelow, habove⟩ := hx
  have hsquare_low : (low - e) ^ 2 ≤ x ^ 2 := pow_le_pow_left₀ (by linarith) hbelow 2
  have hsquare_high : x ^ 2 ≤ (high + e) ^ 2 := pow_le_pow_left₀ (by linarith) habove 2
  constructor <;> nlinarith

/-- Where the two series are enclosed, they belong to a point of the unit circle. -/
theorem abs_series_sub_one_le {t s c : ℝ} (ht_nonneg : 0 ≤ t) (ht : t ≤ 5 / 8)
    (hs : 1 - t / 6 * (1 - t / 20 * (1 - t / 42)) - 4 / 2 ^ 100 ≤ s ∧
      s ≤ 1 - t / 6 * (1 - t / 20 * (1 - t / 42 * (1 - t / 72))) + 4 / 2 ^ 100)
    (hc : 1 - t / 2 * (1 - t / 12 * (1 - t / 30)) - 4 / 2 ^ 100 ≤ c ∧
      c ≤ 1 - t / 2 * (1 - t / 12 * (1 - t / 30 * (1 - t / 56))) + 4 / 2 ^ 100) :
    |t * s ^ 2 + c ^ 2 - 1| ≤ 1 / 110000 := by
  -- Every polynomial of the nest is between a half and one.
  have hnested (n : ℝ) (hn : 2 ≤ n) {r : ℝ} (hr : 1 / 2 ≤ r ∧ r ≤ 1) :
      1 / 2 ≤ 1 - t / n * r ∧ 1 - t / n * r ≤ 1 := by
    have hpart : t / n ≤ 1 / 2 := by
      rw [div_le_div_iff₀ (by linarith) (by norm_num)]
      linarith
    have hpart_nonneg : 0 ≤ t / n := by positivity
    constructor <;> nlinarith
  have hlast (n : ℝ) (hn : 2 ≤ n) : 1 / 2 ≤ 1 - t / n ∧ 1 - t / n ≤ 1 := by
    simpa using hnested n hn (r := 1) (by norm_num)
  have hs_sq := sq_between (by norm_num) (by norm_num)
    ((by norm_num : (4 : ℝ) / 2 ^ 100 ≤ 1 / 2).trans
      (hnested 6 (by norm_num) (hnested 20 (by norm_num) (hlast 42 (by norm_num)))).1)
    (hnested 6 (by norm_num) (hnested 20 (by norm_num) (hlast 42 (by norm_num)))).2
    (hnested 6 (by norm_num) (hnested 20 (by norm_num) (hnested 42 (by norm_num)
      (hlast 72 (by norm_num))))).2 hs
  have hc_sq := sq_between (by norm_num) (by norm_num)
    ((by norm_num : (4 : ℝ) / 2 ^ 100 ≤ 1 / 2).trans
      (hnested 2 (by norm_num) (hnested 12 (by norm_num) (hlast 30 (by norm_num)))).1)
    (hnested 2 (by norm_num) (hnested 12 (by norm_num) (hlast 30 (by norm_num)))).2
    (hnested 2 (by norm_num) (hnested 12 (by norm_num) (hnested 30 (by norm_num)
      (hlast 56 (by norm_num))))).2 hc
  have hs_below := mul_le_mul_of_nonneg_left hs_sq.1 ht_nonneg
  have hs_above := mul_le_mul_of_nonneg_left hs_sq.2 ht_nonneg
  -- In the squares of the enclosing polynomials all but the highest powers cancel out.
  have hlow : t * (1 - t / 6 * (1 - t / 20 * (1 - t / 42))) ^ 2 +
      (1 - t / 2 * (1 - t / 12 * (1 - t / 30))) ^ 2 - 1 =
      -t ^ 4 * (1 / 20160 - t / 50400 + t ^ 2 / 725760 - t ^ 3 / 25401600) := by ring
  have hhigh : t * (1 - t / 6 * (1 - t / 20 * (1 - t / 42 * (1 - t / 72)))) ^ 2 +
      (1 - t / 2 * (1 - t / 12 * (1 - t / 30 * (1 - t / 56)))) ^ 2 - 1 =
      t ^ 5 * (1 / 1814400 - t / 4354560 + t ^ 2 / 60963840 - t ^ 3 / 2090188800 +
        t ^ 4 / 131681894400) := by ring
  have hpower (n : ℕ) : 0 ≤ t ^ n ∧ t ^ n ≤ (5 / 8) ^ n :=
    ⟨by positivity, pow_le_pow_left₀ ht_nonneg ht n⟩
  have hlow_le : t ^ 4 * (1 / 20160 - t / 50400 + t ^ 2 / 725760 - t ^ 3 / 25401600) ≤
      (5 / 8) ^ 4 * (1 / 19000) :=
    mul_le_mul (hpower 4).2 (by linarith [hpower 2, hpower 3]) (by linarith [hpower 2, hpower 3])
      (by positivity)
  have hhigh_le : t ^ 5 * (1 / 1814400 - t / 4354560 + t ^ 2 / 60963840 - t ^ 3 / 2090188800 +
      t ^ 4 / 131681894400) ≤ (5 / 8) ^ 5 * (1 / 19000) :=
    mul_le_mul (hpower 5).2 (by linarith [hpower 2, hpower 3, hpower 4])
      (by linarith [hpower 2, hpower 3, hpower 4]) (by positivity)
  rw [abs_le]
  constructor <;> linarith

/-- Numbers of at most one that are close to each other have squares that are close. -/
theorem abs_sq_sub_sq_le {x y e : ℝ} (hx : |x| ≤ 1) (hy : |y| ≤ 1) (h : |x - y| ≤ e) :
    |x ^ 2 - y ^ 2| ≤ 2 * e := by
  calc |x ^ 2 - y ^ 2| = |x + y| * |x - y| := by rw [sq_sub_sq, abs_mul]
    _ ≤ (|x| + |y|) * |x - y| := by
        gcongr
        exact abs_add_le x y
    _ ≤ 2 * e := mul_le_mul (by linarith) h (abs_nonneg _) (by norm_num)

/-- A quotient in fixed point is less than one part away from the exact quotient. -/
theorem abs_ediv_sub_le (n : ℤ) :
    |((n / angleUnit : ℤ) : ℝ) / angleUnit - n / angleUnit / angleUnit| ≤ 1 / 2 ^ 100 := by
  have hunit : (0 : ℤ) < angleUnit := by exact_mod_cast angleUnit_pos
  have hunit_real : (0 : ℝ) < angleUnit := by exact_mod_cast angleUnit_pos
  have hlow : ((n / angleUnit : ℤ) : ℝ) ≤ n / angleUnit := by
    rw [le_div_iff₀ hunit_real]
    exact_mod_cast Int.ediv_mul_le n hunit.ne'
  have hhigh : (n / angleUnit : ℝ) ≤ (n / angleUnit : ℤ) + 1 := by
    rw [div_le_iff₀ hunit_real]
    exact_mod_cast (Int.lt_ediv_add_one_mul_self n hunit).le
  rw [← sub_div, abs_div, abs_of_pos hunit_real]
  calc |((n / angleUnit : ℤ) : ℝ) - n / angleUnit| / angleUnit ≤ 1 / angleUnit := by
        gcongr
        rw [abs_le]
        constructor <;> linarith
    _ ≤ 1 / 2 ^ 100 := one_div_angleUnit_le

/-- The square of a rest in fixed point is the square but for the rounding, and at most `5 / 8`. -/
theorem square_of_rest {rest : ℤ} (h : 2 * rest.natAbs ≤ quarterTurn) {square : ℕ}
    (hsquare : square = rest.natAbs * rest.natAbs / angleUnit) :
    (rest / angleUnit : ℝ) ^ 2 ≤ 5 / 8 ∧ (square / angleUnit : ℝ) ≤ 5 / 8 ∧
      |(square / angleUnit : ℝ) - (rest / angleUnit) ^ 2| ≤ 1 / 2 ^ 100 := by
  have hexact : (rest / angleUnit : ℝ) ^ 2 =
      (rest.natAbs * rest.natAbs : ℕ) / angleUnit / angleUnit := by
    rw [Nat.cast_mul, Nat.cast_natAbs, Int.cast_abs, abs_mul_abs_self]
    ring
  have hexact_le : (rest / angleUnit : ℝ) ^ 2 ≤ 5 / 8 := by
    have hunit : (0 : ℝ) < angleUnit := by exact_mod_cast angleUnit_pos
    rw [hexact, div_div, div_le_div_iff₀ (by positivity) (by norm_num), mul_comm]
    exact_mod_cast square_le_of_rest h
  refine ⟨hexact_le, ?_, ?_⟩
  · refine le_trans ?_ hexact_le
    rw [hexact, hsquare]
    gcongr
    exact Nat.cast_div_le
  · have hnear := abs_ediv_sub_le (rest.natAbs * rest.natAbs : ℕ)
    rw [← Int.natCast_ediv, ← hsquare, Int.cast_natCast, Int.cast_natCast] at hnear
    rwa [hexact]

/-- The two series of a square that is not too large belong to a point of the unit circle. -/
theorem abs_seriesValue_sub_one_le {square : ℕ} (h : (square / angleUnit : ℝ) ≤ 5 / 8) :
    |square / angleUnit * seriesValue square 12 2 ^ 2 + seriesValue square 12 1 ^ 2 - 1| ≤
      1 / 110000 := by
  have hunit : (0 : ℝ) < angleUnit := by exact_mod_cast angleUnit_pos
  have hsquare_le : square ≤ angleUnit := by
    have : (square : ℝ) ≤ 1 * angleUnit := by
      rw [← div_le_iff₀ hunit]
      linarith
    exact_mod_cast one_mul (angleUnit : ℝ) ▸ this
  have hs := seriesValue_between (k := 2) rfl hsquare_le (by norm_num) 8 fun _ => rfl
  have hc := seriesValue_between (k := 1) rfl hsquare_le (by norm_num) 8 fun _ => rfl
  refine abs_series_sub_one_le (by positivity) h ?_ ?_
  · convert hs using 6 <;> norm_num
  · convert hc using 6 <;> norm_num

/-- The square of a sine in fixed point is that of its series times the rest, but for the
rounding. -/
theorem abs_sine_sq_sub_le {rest : ℤ} (h : 2 * rest.natAbs ≤ quarterTurn) (square terms : ℕ) :
    |((rest * alternatingSeries square terms 2 / angleUnit : ℤ) / angleUnit : ℝ) ^ 2 -
      (rest / angleUnit * seriesValue square terms 2) ^ 2| ≤ 2 * (1 / 2 ^ 100) := by
  have hunit : (0 : ℝ) < angleUnit := by exact_mod_cast angleUnit_pos
  obtain ⟨hs_nonneg, hs_le⟩ := seriesValue_bounds square terms 2
  have hproduct_le : |(rest / angleUnit : ℝ) * seriesValue square terms 2| ≤ 1 := by
    rw [abs_mul]
    refine mul_le_one₀ ?_ (abs_nonneg _) (abs_le.mpr ⟨by linarith, hs_le⟩)
    rw [abs_div, Nat.abs_cast, div_le_one hunit, ← Int.cast_abs, ← Nat.cast_natAbs]
    exact_mod_cast natAbs_le_angleUnit h
  have hsine_le := natAbs_mul_series_le (natAbs_le_angleUnit h) square terms 2
  have hnear := abs_ediv_sub_le (rest * alternatingSeries square terms 2)
  generalize rest * (alternatingSeries square terms 2 : ℤ) / angleUnit = sine at hsine_le hnear ⊢
  have hsine_real : |(sine / angleUnit : ℝ)| ≤ 1 := by
    rw [abs_div, Nat.abs_cast, div_le_one hunit, ← Int.cast_abs, ← Nat.cast_natAbs]
    exact_mod_cast hsine_le
  refine abs_sq_sub_sq_le hsine_real hproduct_le ?_
  convert hnear using 3
  rw [seriesValue]
  push_cast
  ring

/-- The two series at what is left of an angle belong to a point of the unit circle. -/
theorem abs_circle_sub_one_le {rest : ℤ} (h : 2 * rest.natAbs ≤ quarterTurn) {square : ℕ}
    (hsquare : square = rest.natAbs * rest.natAbs / angleUnit) :
    |((rest * alternatingSeries square 12 2 / angleUnit : ℤ) / angleUnit : ℝ) ^ 2 +
      (alternatingSeries square 12 1 / angleUnit : ℝ) ^ 2 - 1| ≤ 1 / 100000 := by
  obtain ⟨-, ht_le, ht_near⟩ := square_of_rest h hsquare
  have hcircle := abs_seriesValue_sub_one_le ht_le
  have hsine := abs_sine_sq_sub_le h square 12
  obtain ⟨hs_nonneg, hs_le⟩ := seriesValue_bounds square 12 2
  change |_ + seriesValue square 12 1 ^ 2 - 1| ≤ _
  generalize seriesValue square 12 2 = s at hcircle hsine hs_nonneg hs_le
  have hsquare_near : |square / angleUnit * s ^ 2 - (rest / angleUnit * s) ^ 2| ≤ 1 / 2 ^ 100 := by
    calc |square / angleUnit * s ^ 2 - (rest / angleUnit * s) ^ 2|
        = |(square / angleUnit : ℝ) - (rest / angleUnit) ^ 2| * s ^ 2 := by
          rw [mul_pow, ← sub_mul, abs_mul, abs_of_nonneg (sq_nonneg s)]
      _ ≤ 1 / 2 ^ 100 * 1 := by
          gcongr
          exact pow_le_one₀ hs_nonneg hs_le
      _ = 1 / 2 ^ 100 := mul_one _
  obtain ⟨_, _⟩ := abs_le.mp hcircle
  obtain ⟨_, _⟩ := abs_le.mp hsine
  obtain ⟨_, _⟩ := abs_le.mp hsquare_near
  rw [abs_le]
  constructor <;> linarith

/-- The sine and the sine a quarter turn further belong to a point of the unit circle. -/
theorem abs_quarterSine_sub_one_le {rest : ℤ} (h : 2 * rest.natAbs ≤ quarterTurn) (quarters : ℕ) :
    |(quarterSine quarters rest / angleUnit : ℝ) ^ 2 +
      (quarterSine (quarters + 1) rest / angleUnit : ℝ) ^ 2 - 1| ≤ 1 / 100000 := by
  have hcircle := abs_circle_sub_one_le h rfl
  have hquarters : quarters % 4 < 4 := Nat.mod_lt _ (by norm_num)
  unfold quarterSine
  dsimp only
  rw [Nat.add_mod]
  interval_cases quarters % 4
  · simpa using hcircle
  · simpa [neg_div, add_comm] using hcircle
  · simpa [neg_div] using hcircle
  · simpa [neg_div, add_comm] using hcircle

/-- What is left of an angle after the nearest number of whole parts is at most half a part. -/
theorem natAbs_sub_whole_le (angle part : ℕ) (hpart : 0 < part) :
    2 * ((angle : ℤ) - ((2 * angle + part) / (2 * part) : ℕ) * (part : ℤ)).natAbs ≤ part := by
  have hlow := Nat.div_mul_le_self (2 * angle + part) (2 * part)
  have hhigh := Nat.lt_div_mul_add (a := 2 * angle + part) (b := 2 * part) (by omega)
  generalize (2 * angle + part) / (2 * part) = whole at hlow hhigh
  have hdouble : whole * (2 * part) = 2 * (whole * part) := by ring
  rw [hdouble] at hlow hhigh
  rw [← Nat.cast_mul]
  omega

/-- Whole quarter turns are taken from an angle, whatever number of them is added. -/
theorem exists_turnedSine (rank : ℕ) : ∃ (whole : ℕ) (rest : ℤ),
    2 * rest.natAbs ≤ quarterTurn ∧
      ∀ quarters, turnedSine quarters rank = quarterSine (whole + quarters) rest :=
  ⟨_, _, natAbs_sub_whole_le _ quarterTurn quarterTurn_pos, fun _ => rfl⟩

/-! ## Rounding -/

/-- A number in fixed point of at most one is rounded to a number of at most one, and as close as
single precision is. -/
theorem exists_roundedFixed (turned : Bool) {t : ℤ} (ht : t.natAbs ≤ angleUnit) :
    ∃ x, HasValue (roundedFixed turned t) x ∧ |x| ≤ 1 ∧
      |x ^ 2 - (t / angleUnit : ℝ) ^ 2| ≤ 1 / 2 ^ 22 := by
  have hunit : (0 : ℝ) < angleUnit := by exact_mod_cast angleUnit_pos
  have hone : Representable 1 := representable_zpow (e := 0) (by norm_num)
  obtain ⟨z, hz⟩ : ∃ z : ℝ, z = t.natAbs / angleUnit := ⟨_, rfl⟩
  have hz_nonneg : 0 ≤ z := hz ▸ by positivity
  have hz_le : z ≤ 1 := by
    rw [hz, div_le_one hunit]
    exact_mod_cast ht
  have hz_abs : |z| ≤ 1 := abs_le.mpr ⟨by linarith, hz_le⟩
  have hrounded_nonneg := nearestSingle_nonneg hz_nonneg
  have hrounded_le : nearestSingle z ≤ 1 := nearestSingle_le_of_representable hone hz_le
  have hrounded_abs : |nearestSingle z| ≤ 1 := abs_le.mpr ⟨by linarith, hrounded_le⟩
  have hnear : |nearestSingle z - z| ≤ 1 / 2 ^ 23 := by
    have := abs_nearestSingle_sub_le z
    have hsmall : (1 : ℝ) / 2 ^ 150 ≤ 1 / 2 ^ 24 := by norm_num
    linarith
  have hsquare : (t / angleUnit : ℝ) ^ 2 = z ^ 2 := by
    rw [hz, div_pow, div_pow, Nat.cast_natAbs, Int.cast_abs, sq_abs]
  refine ⟨_, hasValue_nearest (turned != decide (t < 0)) angleUnit_pos
    (hz ▸ hrounded_le.trans_lt (by norm_num)), ?_, ?_⟩
  · rwa [abs_signed, ← hz]
  · rw [← hz, hsquare, ← sq_abs, abs_signed, sq_abs]
    calc |nearestSingle z ^ 2 - z ^ 2| ≤ 2 * (1 / 2 ^ 23) :=
          abs_sq_sub_sq_le hrounded_abs hz_abs hnear
      _ = 1 / 2 ^ 22 := by norm_num

/-- The sine and the cosine of a finite angle are at most one, and belong to a point of the unit
circle but for `2 ^ (-16)`. -/
theorem exists_sine_cosine {angle : Float32} (h : angle.isFinite = true) :
    ∃ s c, HasValue (sine angle) s ∧ HasValue (cosine angle) c ∧ |s| ≤ 1 ∧ |c| ≤ 1 ∧
      |s ^ 2 + c ^ 2 - 1| ≤ 1 / 65536 := by
  have hrank := singleRank_lt h
  obtain ⟨whole, rest, hrest, hturned⟩ := exists_turnedSine (singleRank angle)
  obtain ⟨s, hs, hs_le, hs_near⟩ := exists_roundedFixed (singleSign angle)
    (natAbs_quarterSine_le hrest (whole + 0))
  obtain ⟨c, hc, hc_le, hc_near⟩ := exists_roundedFixed false
    (natAbs_quarterSine_le hrest (whole + 1))
  refine ⟨s, c, ?_, ?_, hs_le, hc_le, ?_⟩
  · rwa [sine, if_neg (not_le.mpr hrank), hturned]
  · rwa [cosine, if_neg (not_le.mpr hrank), hturned]
  · have hcircle := abs_quarterSine_sub_one_le hrest whole
    rw [add_zero] at hs_near
    obtain ⟨_, _⟩ := abs_le.mp hcircle
    obtain ⟨_, _⟩ := abs_le.mp hs_near
    obtain ⟨_, _⟩ := abs_le.mp hc_near
    rw [abs_le]
    constructor <;> linarith

end BranchingTubes
