import Mathlib

/-!
# The single nearest to a real number

A finite single is an integer of at most 24 bits times a power of two that is not below
`2 ^ (-149)`.  `nearestSingle` takes a real number to the nearest such number, a half going to
the even neighbour, as if there were no greatest exponent.  Every operation on singles is the
exact operation followed by this function.

What proofs use of it is that it keeps the order (`nearestSingle_mono`), commutes with the sign
(`nearestSingle_neg`), leaves singles alone (`nearestSingle_of_representable`), and moves a
number by little (`abs_nearestSingle_sub_le`).
-/

set_option autoImplicit false

namespace BranchingTubes

/-! ## The nearest integer -/

/-- An integer is nearest to a number, and even if it is not the only one. -/
structure NearestEven (y : ℝ) (n : ℤ) : Prop where
  near : |y - n| ≤ 1 / 2
  tie : |y - n| = 1 / 2 → Even n

namespace NearestEven

variable {y y' : ℝ} {n n' : ℤ}

/-- Nearest integers keep the order of the numbers. -/
theorem le (h : NearestEven y n) (h' : NearestEven y' n') (hy : y ≤ y') : n ≤ n' := by
  by_contra! hlt
  -- The two numbers are then the same, and half-way between two even neighbours.
  have hstep : (n' : ℝ) + 1 ≤ n := by exact_mod_cast hlt
  obtain ⟨hlow, -⟩ := abs_le.mp h.near
  obtain ⟨-, hhigh⟩ := abs_le.mp h'.near
  have hn : Even n := by
    apply h.tie
    rw [abs_of_nonpos] <;> linarith
  have hn' : Even n' := by
    apply h'.tie
    rw [abs_of_nonneg] <;> linarith
  have hnext : n = n' + 1 := by
    apply le_antisymm _ hlt
    have hle : (n : ℝ) ≤ (n' + 1 : ℤ) := by
      push_cast
      linarith
    exact_mod_cast hle
  rw [hnext] at hn
  exact absurd hn' (by simpa [Int.even_add_one] using hn)

/-- A number has at most one nearest integer that is even in case of doubt. -/
theorem unique (h : NearestEven y n) (h' : NearestEven y n') : n = n' :=
  le_antisymm (h.le h' le_rfl) (h'.le h le_rfl)

/-- The nearest integer of a negated number is the negated one. -/
theorem neg (h : NearestEven y n) : NearestEven (-y) (-n) := by
  have hswap : |-y - ((-n : ℤ) : ℝ)| = |y - n| := by
    rw [← abs_neg]
    push_cast
    ring_nf
  constructor
  · rw [hswap]
    exact h.near
  · rw [hswap, even_neg]
    exact h.tie

/-- An integer is nearest to itself. -/
theorem intCast (n : ℤ) : NearestEven n n where
  near := by simp
  tie h := by norm_num at h

end NearestEven

/-- The integer nearest to a number; a half goes to the even neighbour. -/
noncomputable def nearestEven (y : ℝ) : ℤ :=
  if |y - round y| = 1 / 2 ∧ ¬ Even (round y) then round y - 1 else round y

/-- The integer that is computed is the nearest one. -/
theorem nearestEven_spec (y : ℝ) : NearestEven y (nearestEven y) := by
  unfold nearestEven
  split
  next h =>
    obtain ⟨htie, hodd⟩ := h
    -- A half is rounded up first, so the other neighbour is the one below.
    have hbelow : y - round y = -(1 / 2) := by
      rcases (abs_eq (by norm_num)).mp htie with habove | hbelow
      · have hup : round y = round y + 1 := by
          conv_lhs => rw [round_eq, show y + 1 / 2 = ((round y + 1 : ℤ) : ℝ) by push_cast; linarith]
          exact Int.floor_intCast _
        omega
      · exact hbelow
    have hone : y - ((round y - 1 : ℤ) : ℝ) = 1 / 2 := by
      push_cast
      linarith
    refine ⟨by rw [hone]; norm_num, fun _ => ?_⟩
    rw [Int.even_sub_one]
    exact hodd
  next h =>
    refine ⟨abs_sub_round y, fun htie => ?_⟩
    by_contra hodd
    exact h ⟨htie, hodd⟩

/-- The nearest integer is the one that is computed. -/
theorem NearestEven.eq_nearestEven {y : ℝ} {n : ℤ} (h : NearestEven y n) : nearestEven y = n :=
  (nearestEven_spec y).unique h

/-- Rounding to integers keeps the order. -/
theorem nearestEven_mono : Monotone nearestEven := fun y y' h =>
  (nearestEven_spec y).le (nearestEven_spec y') h

/-- Rounding to integers treats both signs alike. -/
@[simp] theorem nearestEven_neg (y : ℝ) : nearestEven (-y) = -nearestEven y :=
  (nearestEven_spec y).neg.eq_nearestEven

/-- Integers are left as they are. -/
@[simp] theorem nearestEven_intCast (n : ℤ) : nearestEven n = n :=
  (NearestEven.intCast n).eq_nearestEven

/-! ## The last place of a number -/

/-- The exponent of the last place that a single near to a number has. -/
noncomputable def lastPlace (x : ℝ) : ℤ := max (Int.log 2 |x| - 23) (-149)

/-- The single nearest to a number; a half goes to the neighbour with the even significand. -/
noncomputable def nearestSingle (x : ℝ) : ℝ := nearestEven (x / 2 ^ lastPlace x) * 2 ^ lastPlace x

/-- The last place does not depend on the sign. -/
@[simp] theorem lastPlace_neg (x : ℝ) : lastPlace (-x) = lastPlace x := by
  unfold lastPlace
  rw [abs_neg]

/-- No last place is below that of the least single. -/
theorem neg149_le_lastPlace (x : ℝ) : -149 ≤ lastPlace x := le_max_right _ _

/-- A greater number does not have a smaller last place. -/
theorem lastPlace_le_lastPlace {x y : ℝ} (hx : x ≠ 0) (h : |x| ≤ |y|) :
    lastPlace x ≤ lastPlace y := by
  unfold lastPlace
  have := Int.log_mono_right (b := 2) (abs_pos.mpr hx) h
  omega

/-- A number is less than `2 ^ 24` of its last place. -/
theorem abs_lt_of_lastPlace (x : ℝ) : |x| < 2 ^ (lastPlace x + 24) := by
  have hlog : |x| < 2 ^ (Int.log 2 |x| + 1) := by
    simpa using Int.lt_zpow_succ_log_self (b := 2) (by norm_num) |x|
  refine hlog.trans_le (zpow_le_zpow_right₀ (by norm_num) ?_)
  unfold lastPlace
  omega

/-- A number is at least `2 ^ 23` of its last place, unless that is the least one there is. -/
theorem le_abs_of_lastPlace {x : ℝ} (hx : x ≠ 0) (h : -149 < lastPlace x) :
    2 ^ (lastPlace x + 23) ≤ |x| := by
  have hplace : lastPlace x + 23 = Int.log 2 |x| := by
    unfold lastPlace at h ⊢
    omega
  rw [hplace]
  simpa using Int.zpow_log_le_self (b := 2) (by norm_num) (abs_pos.mpr hx)

/-- Rounding to singles treats both signs alike. -/
@[simp] theorem nearestSingle_neg (x : ℝ) : nearestSingle (-x) = -nearestSingle x := by
  simp [nearestSingle, neg_div]

/-- Zero is rounded to zero. -/
@[simp] theorem nearestSingle_zero : nearestSingle 0 = 0 := by
  have hzero : nearestEven 0 = 0 := by simpa using nearestEven_intCast 0
  simp [nearestSingle, hzero]

/-- What is not negative is not rounded to something negative. -/
theorem nearestSingle_nonneg {x : ℝ} (hx : 0 ≤ x) : 0 ≤ nearestSingle x := by
  have hint : nearestEven ((0 : ℤ) : ℝ) ≤ nearestEven (x / 2 ^ lastPlace x) := by
    apply nearestEven_mono
    push_cast
    positivity
  rw [nearestEven_intCast] at hint
  unfold nearestSingle
  have hcast : (0 : ℝ) ≤ nearestEven (x / 2 ^ lastPlace x) := by exact_mod_cast hint
  positivity

/-! ## Order -/

/-- Rounding up does not go past the next power of two. -/
theorem nearestSingle_le_of_pos {x : ℝ} (hx : 0 < x) : nearestSingle x ≤ 2 ^ (lastPlace x + 24) := by
  have hlt : x < 2 ^ (lastPlace x + 24) := by
    simpa [abs_of_pos hx] using abs_lt_of_lastPlace x
  have hint : nearestEven (x / 2 ^ lastPlace x) ≤ nearestEven ((2 ^ 24 : ℤ) : ℝ) := by
    apply nearestEven_mono
    rw [div_le_iff₀ (by positivity)]
    push_cast
    rw [zpow_add₀ (by norm_num)] at hlt
    norm_num at hlt ⊢
    linarith
  rw [nearestEven_intCast] at hint
  have hcast : (nearestEven (x / 2 ^ lastPlace x) : ℝ) ≤ 2 ^ (24 : ℤ) := by exact_mod_cast hint
  calc nearestSingle x ≤ 2 ^ (24 : ℤ) * 2 ^ lastPlace x := by
        unfold nearestSingle
        gcongr
    _ = 2 ^ (lastPlace x + 24) := by rw [zpow_add₀ (by norm_num), mul_comm]

/-- Rounding down does not go below the power of two before, unless the number is so small that
its last place is the least one. -/
theorem le_nearestSingle_of_pos {x : ℝ} (hx : 0 < x) (h : -149 < lastPlace x) :
    2 ^ (lastPlace x + 23) ≤ nearestSingle x := by
  have hle : 2 ^ (lastPlace x + 23) ≤ x := by
    simpa [abs_of_pos hx] using le_abs_of_lastPlace hx.ne' h
  have hint : nearestEven ((2 ^ 23 : ℤ) : ℝ) ≤ nearestEven (x / 2 ^ lastPlace x) := by
    apply nearestEven_mono
    rw [le_div_iff₀ (by positivity)]
    push_cast
    rw [zpow_add₀ (by norm_num)] at hle
    norm_num at hle ⊢
    linarith
  rw [nearestEven_intCast] at hint
  have hcast : (2 : ℝ) ^ (23 : ℤ) ≤ nearestEven (x / 2 ^ lastPlace x) := by exact_mod_cast hint
  calc (2 : ℝ) ^ (lastPlace x + 23) = 2 ^ (23 : ℤ) * 2 ^ lastPlace x := by
        rw [zpow_add₀ (by norm_num), mul_comm]
    _ ≤ nearestSingle x := by
        unfold nearestSingle
        gcongr

/-- Rounding to singles keeps the order of positive numbers. -/
theorem nearestSingle_le_of_pos_of_le {x y : ℝ} (hx : 0 < x) (h : x ≤ y) :
    nearestSingle x ≤ nearestSingle y := by
  have hy : 0 < y := hx.trans_le h
  have hplace : lastPlace x ≤ lastPlace y := by
    apply lastPlace_le_lastPlace hx.ne'
    rwa [abs_of_pos hx, abs_of_pos hy]
  rcases hplace.eq_or_lt with heq | hlt
  · unfold nearestSingle
    rw [heq]
    gcongr
    exact nearestEven_mono (by gcongr)
  · -- A power of two lies between the two results.
    calc nearestSingle x ≤ 2 ^ (lastPlace x + 24) := nearestSingle_le_of_pos hx
      _ ≤ 2 ^ (lastPlace y + 23) := zpow_le_zpow_right₀ (by norm_num) (by omega)
      _ ≤ nearestSingle y :=
          le_nearestSingle_of_pos hy ((neg149_le_lastPlace x).trans_lt hlt)

/-- Rounding to singles keeps the order. -/
theorem nearestSingle_mono : Monotone nearestSingle := by
  intro x y h
  rcases lt_or_ge 0 x with hx | hx
  · exact nearestSingle_le_of_pos_of_le hx h
  rcases lt_or_ge y 0 with hy | hy
  · have hneg := nearestSingle_le_of_pos_of_le (neg_pos.mpr hy) (neg_le_neg h)
    simpa using hneg
  · have hnonpos := nearestSingle_nonneg (neg_nonneg.mpr hx)
    rw [nearestSingle_neg] at hnonpos
    linarith [nearestSingle_nonneg hy]

/-- The size of a rounded number is the rounded size. -/
theorem abs_nearestSingle (x : ℝ) : |nearestSingle x| = nearestSingle |x| := by
  rcases le_total 0 x with hx | hx
  · rw [abs_of_nonneg hx, abs_of_nonneg (nearestSingle_nonneg hx)]
  · have hneg := nearestSingle_nonneg (neg_nonneg.mpr hx)
    rw [abs_of_nonpos hx, ← abs_neg, ← nearestSingle_neg, abs_of_nonneg hneg]

/-! ## Numbers that are singles -/

/-- A number has at most 24 significant bits, none of them beyond the place `2 ^ (-149)`. -/
def Representable (x : ℝ) : Prop := ∃ k e : ℤ, |k| < 2 ^ 24 ∧ -149 ≤ e ∧ x = k * 2 ^ e

/-- A number that a single can have is left as it is. -/
theorem nearestSingle_of_representable {x : ℝ} (h : Representable x) : nearestSingle x = x := by
  obtain ⟨k, e, hk, he, rfl⟩ := h
  by_cases hzero : k = 0
  · simp [hzero]
  have hplace : lastPlace ((k : ℝ) * 2 ^ e) ≤ e := by
    have habs : |(k : ℝ) * 2 ^ e| < 2 ^ (24 + e) := by
      rw [abs_mul, abs_of_pos (zpow_pos (by norm_num : (0 : ℝ) < 2) e), zpow_add₀ (by norm_num)]
      have hcast : |(k : ℝ)| < 2 ^ (24 : ℤ) := by exact_mod_cast hk
      gcongr
    have hlog : Int.log 2 |(k : ℝ) * 2 ^ e| < 24 + e := by
      have hpos : 0 < |(k : ℝ) * 2 ^ e| := by positivity
      exact (Int.lt_zpow_iff_log_lt (b := 2) (by norm_num) hpos).mp (by simpa using habs)
    unfold lastPlace
    omega
  have hint : (k : ℝ) * 2 ^ e / 2 ^ lastPlace ((k : ℝ) * 2 ^ e) =
      ((k * 2 ^ (e - lastPlace ((k : ℝ) * 2 ^ e)).toNat : ℤ) : ℝ) := by
    push_cast
    rw [mul_div_assoc, ← zpow_sub₀ (by norm_num), ← zpow_natCast, Int.toNat_of_nonneg (by omega)]
  unfold nearestSingle
  rw [hint, nearestEven_intCast, ← hint]
  exact div_mul_cancel₀ _ (by positivity)

/-- Powers of two that are not too small are representable. -/
theorem representable_zpow {e : ℤ} (he : -149 ≤ e) : Representable (2 ^ e) :=
  ⟨1, e, by norm_num, he, by simp⟩

/-- What is representable is so with the other sign too. -/
theorem Representable.neg {x : ℝ} (h : Representable x) : Representable (-x) := by
  obtain ⟨k, e, hk, he, rfl⟩ := h
  exact ⟨-k, e, by rwa [abs_neg], he, by push_cast; ring⟩

/-- Rounding does not carry a number above a representable one. -/
theorem nearestSingle_le_of_representable {x y : ℝ} (hy : Representable y) (h : x ≤ y) :
    nearestSingle x ≤ y := by
  rw [← nearestSingle_of_representable hy]
  exact nearestSingle_mono h

/-- Rounding does not carry a number below a representable one. -/
theorem le_nearestSingle_of_representable {x y : ℝ} (hy : Representable y) (h : y ≤ x) :
    y ≤ nearestSingle x := by
  rw [← nearestSingle_of_representable hy]
  exact nearestSingle_mono h

/-! ## Error -/

/-- Rounding moves a number by at most half its last place. -/
theorem abs_nearestSingle_sub_le_lastPlace (x : ℝ) :
    |nearestSingle x - x| ≤ 2 ^ lastPlace x / 2 := by
  have hnear := (nearestEven_spec (x / 2 ^ lastPlace x)).near
  have hunit : (0 : ℝ) < 2 ^ lastPlace x := by positivity
  have hscale : nearestSingle x - x =
      -((x / 2 ^ lastPlace x - nearestEven (x / 2 ^ lastPlace x)) * 2 ^ lastPlace x) := by
    unfold nearestSingle
    field_simp
    ring
  rw [hscale, abs_neg, abs_mul, abs_of_pos hunit]
  calc |x / 2 ^ lastPlace x - nearestEven (x / 2 ^ lastPlace x)| * 2 ^ lastPlace x
      ≤ 1 / 2 * 2 ^ lastPlace x := by gcongr
    _ = 2 ^ lastPlace x / 2 := by ring

/-- Rounding moves a number by at most a part of itself, or by half the least place. -/
theorem abs_nearestSingle_sub_le (x : ℝ) :
    |nearestSingle x - x| ≤ |x| / 2 ^ 24 + 1 / 2 ^ 150 := by
  by_cases hx : x = 0
  · simp [hx]
  have hplace := abs_nearestSingle_sub_le_lastPlace x
  rcases (neg149_le_lastPlace x).eq_or_lt with hleast | hlarge
  · rw [← hleast] at hplace
    calc |nearestSingle x - x| ≤ 2 ^ (-149 : ℤ) / 2 := hplace
      _ = 0 + 1 / 2 ^ 150 := by norm_num
      _ ≤ |x| / 2 ^ 24 + 1 / 2 ^ 150 := by gcongr; positivity
  · have hle := le_abs_of_lastPlace hx hlarge
    calc |nearestSingle x - x| ≤ 2 ^ lastPlace x / 2 := hplace
      _ = 2 ^ (lastPlace x + 23) / 2 ^ 24 := by
          rw [zpow_add₀ (by norm_num)]
          norm_num
          ring
      _ ≤ |x| / 2 ^ 24 + 0 := by
          rw [add_zero]
          gcongr
      _ ≤ |x| / 2 ^ 24 + 1 / 2 ^ 150 := by gcongr; positivity

end BranchingTubes
