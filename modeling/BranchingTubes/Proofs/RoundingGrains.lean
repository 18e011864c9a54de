import BranchingTubes.Proofs.SingleRanks
import Mathlib

/-!
# Counting rounding errors

`Near` says how far a computed number may be from an exact one.  Errors are counted in grains, a
grain being the part `2 ^ (-21)` of a scale.  One rounding costs at most one grain as long as the
exact result is less than four times the scale (`RoundedFrom.near`), and so the error of a formula
can be read off its operations: errors add up in sums, and in products each is multiplied by the
other factor (`Near.add`, `Near.sub`, `Near.mul`, `Near.unit_mul`).  How large the exact results
are is shown where the formula is known.
-/

set_option autoImplicit false

namespace BranchingTubes

/-- A single is finite and at most `error` grains away from a real number. -/
structure Near (scale : ℝ) (a : Float32) (x : ℝ) (error : ℕ) : Prop where
  exists_value : ∃ v, HasValue a v ∧ |v - x| ≤ error * (scale / 2 ^ 21)

/-- A scale for which a grain is neither too small for single precision, nor four times the scale
too large. -/
structure IsScale (scale : ℝ) : Prop where
  one_le : 1 ≤ scale
  le : scale ≤ 2 ^ 126

/-- One is a scale. -/
theorem isScale_one : IsScale 1 := ⟨le_rfl, by norm_num⟩

/-- A number is no grain away from its own value. -/
theorem HasValue.near {a : Float32} {x scale : ℝ} (h : HasValue a x) : Near scale a x 0 :=
  ⟨x, h, by simp⟩

/-- One rounding costs one grain. -/
theorem RoundedFrom.near {a : Float32} {z x scale : ℝ} {error : ℕ} (h : RoundedFrom a z)
    (hscale : IsScale scale) (hx : |x| ≤ 15 / 4 * scale) (hz : |z - x| ≤ error * (scale / 2 ^ 21))
    (herror : error ≤ 2 ^ 10) : Near scale a x (error + 1) := by
  obtain ⟨hone, hlarge⟩ := hscale
  have herror_real : (error : ℝ) ≤ 2 ^ 10 := by exact_mod_cast herror
  have hz_le : |z| ≤ (15 / 4 + 1 / 2 ^ 11) * scale := by
    calc |z| = |x + (z - x)| := by rw [add_sub_cancel]
      _ ≤ |x| + |z - x| := abs_add_le x (z - x)
      _ ≤ 15 / 4 * scale + 2 ^ 10 * (scale / 2 ^ 21) := by
          gcongr
          exact hz.trans (by gcongr)
      _ = (15 / 4 + 1 / 2 ^ 11) * scale := by ring
  have hrounding : |nearestSingle z - z| ≤ scale / 2 ^ 21 := by
    calc |nearestSingle z - z| ≤ |z| / 2 ^ 24 + 1 / 2 ^ 150 := abs_nearestSingle_sub_le z
      _ ≤ (15 / 4 + 1 / 2 ^ 11) * scale / 2 ^ 24 + scale / 2 ^ 24 := by
          gcongr <;> norm_num
      _ ≤ scale / 2 ^ 21 := by linarith
  have hfinite : |nearestSingle z| < 2 ^ 128 := by
    calc |nearestSingle z| = |z + (nearestSingle z - z)| := by rw [add_sub_cancel]
      _ ≤ |z| + |nearestSingle z - z| := abs_add_le _ _
      _ ≤ (15 / 4 + 1 / 2 ^ 11) * scale + scale / 2 ^ 21 := add_le_add hz_le hrounding
      _ ≤ (15 / 4 + 1 / 2 ^ 11) * 2 ^ 126 + 2 ^ 126 / 2 ^ 21 := by gcongr
      _ < 2 ^ 128 := by norm_num
  refine ⟨_, h.hasValue hfinite, ?_⟩
  calc |nearestSingle z - x| ≤ |nearestSingle z - z| + |z - x| := abs_sub_le _ _ _
    _ ≤ scale / 2 ^ 21 + error * (scale / 2 ^ 21) := add_le_add hrounding hz
    _ = ((error + 1 : ℕ) : ℝ) * (scale / 2 ^ 21) := by
        push_cast
        ring

/-- A result of exact operands is at most one grain away from the exact result. -/
theorem RoundedFrom.near_exact {a : Float32} {z scale : ℝ} (h : RoundedFrom a z)
    (hscale : IsScale scale) (hz : |z| ≤ 15 / 4 * scale) : Near scale a z 1 :=
  h.near hscale hz (by simp) (by norm_num)

namespace Near

variable {scale : ℝ} {a b : Float32} {x y : ℝ} {error error' : ℕ}

/-- An error may be counted higher than it is. -/
theorem mono (h : Near scale a x error) (hscale : IsScale scale) (herror : error ≤ error') :
    Near scale a x error' := by
  have hpos : 0 ≤ scale := zero_le_one.trans hscale.one_le
  obtain ⟨v, hv, hv_near⟩ := h
  exact ⟨v, hv, hv_near.trans (by gcongr)⟩

/-- The errors of the parts of a sum add up, and one grain comes from rounding it. -/
theorem add (hscale : IsScale scale) (ha : Near scale a x error) (hb : Near scale b y error')
    (hsize : |x + y| ≤ 15 / 4 * scale) (herror : error + error' ≤ 2 ^ 10) :
    Near scale (a + b) (x + y) (error + error' + 1) := by
  obtain ⟨v, hv, hv_near⟩ := ha
  obtain ⟨w, hw, hw_near⟩ := hb
  refine (hv.add hw).near hscale hsize ?_ herror
  calc |v + w - (x + y)| = |(v - x) + (w - y)| := by rw [add_sub_add_comm]
    _ ≤ |v - x| + |w - y| := abs_add_le _ _
    _ ≤ error * (scale / 2 ^ 21) + error' * (scale / 2 ^ 21) := add_le_add hv_near hw_near
    _ = (error + error' : ℕ) * (scale / 2 ^ 21) := by push_cast; ring

/-- A sign costs nothing. -/
theorem neg (ha : Near scale a x error) : Near scale (-a) (-x) error := by
  obtain ⟨v, hv, hv_near⟩ := ha
  refine ⟨-v, hv.neg, ?_⟩
  rwa [neg_sub_neg, abs_sub_comm]

/-- The errors of the parts of a difference add up, and one grain comes from rounding it. -/
theorem sub (hscale : IsScale scale) (ha : Near scale a x error) (hb : Near scale b y error')
    (hsize : |x - y| ≤ 15 / 4 * scale) (herror : error + error' ≤ 2 ^ 10) :
    Near scale (a - b) (x - y) (error + error' + 1) := by
  obtain ⟨v, hv, hv_near⟩ := ha
  obtain ⟨w, hw, hw_near⟩ := hb
  refine (hv.sub hw).near hscale hsize ?_ herror
  calc |v - w - (x - y)| = |(v - x) - (w - y)| := by rw [sub_sub_sub_comm]
    _ ≤ |v - x| + |w - y| := abs_sub _ _
    _ ≤ error * (scale / 2 ^ 21) + error' * (scale / 2 ^ 21) := add_le_add hv_near hw_near
    _ = (error + error' : ℕ) * (scale / 2 ^ 21) := by push_cast; ring

/-- Nearly exact factors have a nearly exact product: the error of each is multiplied by the size of
the other, and what both errors contribute together is less than half a grain. -/
theorem abs_mul_sub_mul_le_grains {v w size size' : ℝ} {total : ℕ} (hpos : 0 ≤ scale)
    (hv : |v - x| ≤ error * (scale / 2 ^ 21)) (hw : |w - y| ≤ error' * (1 / 2 ^ 21))
    (hx : |x| ≤ size * scale) (hy : |y| ≤ size') (herrors : error * error' ≤ 2 ^ 20)
    (htotal : size * error' + size' * error + 1 / 2 ≤ total) :
    |v * w - x * y| ≤ total * (scale / 2 ^ 21) := by
  have hboth : (error : ℝ) * error' ≤ 2 ^ 20 := by exact_mod_cast herrors
  calc |v * w - x * y| = |(v - x) * (w - y) + x * (w - y) + y * (v - x)| := by ring_nf
    _ ≤ |v - x| * |w - y| + |x| * |w - y| + |y| * |v - x| := by
        rw [← abs_mul, ← abs_mul, ← abs_mul]
        exact abs_add_three _ _ _
    _ ≤ (error * (scale / 2 ^ 21)) * (error' * (1 / 2 ^ 21)) +
          (size * scale) * (error' * (1 / 2 ^ 21)) + size' * (error * (scale / 2 ^ 21)) := by
        have hsize_nonneg : 0 ≤ size * scale := (abs_nonneg x).trans hx
        have hsize'_nonneg : 0 ≤ size' := (abs_nonneg y).trans hy
        gcongr
    _ = (error * error' / 2 ^ 21 + size * error' + size' * error) * (scale / 2 ^ 21) := by ring
    _ ≤ (2 ^ 20 / 2 ^ 21 + size * error' + size' * error) * (scale / 2 ^ 21) := by gcongr
    _ ≤ total * (scale / 2 ^ 21) := by
        gcongr
        linarith

/-- A product with a number of the scale one has the errors of the factors, each multiplied by the
size of the other factor, and one grain more for the rounding. -/
theorem mul {size size' : ℝ} (total : ℕ) (hscale : IsScale scale) (ha : Near scale a x error)
    (hb : Near 1 b y error') (hx : |x| ≤ size * scale) (hy : |y| ≤ size')
    (hsize : |x * y| ≤ 15 / 4 * scale) (herrors : error * error' ≤ 2 ^ 20)
    (htotal : size * error' + size' * error + 1 / 2 ≤ total) (htotal_le : total ≤ 2 ^ 10) :
    Near scale (a * b) (x * y) (total + 1) := by
  obtain ⟨v, hv, hv_near⟩ := ha
  obtain ⟨w, hw, hw_near⟩ := hb
  have hpos : 0 ≤ scale := zero_le_one.trans hscale.one_le
  exact (hv.mul hw).near hscale hsize
    (abs_mul_sub_mul_le_grains hpos hv_near hw_near hx hy herrors htotal) htotal_le

/-- The product the other way around. -/
theorem unit_mul {size size' : ℝ} (total : ℕ) (hscale : IsScale scale) (hb : Near 1 b y error')
    (ha : Near scale a x error) (hy : |y| ≤ size') (hx : |x| ≤ size * scale)
    (hsize : |y * x| ≤ 15 / 4 * scale) (herrors : error * error' ≤ 2 ^ 20)
    (htotal : size * error' + size' * error + 1 / 2 ≤ total) (htotal_le : total ≤ 2 ^ 10) :
    Near scale (b * a) (y * x) (total + 1) := by
  obtain ⟨v, hv, hv_near⟩ := ha
  obtain ⟨w, hw, hw_near⟩ := hb
  have hpos : 0 ≤ scale := zero_le_one.trans hscale.one_le
  refine (hw.mul hv).near hscale hsize ?_ htotal_le
  rw [mul_comm w, mul_comm y]
  exact abs_mul_sub_mul_le_grains hpos hv_near hw_near hx hy herrors htotal

end Near

end BranchingTubes
