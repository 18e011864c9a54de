import BranchingTubes.Proofs.RotationErrors
import Mathlib

/-!
# The offset of a ring

A corner of a ring is the position of the turtle plus an offset: the turtle's right, scaled by the
radius and turned about the heading.  The right is nearly perpendicular to the heading, so the sums
that turn it do not get larger than the offset itself, and the offset is finite for every radius
that a segment can have.  Its components are at most the radius but for a part of `2 ^ (-11)`
(`Rotation.Rigid.ringOffset`).
-/

set_option autoImplicit false

namespace BranchingTubes

open Quaternion
open scoped Quaternion

/-- A single is finite, and at most a bound from zero. -/
structure Moderate (bound : ℝ) (a : Float32) : Prop where
  exists_value : ∃ x, HasValue a x ∧ |x| ≤ bound

/-- The coordinates of a vector are finite and at most a bound from zero. -/
structure Vec3.AtMost (bound : ℝ) (v : Vec3) : Prop where
  x : Moderate bound v.x
  y : Moderate bound v.y
  z : Moderate bound v.z

section Scaled

variable {scale ρ s : ℝ} {r d h p : ℍ[ℝ]}

/-- A scaled vector is as long as the vector times the factor, but for the rounding of its
components. -/
theorem normSq_scaled_le (hρ_nonneg : 0 ≤ ρ) (hρ : ρ ≤ 2 * scale)
    (hr : |normSq r - 1| ≤ 1 / 4096) (hd : VectorWithin (scale / 2 ^ 21) d (ρ • r))
    (hpure : d.re = 0) : normSq d ≤ 4 * (1 + 1 / 4096 + 1 / 2 ^ 18) * scale ^ 2 := by
  obtain ⟨hlow, hhigh⟩ := abs_le.mp hr
  obtain ⟨-, hrI, hrJ, hrK⟩ := abs_components_le_unit (p := r) (by linarith)
  have hpos : 0 ≤ scale := by linarith
  have hsquare {x y : ℝ} (hy : |y| ≤ 17 / 16) (hx : |x - ρ * y| ≤ scale / 2 ^ 21) :
      x ^ 2 ≤ (ρ * y) ^ 2 + 5 * (scale ^ 2 / 2 ^ 21) := by
    have hproduct : |ρ * y| ≤ 17 / 8 * scale := by
      calc |ρ * y| = ρ * |y| := by rw [abs_mul, abs_of_nonneg hρ_nonneg]
        _ ≤ 2 * scale * (17 / 16) := by gcongr
        _ = 17 / 8 * scale := by ring
    have hx_le : |x| ≤ |ρ * y| + scale / 2 ^ 21 := by
      linarith [abs_sub_abs_le_abs_sub x (ρ * y)]
    calc x ^ 2 = |x| ^ 2 := (sq_abs x).symm
      _ ≤ (|ρ * y| + scale / 2 ^ 21) ^ 2 := by gcongr
      _ = (ρ * y) ^ 2 + (2 * |ρ * y| + scale / 2 ^ 21) * (scale / 2 ^ 21) := by
          rw [← sq_abs (ρ * y)]
          ring
      _ ≤ (ρ * y) ^ 2 + 5 * scale * (scale / 2 ^ 21) := by
          gcongr
          linarith
      _ = (ρ * y) ^ 2 + 5 * (scale ^ 2 / 2 ^ 21) := by ring
  have hlength : r.imI ^ 2 + r.imJ ^ 2 + r.imK ^ 2 ≤ 1 + 1 / 4096 := by
    rw [normSq_def'] at hhigh
    linarith [sq_nonneg r.re]
  calc normSq d = d.imI ^ 2 + d.imJ ^ 2 + d.imK ^ 2 := by
        rw [normSq_def', hpure]
        ring
    _ ≤ ((ρ * r.imI) ^ 2 + 5 * (scale ^ 2 / 2 ^ 21)) +
          ((ρ * r.imJ) ^ 2 + 5 * (scale ^ 2 / 2 ^ 21)) +
          ((ρ * r.imK) ^ 2 + 5 * (scale ^ 2 / 2 ^ 21)) :=
        add_le_add (add_le_add (hsquare hrI hd.imI) (hsquare hrJ hd.imJ)) (hsquare hrK hd.imK)
    _ = (r.imI ^ 2 + r.imJ ^ 2 + r.imK ^ 2) * ρ ^ 2 + 15 * (scale ^ 2 / 2 ^ 21) := by ring
    _ ≤ (1 + 1 / 4096) * (2 * scale) ^ 2 + 15 * (scale ^ 2 / 2 ^ 21) := by gcongr
    _ ≤ 4 * (1 + 1 / 4096 + 1 / 2 ^ 18) * scale ^ 2 := by linarith [sq_nonneg scale]

/-- A vector that is scaled remains nearly perpendicular to an axis that is scaled too. -/
theorem abs_scaled_dot_le (hρ_nonneg : 0 ≤ ρ) (hρ : ρ ≤ 2 * scale) (hr : normSq r ≤ 9 / 8)
    (hp : normSq p ≤ 9 / 8) (hs : |s| ≤ 1)
    (hdot : |r.imI * h.imI + r.imJ * h.imJ + r.imK * h.imK| ≤ 1 / 4096)
    (hd : VectorWithin (scale / 2 ^ 21) d (ρ • r)) (haxis : VectorWithin (1 / 2 ^ 21) p (s • h)) :
    |d.imI * p.imI + d.imJ * p.imJ + d.imK * p.imK| ≤ 1 / 8 * scale := by
  obtain ⟨-, hrI, hrJ, hrK⟩ := abs_components_le_unit hr
  obtain ⟨-, hpI, hpJ, hpK⟩ := abs_components_le_unit hp
  have hpos : 0 ≤ scale := by linarith
  have hterm {x y k l : ℝ} (hy : |y| ≤ 17 / 16) (hk : |k| ≤ 17 / 16)
      (hx : |x - ρ * y| ≤ scale / 2 ^ 21) (hl : |k - s * l| ≤ 1 / 2 ^ 21) :
      |x * k - ρ * s * (y * l)| ≤ 4 * (scale / 2 ^ 21) := by
    calc |x * k - ρ * s * (y * l)| = |(x - ρ * y) * k + ρ * y * (k - s * l)| := by ring_nf
      _ ≤ |x - ρ * y| * |k| + |ρ| * |y| * |k - s * l| := by
          rw [← abs_mul, ← abs_mul, ← abs_mul]
          exact abs_add_le _ _
      _ ≤ scale / 2 ^ 21 * (17 / 16) + 2 * scale * (17 / 16) * (1 / 2 ^ 21) := by
          rw [abs_of_nonneg hρ_nonneg]
          gcongr
      _ ≤ 4 * (scale / 2 ^ 21) := by linarith
  have hexact : |ρ * s * (r.imI * h.imI + r.imJ * h.imJ + r.imK * h.imK)| ≤
      2 * scale * 1 * (1 / 4096) := by
    rw [abs_mul, abs_mul, abs_of_nonneg hρ_nonneg]
    gcongr
  have hI := hterm hrI hpI hd.imI haxis.imI
  have hJ := hterm hrJ hpJ hd.imJ haxis.imJ
  have hK := hterm hrK hpK hd.imK haxis.imK
  rw [abs_le] at hI hJ hK hexact ⊢
  constructor <;> linarith

/-- The right of a turtle, scaled by a radius, has the scaled components but for the rounding. -/
theorem exists_scaled {v : Vec3} {radius : Float32} (hv : v.quaternion.HasQuaternion r)
    (hr : normSq r ≤ 9 / 8) (hscale : IsScale scale) (hradius : HasValue radius ρ)
    (hρ_nonneg : 0 ≤ ρ) (hρ : ρ ≤ 2 * scale) :
    ∃ d, (v.scale radius).quaternion.HasQuaternion d ∧ d.re = 0 ∧
      VectorWithin (scale / 2 ^ 21) d (ρ • r) := by
  have hpos : 0 ≤ scale := zero_le_one.trans hscale.one_le
  obtain ⟨-, hrI, hrJ, hrK⟩ := abs_components_le_unit hr
  have hproduct {c : Float32} {x : ℝ} (hc : HasValue c x) (hx : |x| ≤ 17 / 16) :
      ∃ y, HasValue (c * radius) y ∧ |y - ρ * x| ≤ scale / 2 ^ 21 := by
    have hsize : |x * ρ| ≤ 15 / 4 * scale := by
      calc |x * ρ| = |x| * ρ := by rw [abs_mul, abs_of_nonneg hρ_nonneg]
        _ ≤ 17 / 16 * (2 * scale) := by gcongr
        _ ≤ 15 / 4 * scale := by linarith
    obtain ⟨y, hy, hy_near⟩ := ((hc.mul hradius).near_exact hscale hsize).exists_value
    exact ⟨y, hy, by rwa [mul_comm ρ, ← one_mul (scale / 2 ^ 21), ← Nat.cast_one]⟩
  obtain ⟨x, hx, hx_near⟩ := hproduct hv.x hrI
  obtain ⟨y, hy, hy_near⟩ := hproduct hv.y hrJ
  obtain ⟨z, hz, hz_near⟩ := hproduct hv.z hrK
  obtain ⟨d, hd, hpure, rfl, rfl, rfl⟩ := Vec3.exists_of_exact (v := v.scale radius) hx hy hz
  exact ⟨d, hd, hpure, hx_near, hy_near, hz_near⟩

/-- A rotation of nearly unit length does not make a scaled vector much longer. -/
theorem normSq_turned_le (hp : normSq p ≤ 1 + 5 / 2 ^ 14)
    (hd : normSq d ≤ 4 * (1 + 1 / 4096 + 1 / 2 ^ 18) * scale ^ 2) :
    normSq (p * d * star p) ≤ (2 * (1 + 15 / 2 ^ 15) * scale) ^ 2 := by
  have hp_nonneg : 0 ≤ normSq p := normSq_nonneg
  have hd_nonneg : 0 ≤ normSq d := normSq_nonneg
  calc normSq (p * d * star p) = normSq p ^ 2 * normSq d := Rotation.normSq_rotated p d
    _ ≤ (1 + 5 / 2 ^ 14) ^ 2 * (4 * (1 + 1 / 4096 + 1 / 2 ^ 18) * scale ^ 2) := by gcongr
    _ = (1 + 5 / 2 ^ 14) ^ 2 * (4 * (1 + 1 / 4096 + 1 / 2 ^ 18)) * scale ^ 2 := by ring
    _ ≤ (2 * (1 + 15 / 2 ^ 15)) ^ 2 * scale ^ 2 := by
        gcongr
        norm_num
    _ = (2 * (1 + 15 / 2 ^ 15) * scale) ^ 2 := by ring

/-- A component of a turned vector, with the rounding of the turn. -/
theorem Near.moderate {c : Float32} {x : ℝ} (hc : Near scale c x 45)
    (hx : |x| ≤ 2 * (1 + 15 / 2 ^ 15) * scale) (hpos : 0 ≤ scale) :
    Moderate ((1 + 1 / 2 ^ 11) * (2 * scale)) c := by
  obtain ⟨w, hw, hw_near⟩ := hc
  refine ⟨w, hw, ?_⟩
  calc |w| ≤ |x| + |w - x| := by linarith [abs_sub_abs_le_abs_sub w x]
    _ ≤ 2 * (1 + 15 / 2 ^ 15) * scale + (45 : ℕ) * (scale / 2 ^ 21) := add_le_add hx hw_near
    _ ≤ (1 + 1 / 2 ^ 11) * (2 * scale) := by
        norm_num
        linarith

end Scaled

/-- The offset of a corner of a ring, the right of a turtle scaled by a radius and turned about its
heading, has components of at most the radius but for the rounding. -/
theorem Rotation.Rigid.ringOffset {q : Rotation} {radius angle : Float32} {ρ : ℝ} (hq : q.Rigid)
    (hradius : HasValue radius ρ) (hρ_nonneg : 0 ≤ ρ) (hρ : ρ ≤ 2 ^ 127)
    (hangle : angle.isFinite = true) :
    ((fromAxisAngle (q.rotate .unitY) angle).rotate ((q.rotate .unitX).scale radius)).AtMost
      ((1 + 1 / 2 ^ 11) * max 2 ρ) := by
  obtain ⟨r, h, hr, hr_near, hh, hh_near, hdot⟩ := hq.exists_frame
  obtain ⟨p, s, hp, hp_near, hs, haxis⟩ := exists_fromAxisAngle hh hh_near hangle
  have hr_le := (abs_le.mp hr_near).2
  have hp_le := (abs_le.mp hp_near).2
  -- The scale is half the radius, but not less than one.
  obtain ⟨scale, hscale_eq⟩ : ∃ scale, max 2 ρ = 2 * scale := ⟨max 2 ρ / 2, by ring⟩
  have hscale : IsScale scale := by
    have hlarge : max 2 ρ ≤ 2 ^ 127 := max_le (by norm_num) hρ
    exact ⟨by linarith [le_max_left 2 ρ], by linarith⟩
  have hρ_scale : ρ ≤ 2 * scale := hscale_eq ▸ le_max_right 2 ρ
  have hpos : 0 ≤ scale := zero_le_one.trans hscale.one_le
  obtain ⟨d, hd, hpure, hd_within⟩ :=
    exists_scaled hr (by linarith) hscale hradius hρ_nonneg hρ_scale
  have hd_le := normSq_scaled_le hρ_nonneg hρ_scale hr_near hd_within hpure
  have hd_dot := abs_scaled_dot_le hρ_nonneg hρ_scale (by linarith) (by linarith) hs hdot hd_within
    haxis
  have hrotated := hp.rotate (r := 17 / 8) (d := 1 / 8) (by linarith) hscale hd (by norm_num) le_rfl
    (hd_le.trans (by nlinarith [sq_nonneg scale])) hd_dot (by norm_num)
  obtain ⟨-, hI, hJ, hK⟩ :=
    abs_components_le (by positivity) (normSq_turned_le (p := p) (by linarith) hd_le)
  rw [hscale_eq]
  exact ⟨hrotated.x.moderate hI hpos, hrotated.y.moderate hJ hpos, hrotated.z.moderate hK hpos⟩

end BranchingTubes
