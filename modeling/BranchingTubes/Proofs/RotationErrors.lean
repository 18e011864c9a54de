import BranchingTubes.Proofs.AngleBounds
import BranchingTubes.Proofs.RoundingGrains
import BranchingTubes.Space.Rotation
import Mathlib

/-!
# Rounding errors of rotations

Rotations are compared with exact quaternions, and vectors with the imaginary parts of exact
quaternions.  A product of rotations and a rotated vector are a known number of grains away from
the exact ones (`Rotation.HasQuaternion.mul`, `Rotation.HasQuaternion.rotate`).

The squared length of an exact product is the product of the squared lengths.  A rotation that is
normalised after every turn therefore keeps a squared length near one, however many turns it takes
(`Rotation.Rigid.turn_own`, `Rotation.Rigid.turn_about`), and so do the directions that it gives
(`Rotation.Rigid.exists_frame`).
-/

set_option autoImplicit false

namespace BranchingTubes

open Quaternion
open scoped Quaternion

/-! ## Exact quaternions -/

/-- A vector as a quaternion without a scalar part. -/
def Vec3.quaternion (v : Vec3) : Rotation := ⟨v.x, v.y, v.z, 0⟩

namespace Rotation

/-- A rotation is finite, and it is the given quaternion. -/
structure HasQuaternion (q : Rotation) (p : ℍ[ℝ]) : Prop where
  x : HasValue q.x p.imI
  y : HasValue q.y p.imJ
  z : HasValue q.z p.imK
  w : HasValue q.w p.re

/-- A rotation is finite and at most so many grains of a scale away from a quaternion. -/
structure NearQuaternion (scale : ℝ) (q : Rotation) (p : ℍ[ℝ]) (error : ℕ) : Prop where
  x : Near scale q.x p.imI error
  y : Near scale q.y p.imJ error
  z : Near scale q.z p.imK error
  w : Near scale q.w p.re error

end Rotation

/-- The components of a quaternion are at most its length. -/
theorem abs_components_le {p : ℍ[ℝ]} {r : ℝ} (hr : 0 ≤ r) (h : normSq p ≤ r ^ 2) :
    |p.re| ≤ r ∧ |p.imI| ≤ r ∧ |p.imJ| ≤ r ∧ |p.imK| ≤ r := by
  rw [normSq_def'] at h
  refine ⟨abs_le_of_sq_le_sq ?_ hr, abs_le_of_sq_le_sq ?_ hr, abs_le_of_sq_le_sq ?_ hr,
    abs_le_of_sq_le_sq ?_ hr⟩ <;> nlinarith [sq_nonneg p.re, sq_nonneg p.imI, sq_nonneg p.imJ,
      sq_nonneg p.imK]

/-- A component of a quaternion that is about a unit is little more than one. -/
theorem abs_components_le_unit {p : ℍ[ℝ]} (h : normSq p ≤ 9 / 8) :
    |p.re| ≤ 17 / 16 ∧ |p.imI| ≤ 17 / 16 ∧ |p.imJ| ≤ 17 / 16 ∧ |p.imK| ≤ 17 / 16 :=
  abs_components_le (by norm_num) (h.trans (by norm_num))

/-- Two terms of a scalar product are at most the product of the lengths. -/
theorem abs_mul_add_mul_le {x y z t r s : ℝ} (hr : 0 ≤ r) (hs : 0 ≤ s)
    (h : x ^ 2 + y ^ 2 ≤ r ^ 2) (h' : z ^ 2 + t ^ 2 ≤ s ^ 2) : |x * z + y * t| ≤ r * s := by
  apply abs_le_of_sq_le_sq _ (mul_nonneg hr hs)
  calc (x * z + y * t) ^ 2 = (x ^ 2 + y ^ 2) * (z ^ 2 + t ^ 2) - (x * t - y * z) ^ 2 := by ring
    _ ≤ (x ^ 2 + y ^ 2) * (z ^ 2 + t ^ 2) := sub_le_self _ (sq_nonneg _)
    _ ≤ r ^ 2 * s ^ 2 := by gcongr
    _ = (r * s) ^ 2 := (mul_pow r s 2).symm

/-- One component of a cross product is at most the product of the lengths. -/
theorem abs_cross_le {x y z t r s : ℝ} (hr : 0 ≤ r) (hs : 0 ≤ s)
    (h : x ^ 2 + y ^ 2 ≤ r ^ 2) (h' : z ^ 2 + t ^ 2 ≤ s ^ 2) : |x * z - y * t| ≤ r * s := by
  have hneg := abs_mul_add_mul_le (x := x) (y := -y) hr hs (by rwa [neg_sq]) h'
  rwa [neg_mul, ← sub_eq_add_neg] at hneg

/-- One component of a cross product, twice as often as a fourth number says, is at most the length
of one vector times the squared length of the other and the fourth number together. -/
theorem abs_cross_mul_two_le {x y z t w r n : ℝ} (hr : 0 ≤ r) (h : w ^ 2 + (x ^ 2 + y ^ 2) ≤ n)
    (h' : z ^ 2 + t ^ 2 ≤ r ^ 2) : |(x * z - y * t) * (w * 2)| ≤ n * r := by
  have hlength : 0 ≤ w ^ 2 + (x ^ 2 + y ^ 2) := by positivity
  apply abs_le_of_sq_le_sq _ (mul_nonneg (hlength.trans h) hr)
  calc ((x * z - y * t) * (w * 2)) ^ 2
      = ((x ^ 2 + y ^ 2) * (z ^ 2 + t ^ 2) - (x * t + y * z) ^ 2) * (4 * w ^ 2) := by ring
    _ ≤ (x ^ 2 + y ^ 2) * (z ^ 2 + t ^ 2) * (4 * w ^ 2) := by
        gcongr
        exact sub_le_self _ (sq_nonneg _)
    _ = 4 * w ^ 2 * (x ^ 2 + y ^ 2) * (z ^ 2 + t ^ 2) := by ring
    _ ≤ (w ^ 2 + (x ^ 2 + y ^ 2)) ^ 2 * r ^ 2 := by
        gcongr
        exact four_mul_le_sq_add _ _
    _ ≤ n ^ 2 * r ^ 2 := by gcongr
    _ = (n * r) ^ 2 := (mul_pow n r 2).symm

/-- Nearly exact factors that are little more than one have a nearly exact product. -/
theorem abs_mul_sub_mul_le {v w x y e : ℝ} (hx : |x| ≤ 17 / 16) (hy : |y| ≤ 17 / 16)
    (he : e ≤ 1 / 8) (hv : |v - x| ≤ e) (hw : |w - y| ≤ e) : |v * w - x * y| ≤ 9 / 4 * e := by
  have he_nonneg : 0 ≤ e := (abs_nonneg _).trans hv
  calc |v * w - x * y| = |(v - x) * (w - y) + x * (w - y) + y * (v - x)| := by ring_nf
    _ ≤ |v - x| * |w - y| + |x| * |w - y| + |y| * |v - x| := by
        rw [← abs_mul, ← abs_mul, ← abs_mul]
        exact abs_add_three _ _ _
    _ ≤ 1 / 8 * e + 17 / 16 * e + 17 / 16 * e := by
        gcongr
        exact hv.trans he
    _ = 9 / 4 * e := by ring

/-- The components of two vectors are at most so far apart. -/
structure VectorWithin (e : ℝ) (p' p : ℍ[ℝ]) : Prop where
  imI : |p'.imI - p.imI| ≤ e
  imJ : |p'.imJ - p.imJ| ≤ e
  imK : |p'.imK - p.imK| ≤ e

/-- The components of two quaternions are at most so far apart. -/
structure ComponentsWithin (e : ℝ) (p' p : ℍ[ℝ]) : Prop extends VectorWithin e p' p where
  re : |p'.re - p.re| ≤ e

section Within

variable {e e' : ℝ} {p p' o o' : ℍ[ℝ]}

/-- What is near is also within a greater distance. -/
theorem ComponentsWithin.mono (h : ComponentsWithin e p' p) (he : e ≤ e') :
    ComponentsWithin e' p' p :=
  ⟨⟨h.imI.trans he, h.imJ.trans he, h.imK.trans he⟩, h.re.trans he⟩

/-- A quaternion near one of about unit length has nearly its squared length. -/
theorem ComponentsWithin.abs_normSq_sub_le (h : ComponentsWithin e p' p) (hp : normSq p ≤ 9 / 8)
    (he : e ≤ 1 / 8) : |normSq p' - normSq p| ≤ 9 * e := by
  obtain ⟨hre, himI, himJ, himK⟩ := abs_components_le_unit hp
  have hre_near := abs_mul_sub_mul_le hre hre he h.re h.re
  have himI_near := abs_mul_sub_mul_le himI himI he h.imI h.imI
  have himJ_near := abs_mul_sub_mul_le himJ himJ he h.imJ h.imJ
  have himK_near := abs_mul_sub_mul_le himK himK he h.imK h.imK
  rw [normSq_def, normSq_def, re_mul, re_mul]
  simp only [re_star, imI_star, imJ_star, imK_star]
  rw [abs_le] at *
  constructor <;> linarith

/-- Vectors near perpendicular ones of about unit length are nearly perpendicular. -/
theorem VectorWithin.abs_dot_le (h : VectorWithin e p' p) (h' : VectorWithin e o' o)
    (hp : normSq p ≤ 9 / 8) (ho : normSq o ≤ 9 / 8) (he : e ≤ 1 / 8)
    (hdot : p.imI * o.imI + p.imJ * o.imJ + p.imK * o.imK = 0) :
    |p'.imI * o'.imI + p'.imJ * o'.imJ + p'.imK * o'.imK| ≤ 7 * e := by
  obtain ⟨-, hpI, hpJ, hpK⟩ := abs_components_le_unit hp
  obtain ⟨-, hoI, hoJ, hoK⟩ := abs_components_le_unit ho
  have hI := abs_mul_sub_mul_le hpI hoI he h.imI h'.imI
  have hJ := abs_mul_sub_mul_le hpJ hoJ he h.imJ h'.imJ
  have hK := abs_mul_sub_mul_le hpK hoK he h.imK h'.imK
  have he_nonneg : 0 ≤ e := (abs_nonneg _).trans h.imI
  rw [abs_le] at *
  constructor <;> linarith

end Within

namespace Rotation

variable {q a b : Rotation} {p p' o : ℍ[ℝ]} {v : Vec3} {scale : ℝ} {error : ℕ}

/-- A rotation that is near a quaternion is itself one whose components are near. -/
theorem NearQuaternion.exists_within (h : NearQuaternion scale q p error) :
    ∃ p', q.HasQuaternion p' ∧ ComponentsWithin (error * (scale / 2 ^ 21)) p' p := by
  obtain ⟨x, hx, hx_near⟩ := h.x
  obtain ⟨y, hy, hy_near⟩ := h.y
  obtain ⟨z, hz, hz_near⟩ := h.z
  obtain ⟨w, hw, hw_near⟩ := h.w
  exact ⟨⟨w, x, y, z⟩, ⟨hx, hy, hz, hw⟩, ⟨hx_near, hy_near, hz_near⟩, hw_near⟩

/-! ## Products -/

/-- A product of rotations is at most seven grains away from the exact one. -/
theorem HasQuaternion.mul (ha : a.HasQuaternion p) (hb : b.HasQuaternion p') (hp : normSq p ≤ 9 / 8)
    (hp' : normSq p' ≤ 9 / 8) : (a * b).NearQuaternion 1 (p * p') 7 := by
  obtain ⟨hre, himI, himJ, himK⟩ := abs_components_le_unit hp
  obtain ⟨hre', himI', himJ', himK'⟩ := abs_components_le_unit hp'
  have hlength : normSq (p * p') ≤ (15 / 4) ^ 2 := by
    have hnonneg : 0 ≤ normSq p' := normSq_nonneg
    calc normSq (p * p') = normSq p * normSq p' := map_mul _ _ _
      _ ≤ 9 / 8 * (9 / 8) := by gcongr
      _ ≤ (15 / 4) ^ 2 := by norm_num
  obtain ⟨hw_le, hx_le, hy_le, hz_le⟩ := abs_components_le (by norm_num) hlength
  have hproduct_le {x y : ℝ} (hx : |x| ≤ 17 / 16) (hy : |y| ≤ 17 / 16) : |x * y| ≤ 15 / 8 := by
    calc |x * y| = |x| * |y| := abs_mul x y
      _ ≤ 17 / 16 * (17 / 16) := by gcongr
      _ ≤ 15 / 8 := by norm_num
  have hproduct {c d : Float32} {x y : ℝ} (hc : HasValue c x) (hd : HasValue d y)
      (hx : |x| ≤ 17 / 16) (hy : |y| ≤ 17 / 16) : Near 1 (c * d) (x * y) 1 ∧ |x * y| ≤ 15 / 8 :=
    ⟨(hc.mul hd).near_exact isScale_one ((hproduct_le hx hy).trans (by norm_num)),
      hproduct_le hx hy⟩
  have hadd {c d : Float32} {x y : ℝ} (hc : Near 1 c x 1 ∧ |x| ≤ 15 / 8)
      (hd : Near 1 d y 1 ∧ |y| ≤ 15 / 8) : Near 1 (c + d) (x + y) 3 :=
    hc.1.add isScale_one hd.1 ((abs_add_le x y).trans (by linarith [hc.2, hd.2])) (by norm_num)
  have hsub {c d : Float32} {x y : ℝ} (hc : Near 1 c x 1 ∧ |x| ≤ 15 / 8)
      (hd : Near 1 d y 1 ∧ |y| ≤ 15 / 8) : Near 1 (c - d) (x - y) 3 :=
    hc.1.sub isScale_one hd.1 ((abs_sub x y).trans (by linarith [hc.2, hd.2])) (by norm_num)
  have htotal {c d : Float32} {x y z : ℝ} (hz : z = x + y) (hc : Near 1 c x 3) (hd : Near 1 d y 3)
      (hsize : |z| ≤ 15 / 4) : Near 1 (c + d) z 7 :=
    hz ▸ hc.add isScale_one hd (by rwa [mul_one, ← hz]) (by norm_num)
  have hx : (p * p').imI =
      (p.re * p'.imI + p.imI * p'.re) + (p.imJ * p'.imK - p.imK * p'.imJ) := by
    rw [imI_mul]
    ring
  have hy : (p * p').imJ =
      (p.re * p'.imJ - p.imI * p'.imK) + (p.imJ * p'.re + p.imK * p'.imI) := by
    rw [imJ_mul]
    ring
  have hz : (p * p').imK =
      (p.re * p'.imK + p.imI * p'.imJ) + (p.imK * p'.re - p.imJ * p'.imI) := by
    rw [imK_mul]
    ring
  have hw : (p * p').re =
      (p.re * p'.re - p.imI * p'.imI) + (-(p.imJ * p'.imJ) - p.imK * p'.imK) := by
    rw [re_mul]
    ring
  constructor
  · exact htotal hx (hadd (hproduct ha.w hb.x hre himI') (hproduct ha.x hb.w himI hre'))
      (hsub (hproduct ha.y hb.z himJ himK') (hproduct ha.z hb.y himK himJ')) hx_le
  · exact htotal hy (hsub (hproduct ha.w hb.y hre himJ') (hproduct ha.x hb.z himI himK'))
      (hadd (hproduct ha.y hb.w himJ hre') (hproduct ha.z hb.x himK himI')) hy_le
  · exact htotal hz (hadd (hproduct ha.w hb.z hre himK') (hproduct ha.x hb.y himI himJ'))
      (hsub (hproduct ha.z hb.w himK hre') (hproduct ha.y hb.x himJ himI')) hz_le
  · have hjj := hproduct ha.y hb.y himJ himJ'
    exact htotal hw (hsub (hproduct ha.w hb.w hre hre') (hproduct ha.x hb.x himI himI'))
      (hsub ⟨hjj.1.neg, by rw [abs_neg]; exact hjj.2⟩ (hproduct ha.z hb.z himK himK')) hw_le

/-! ## Rotated vectors -/

/-- Squaring costs one grain. -/
theorem near_square {c : Float32} {x : ℝ} (hc : HasValue c x) (hx : x * x ≤ 15 / 4) :
    Near 1 (c * c) (x * x) 1 :=
  (hc.mul hc).near_exact isScale_one (by rwa [abs_mul_self, mul_one])

/-- What the part of a vector that stays is multiplied by. -/
theorem HasQuaternion.near_stay (hq : q.HasQuaternion p) (hp : normSq p ≤ 9 / 8) :
    Near 1 (q.w * q.w - q.axis.dot q.axis)
        (p.re * p.re - (p.imI * p.imI + p.imJ * p.imJ + p.imK * p.imK)) 7 ∧
      |p.re * p.re - (p.imI * p.imI + p.imJ * p.imJ + p.imK * p.imK)| ≤ 9 / 8 := by
  have hsum : p.re * p.re + p.imI * p.imI + p.imJ * p.imJ + p.imK * p.imK ≤ 9 / 8 := by
    rw [normSq_def'] at hp
    linarith
  have hre := mul_self_nonneg p.re
  have himI := mul_self_nonneg p.imI
  have himJ := mul_self_nonneg p.imJ
  have himK := mul_self_nonneg p.imK
  have hsize {x : ℝ} (hx_nonneg : 0 ≤ x) (hx : x ≤ 9 / 8) : |x| ≤ 15 / 4 * 1 := by
    rw [abs_of_nonneg hx_nonneg]
    linarith
  have hlength : Near 1 (q.axis.dot q.axis) (p.imI * p.imI + p.imJ * p.imJ + p.imK * p.imK) 5 :=
    ((near_square hq.x (by linarith)).add isScale_one (near_square hq.y (by linarith))
      (hsize (by linarith) (by linarith)) (by norm_num)).add isScale_one
      (near_square hq.z (by linarith)) (hsize (by linarith) (by linarith)) (by norm_num)
  have hdifference : |p.re * p.re - (p.imI * p.imI + p.imJ * p.imJ + p.imK * p.imK)| ≤ 9 / 8 := by
    rw [abs_le]
    constructor <;> linarith
  exact ⟨(near_square hq.w (by linarith)).sub isScale_one hlength (hdifference.trans (by norm_num))
    (by norm_num), hdifference⟩

/-- What the axis is multiplied by, twice the part of the vector along it. -/
theorem HasQuaternion.near_along {r d : ℝ} (hq : q.HasQuaternion p) (hp : normSq p ≤ 9 / 8)
    (hscale : IsScale scale) (hv : v.quaternion.HasQuaternion o) (hr : 0 ≤ r) (hr_le : r ≤ 17 / 8)
    (ho : normSq o ≤ (r * scale) ^ 2)
    (hdot : |o.imI * p.imI + o.imJ * p.imJ + o.imK * p.imK| ≤ d * scale) (hd : d ≤ 15 / 8) :
    Near scale (v.dot q.axis * 2) ((o.imI * p.imI + o.imJ * p.imJ + o.imK * p.imK) * 2) 12 := by
  have hpos : 0 ≤ scale := zero_le_one.trans hscale.one_le
  have hlength : 0 ≤ r * scale := mul_nonneg hr hpos
  have hsize : r * scale * (17 / 16) ≤ 15 / 4 * scale := by nlinarith
  obtain ⟨-, himI, himJ, himK⟩ := abs_components_le_unit hp
  obtain ⟨-, hoI, hoJ, hoK⟩ := abs_components_le hlength ho
  have hproduct {c d : Float32} {x y : ℝ} (hc : HasValue c x) (hd : HasValue d y)
      (hx : |x| ≤ r * scale) (hy : |y| ≤ 17 / 16) : Near scale (c * d) (x * y) 1 := by
    refine (hc.mul hd).near_exact hscale (le_trans ?_ hsize)
    rw [abs_mul]
    gcongr
  have hfirst_le : |o.imI * p.imI + o.imJ * p.imJ| ≤ 15 / 4 * scale := by
    refine (abs_mul_add_mul_le hlength (by norm_num) ?_ ?_).trans hsize
    · rw [normSq_def'] at ho
      nlinarith
    · rw [normSq_def'] at hp
      nlinarith
  have htotal_le : |o.imI * p.imI + o.imJ * p.imJ + o.imK * p.imK| ≤ 15 / 4 * scale :=
    hdot.trans (by nlinarith)
  have hsum : Near scale (v.dot q.axis) (o.imI * p.imI + o.imJ * p.imJ + o.imK * p.imK) 5 :=
    ((hproduct hv.x hq.x hoI himI).add hscale (hproduct hv.y hq.y hoJ himJ) hfirst_le
      (by norm_num)).add hscale (hproduct hv.z hq.z hoK himK) htotal_le (by norm_num)
  refine hsum.mul 11 hscale hasValue_two.near hdot (abs_two.le) ?_ (by norm_num) (by norm_num)
    (by norm_num)
  rw [abs_mul, abs_two]
  nlinarith

/-- The part of a component that stays, and the part along the axis. -/
theorem near_straight {c e stays along : Float32} {x y stay a r d : ℝ} (hscale : IsScale scale)
    (hr_le : r ≤ 17 / 8) (hc : HasValue c x) (hx : |x| ≤ r * scale) (he : HasValue e y)
    (hy : |y| ≤ 17 / 16) (hstay : Near 1 stays stay 7) (hstay_le : |stay| ≤ 9 / 8)
    (halong : Near scale along a 12) (ha : |a| ≤ 2 * d * scale)
    (hlong : 9 / 8 * r + 17 / 8 * d ≤ 15 / 4) :
    Near scale (c * stays + e * along) (x * stay + y * a) 33 := by
  have hpos : 0 ≤ scale := zero_le_one.trans hscale.one_le
  have hstay_size : |x * stay| ≤ 9 / 8 * r * scale := by
    calc |x * stay| = |x| * |stay| := abs_mul x stay
      _ ≤ r * scale * (9 / 8) :=
          mul_le_mul hx hstay_le (abs_nonneg _) ((abs_nonneg x).trans hx)
      _ = 9 / 8 * r * scale := by ring
  have haxis_size : |y * a| ≤ 17 / 8 * d * scale := by
    calc |y * a| = |y| * |a| := abs_mul y a
      _ ≤ 17 / 16 * (2 * d * scale) := mul_le_mul hy ha (abs_nonneg a) (by norm_num)
      _ = 17 / 8 * d * scale := by ring
  have hsum_size : 9 / 8 * r * scale + 17 / 8 * d * scale ≤ 15 / 4 * scale := by
    rw [← add_mul]
    gcongr
  have hstay_nonneg := (abs_nonneg _).trans hstay_size
  have haxis_nonneg := (abs_nonneg _).trans haxis_size
  have hstayed : Near scale (c * stays) (x * stay) 17 :=
    hc.near.mul 16 hscale hstay hx hstay_le (by linarith) (by norm_num)
      (by push_cast; linarith) (by norm_num)
  have haxis : Near scale (e * along) (y * a) 15 :=
    Near.unit_mul 14 hscale he.near halong hy ha (by linarith) (by norm_num) (by norm_num)
      (by norm_num)
  exact hstayed.add hscale haxis ((abs_add_le _ _).trans (by linarith)) (by norm_num)

/-- The part of a component across the axis and the vector. -/
theorem near_cross {e f g h w : Float32} {x y z t u r : ℝ} (hscale : IsScale scale) (hr : 0 ≤ r)
    (hr_le : r ≤ 17 / 8) (he : HasValue e x) (hf : HasValue f z) (hg : HasValue g y)
    (hh : HasValue h t) (hw : HasValue w u) (haxis : u ^ 2 + (x ^ 2 + y ^ 2) ≤ 9 / 8)
    (hvector : z ^ 2 + t ^ 2 ≤ (r * scale) ^ 2) :
    Near scale ((e * f - g * h) * (w * 2)) ((x * z - y * t) * (u * 2)) 11 := by
  have hpos : 0 ≤ scale := zero_le_one.trans hscale.one_le
  have hlength : 0 ≤ r * scale := mul_nonneg hr hpos
  have hsize : 17 / 16 * (r * scale) ≤ 15 / 4 * scale := by nlinarith
  have hx : x ^ 2 ≤ (17 / 16) ^ 2 := by nlinarith
  have hy : y ^ 2 ≤ (17 / 16) ^ 2 := by nlinarith
  have hxy : x ^ 2 + y ^ 2 ≤ (17 / 16) ^ 2 := by nlinarith
  have hz : z ^ 2 ≤ (r * scale) ^ 2 := by nlinarith
  have ht : t ^ 2 ≤ (r * scale) ^ 2 := by nlinarith
  have hproduct {c d : Float32} {k l : ℝ} (hc : HasValue c k) (hd : HasValue d l)
      (hk : k ^ 2 ≤ (17 / 16) ^ 2) (hl : l ^ 2 ≤ (r * scale) ^ 2) :
      Near scale (c * d) (k * l) 1 := by
    refine (hc.mul hd).near_exact hscale (le_trans ?_ hsize)
    rw [abs_mul]
    gcongr
    · exact abs_le_of_sq_le_sq hk (by norm_num)
    · exact abs_le_of_sq_le_sq hl hlength
  have hcross_le : |x * z - y * t| ≤ 17 / 16 * (r * scale) :=
    abs_cross_le (by norm_num) hlength hxy hvector
  have hcross : Near scale (e * f - g * h) (x * z - y * t) 3 :=
    (hproduct he hf hx hz).sub hscale (hproduct hg hh hy ht) (hcross_le.trans hsize) (by norm_num)
  have htwice_le : |u * 2| ≤ 17 / 8 := by
    have hu : |u| ≤ 17 / 16 := abs_le_of_sq_le_sq (by nlinarith) (by norm_num)
    rw [abs_mul, abs_two]
    linarith
  have htwice : Near 1 (w * 2) (u * 2) 1 :=
    (hw.mul hasValue_two).near_exact isScale_one (htwice_le.trans (by norm_num))
  refine hcross.mul 10 hscale htwice (hcross_le.trans_eq (mul_assoc _ _ _).symm) htwice_le ?_
    (by norm_num) (by norm_num; linarith) (by norm_num)
  calc |(x * z - y * t) * (u * 2)| ≤ 9 / 8 * (r * scale) :=
        abs_cross_mul_two_le hlength haxis hvector
    _ ≤ 15 / 4 * scale := by nlinarith

/-- The squared length of an exactly rotated vector. -/
theorem normSq_rotated (p o : ℍ[ℝ]) : normSq (p * o * star p) = normSq p ^ 2 * normSq o := by
  rw [map_mul, map_mul, normSq_star]
  ring

/-- The components of an exactly rotated vector, each as the sum that is computed. -/
theorem rotated_eq (p : ℍ[ℝ]) (hpure : o.re = 0) :
    p * o * star p =
      ⟨0,
        (o.imI * (p.re * p.re - (p.imI * p.imI + p.imJ * p.imJ + p.imK * p.imK)) +
          p.imI * ((o.imI * p.imI + o.imJ * p.imJ + o.imK * p.imK) * 2)) +
          (p.imJ * o.imK - p.imK * o.imJ) * (p.re * 2),
        (o.imJ * (p.re * p.re - (p.imI * p.imI + p.imJ * p.imJ + p.imK * p.imK)) +
          p.imJ * ((o.imI * p.imI + o.imJ * p.imJ + o.imK * p.imK) * 2)) +
          (p.imK * o.imI - p.imI * o.imK) * (p.re * 2),
        (o.imK * (p.re * p.re - (p.imI * p.imI + p.imJ * p.imJ + p.imK * p.imK)) +
          p.imK * ((o.imI * p.imI + o.imJ * p.imJ + o.imK * p.imK) * 2)) +
          (p.imI * o.imJ - p.imJ * o.imI) * (p.re * 2)⟩ := by
  ext <;> simp [hpure] <;> ring

/-- A rotated vector is at most 45 grains away from the exact one, as long as the vector is not too
long and not both long and along the axis. -/
theorem HasQuaternion.rotate {r d : ℝ} (hq : q.HasQuaternion p) (hp : normSq p ≤ 9 / 8)
    (hscale : IsScale scale) (hv : v.quaternion.HasQuaternion o) (hr : 0 ≤ r) (hr_le : r ≤ 17 / 8)
    (ho : normSq o ≤ (r * scale) ^ 2)
    (hdot : |o.imI * p.imI + o.imJ * p.imJ + o.imK * p.imK| ≤ d * scale)
    (hlong : 9 / 8 * r + 17 / 8 * d ≤ 15 / 4) :
    (q.rotate v).quaternion.NearQuaternion scale (p * o * star p) 45 := by
  have hpos : 0 ≤ scale := zero_le_one.trans hscale.one_le
  have hlength : 0 ≤ r * scale := mul_nonneg hr hpos
  have hpure : o.re = 0 := hv.w.unique hasValue_zero
  obtain ⟨-, himI, himJ, himK⟩ := abs_components_le_unit hp
  obtain ⟨-, hoI, hoJ, hoK⟩ := abs_components_le hlength ho
  obtain ⟨hstay, hstay_le⟩ := hq.near_stay hp
  have halong := hq.near_along hp hscale hv hr hr_le ho hdot (by linarith)
  have halong_le : |(o.imI * p.imI + o.imJ * p.imJ + o.imK * p.imK) * 2| ≤ 2 * d * scale := by
    rw [abs_mul, abs_two]
    linarith
  -- All parts together are as long as the vector but for the length of the rotation.
  have hrotated : normSq (p * o * star p) ≤ (15 / 4 * scale) ^ 2 := by
    have hp_nonneg : 0 ≤ normSq p := normSq_nonneg
    have ho_nonneg : 0 ≤ normSq o := normSq_nonneg
    have hr_scale : r * scale ≤ 17 / 8 * scale := by gcongr
    calc normSq (p * o * star p) = normSq p ^ 2 * normSq o := normSq_rotated p o
      _ ≤ (9 / 8) ^ 2 * (17 / 8 * scale) ^ 2 := by
          gcongr
          exact ho.trans (by gcongr)
      _ = (153 / 64 * scale) ^ 2 := by ring
      _ ≤ (15 / 4 * scale) ^ 2 := pow_le_pow_left₀ (by positivity) (by linarith) 2
  have hsizes := abs_components_le (by positivity) hrotated
  rw [rotated_eq p hpure] at hsizes ⊢
  obtain ⟨-, hx_le, hy_le, hz_le⟩ := hsizes
  rw [normSq_def', hpure] at ho
  rw [normSq_def'] at hp
  have hpI := sq_nonneg p.imI
  have hpJ := sq_nonneg p.imJ
  have hpK := sq_nonneg p.imK
  have hoI_sq := sq_nonneg o.imI
  have hoJ_sq := sq_nonneg o.imJ
  have hoK_sq := sq_nonneg o.imK
  constructor
  · exact (near_straight hscale hr_le hv.x hoI hq.x himI hstay hstay_le halong halong_le hlong).add
      hscale (near_cross hscale hr hr_le hq.y hv.z hq.z hv.y hq.w (by linarith) (by linarith))
      hx_le (by norm_num)
  · exact (near_straight hscale hr_le hv.y hoJ hq.y himJ hstay hstay_le halong halong_le hlong).add
      hscale (near_cross hscale hr hr_le hq.z hv.x hq.x hv.z hq.w (by linarith) (by linarith))
      hy_le (by norm_num)
  · exact (near_straight hscale hr_le hv.z hoK hq.z himK hstay hstay_le halong halong_le hlong).add
      hscale (near_cross hscale hr hr_le hq.x hv.y hq.y hv.x hq.w (by linarith) (by linarith))
      hz_le (by norm_num)
  · exact hasValue_zero.near.mono hscale (by norm_num)

/-! ## Normalisation -/

/-- The squared length of a rotation is at most seven grains away from the exact one. -/
theorem HasQuaternion.lengthSquared (hq : q.HasQuaternion p) (hp : normSq p ≤ 5 / 4) :
    Near 1 q.lengthSquared (normSq p) 7 := by
  have hexact : normSq p =
      (p.imI * p.imI + p.imK * p.imK) + (p.imJ * p.imJ + p.re * p.re) := by
    rw [normSq_def']
    ring
  rw [hexact] at hp ⊢
  have hre := mul_self_nonneg p.re
  have himI := mul_self_nonneg p.imI
  have himJ := mul_self_nonneg p.imJ
  have himK := mul_self_nonneg p.imK
  have hsize {x : ℝ} (hx_nonneg : 0 ≤ x) (hx : x ≤ 5 / 4) : |x| ≤ 15 / 4 * 1 := by
    rw [abs_of_nonneg hx_nonneg]
    linarith
  have hsum {c d : Float32} {x y : ℝ} (hc : HasValue c x) (hd : HasValue d y)
      (hxy : x * x + y * y ≤ 5 / 4) : Near 1 (c * c + d * d) (x * x + y * y) 3 := by
    have hx := mul_self_nonneg x
    have hy := mul_self_nonneg y
    exact (near_square hc (by linarith)).add isScale_one (near_square hd (by linarith))
      (hsize (add_nonneg hx hy) hxy) (by norm_num)
  exact (hsum hq.x hq.z (by linarith)).add isScale_one (hsum hq.y hq.w (by linarith))
    (hsize (by positivity) hp) (by norm_num)

/-- The length that a rotation is divided by. -/
theorem HasQuaternion.length (hq : q.HasQuaternion p) (hlow : 4 / 5 ≤ normSq p)
    (hhigh : normSq p ≤ 6 / 5) :
    ∃ l, HasValue q.lengthSquared.sqrt l ∧ 0 < l ∧ 3 / 4 ≤ l ^ 2 ∧
      |l ^ 2 - normSq p| ≤ 10 / 2 ^ 21 := by
  obtain ⟨squared, hsquared, hsquared_near⟩ := hq.lengthSquared (hhigh.trans (by norm_num))
  norm_num at hsquared_near
  obtain ⟨hbelow, habove⟩ := abs_le.mp hsquared_near
  have hnonneg : 0 ≤ squared := by linarith
  have hroot_le : √squared ≤ 5 / 4 := by
    rw [Real.sqrt_le_left (by norm_num)]
    linarith
  have hroot_ge : 4 / 5 ≤ √squared := by
    apply Real.le_sqrt_of_sq_le
    linarith
  obtain ⟨l, hl, hl_near⟩ := (hsquared.sqrt hnonneg).near_exact isScale_one (by
    rw [abs_of_nonneg (Real.sqrt_nonneg squared)]
    linarith)
  norm_num at hl_near
  obtain ⟨hl_below, hl_above⟩ := abs_le.mp hl_near
  have hsq : |l ^ 2 - squared| ≤ 3 / 2 ^ 21 := by
    calc |l ^ 2 - squared| = |l ^ 2 - √squared ^ 2| := by rw [Real.sq_sqrt hnonneg]
      _ = |l + √squared| * |l - √squared| := by rw [sq_sub_sq, abs_mul]
      _ ≤ 3 * (1 / 2 ^ 21) := by
          gcongr
          · rw [abs_le]
            constructor <;> linarith
          · norm_num
            exact hl_near
      _ = 3 / 2 ^ 21 := by norm_num
  have hlength : |l ^ 2 - normSq p| ≤ 10 / 2 ^ 21 := by
    calc |l ^ 2 - normSq p| ≤ |l ^ 2 - squared| + |squared - normSq p| := abs_sub_le _ _ _
      _ ≤ 3 / 2 ^ 21 + 7 / 2 ^ 21 := by
          gcongr
          norm_num
          exact hsquared_near
      _ = 10 / 2 ^ 21 := by norm_num
  refine ⟨l, hl, by linarith, ?_, hlength⟩
  have := (abs_le.mp hlength).1
  linarith

/-- Normalising a rotation that is neither too short nor too long makes its squared length nearly
one. -/
theorem HasQuaternion.normalize (hq : q.HasQuaternion p) (hlow : 4 / 5 ≤ normSq p)
    (hhigh : normSq p ≤ 6 / 5) :
    ∃ p', q.normalize.HasQuaternion p' ∧ |normSq p' - 1| ≤ 1 / 65536 := by
  obtain ⟨l, hl, hpos, hsq_ge, hl_near⟩ := hq.length hlow hhigh
  have hratio : |normSq (l⁻¹ • p) - 1| ≤ 14 / 2 ^ 21 := by
    have hquotient : normSq (l⁻¹ • p) - 1 = (normSq p - l ^ 2) / l ^ 2 := by
      rw [normSq_smul]
      field_simp
    rw [hquotient, abs_div, abs_of_pos (by positivity : 0 < l ^ 2), abs_sub_comm,
      div_le_iff₀ (by positivity)]
    calc |l ^ 2 - normSq p| ≤ 10 / 2 ^ 21 := hl_near
      _ ≤ 14 / 2 ^ 21 * (3 / 4) := by norm_num
      _ ≤ 14 / 2 ^ 21 * l ^ 2 := by gcongr
  have hlength : normSq (l⁻¹ • p) ≤ 9 / 8 := by
    have := (abs_le.mp hratio).2
    linarith
  obtain ⟨hre, himI, himJ, himK⟩ := abs_components_le_unit hlength
  have hquotient {c : Float32} {x : ℝ} (hc : HasValue c x) (hx : |l⁻¹ * x| ≤ 17 / 16) :
      Near 1 (c / q.lengthSquared.sqrt) (l⁻¹ * x) 1 := by
    have hdiv := hc.div hl hpos.ne'
    rw [div_eq_inv_mul] at hdiv
    exact hdiv.near_exact isScale_one (hx.trans (by norm_num))
  have hnear : q.normalize.NearQuaternion 1 (l⁻¹ • p) 1 :=
    ⟨hquotient hq.x himI, hquotient hq.y himJ, hquotient hq.z himK, hquotient hq.w hre⟩
  obtain ⟨p', hp', hp'_near⟩ := hnear.exists_within
  refine ⟨p', hp', ?_⟩
  calc |normSq p' - 1| ≤ |normSq p' - normSq (l⁻¹ • p)| + |normSq (l⁻¹ • p) - 1| :=
        abs_sub_le _ _ _
    _ ≤ 9 * ((1 : ℕ) * (1 / 2 ^ 21)) + 14 / 2 ^ 21 :=
        add_le_add (hp'_near.abs_normSq_sub_le hlength (by norm_num)) hratio
    _ ≤ 1 / 65536 := by norm_num

end Rotation

/-! ## Turns -/

/-- A rotation of squared length one but for rounding errors. -/
def Rotation.Rigid (q : Rotation) : Prop := ∃ p, q.HasQuaternion p ∧ |normSq p - 1| ≤ 1 / 65536

/-- A vector of squared length one but for rounding errors. -/
def Vec3.Direction (v : Vec3) : Prop :=
  ∃ o, v.quaternion.HasQuaternion o ∧ |normSq o - 1| ≤ 1 / 4096

/-- Three numbers are a vector. -/
theorem Vec3.exists_of_exact {v : Vec3} {x y z : ℝ} (hx : HasValue v.x x) (hy : HasValue v.y y)
    (hz : HasValue v.z z) :
    ∃ o : ℍ[ℝ], v.quaternion.HasQuaternion o ∧ o.re = 0 ∧ o.imI = x ∧ o.imJ = y ∧ o.imK = z :=
  ⟨⟨0, x, y, z⟩, ⟨hx, hy, hz, hasValue_zero⟩, rfl, rfl, rfl, rfl⟩

/-- The first axis is a direction. -/
theorem Vec3.direction_unitX : Vec3.unitX.Direction := by
  obtain ⟨o, ho, hre, himI, himJ, himK⟩ :=
    Vec3.exists_of_exact (v := .unitX) hasValue_one hasValue_zero hasValue_zero
  refine ⟨o, ho, ?_⟩
  rw [normSq_def', hre, himI, himJ, himK]
  norm_num

namespace Rotation

variable {q a b : Rotation} {p p' o : ℍ[ℝ]} {v : Vec3} {angle : Float32}

/-- No turn is a rotation of length one. -/
theorem rigid_identity : identity.Rigid := by
  refine ⟨1, ⟨hasValue_zero, hasValue_zero, hasValue_zero, hasValue_one⟩, ?_⟩
  rw [map_one]
  norm_num

/-- A vector of length one is rotated to one of length one, but for rounding errors. -/
theorem HasQuaternion.rotate_unit (hq : q.HasQuaternion p) (hp : |normSq p - 1| ≤ 1 / 65536)
    (hv : v.quaternion.HasQuaternion o) (ho : normSq o = 1)
    (hdot : |o.imI * p.imI + o.imJ * p.imJ + o.imK * p.imK| ≤ 17 / 16) :
    ∃ o', (q.rotate v).quaternion.HasQuaternion o' ∧ |normSq o' - 1| ≤ 1 / 4096 ∧
      VectorWithin (45 / 2 ^ 21) o' (p * o * star p) ∧ normSq (p * o * star p) ≤ 9 / 8 := by
  obtain ⟨hlow, hhigh⟩ := abs_le.mp hp
  have hexact : normSq (p * o * star p) = normSq p ^ 2 := by rw [normSq_rotated, ho, mul_one]
  have hsq : |normSq (p * o * star p) - 1| ≤ 9 / 2 ^ 18 := by
    rw [hexact, abs_le]
    constructor <;> nlinarith
  have hlength : normSq (p * o * star p) ≤ 9 / 8 := by
    have := (abs_le.mp hsq).2
    linarith
  obtain ⟨o', ho', hnear⟩ := (hq.rotate (r := 1) (d := 17 / 16) (by linarith) isScale_one hv
    zero_le_one (by norm_num) (by rw [ho]; norm_num) (by rwa [mul_one])
    (by norm_num)).exists_within
  have hnear' : ComponentsWithin (45 / 2 ^ 21) o' (p * o * star p) := hnear.mono (by norm_num)
  refine ⟨o', ho', ?_, hnear'.toVectorWithin, hlength⟩
  calc |normSq o' - 1| ≤ |normSq o' - normSq (p * o * star p)| + |normSq (p * o * star p) - 1| :=
        abs_sub_le _ _ _
    _ ≤ 9 * (45 / 2 ^ 21) + 9 / 2 ^ 18 :=
        add_le_add (hnear'.abs_normSq_sub_le hlength (by norm_num)) hsq
    _ ≤ 1 / 4096 := by norm_num

/-- The first and the second axis are rotated to directions that are nearly perpendicular. -/
theorem Rigid.exists_frame (hq : q.Rigid) :
    ∃ r h, (q.rotate .unitX).quaternion.HasQuaternion r ∧ |normSq r - 1| ≤ 1 / 4096 ∧
      (q.rotate .unitY).quaternion.HasQuaternion h ∧ |normSq h - 1| ≤ 1 / 4096 ∧
      |r.imI * h.imI + r.imJ * h.imJ + r.imK * h.imK| ≤ 1 / 4096 := by
  obtain ⟨p, hp, hp_near⟩ := hq
  obtain ⟨hre, himI, himJ, himK⟩ := abs_components_le_unit (p := p) (by
    have := (abs_le.mp hp_near).2
    linarith)
  obtain ⟨x, hx, hx_re, hx_imI, hx_imJ, hx_imK⟩ :=
    Vec3.exists_of_exact (v := .unitX) hasValue_one hasValue_zero hasValue_zero
  obtain ⟨y, hy, hy_re, hy_imI, hy_imJ, hy_imK⟩ :=
    Vec3.exists_of_exact (v := .unitY) hasValue_zero hasValue_one hasValue_zero
  obtain ⟨r, hr, hr_near, hr_within, hr_length⟩ := hp.rotate_unit hp_near hx
    (by rw [normSq_def', hx_re, hx_imI, hx_imJ, hx_imK]; norm_num)
    (by rw [hx_imI, hx_imJ, hx_imK]; simpa using himI)
  obtain ⟨h, hh, hh_near, hh_within, hh_length⟩ := hp.rotate_unit hp_near hy
    (by rw [normSq_def', hy_re, hy_imI, hy_imJ, hy_imK]; norm_num)
    (by rw [hy_imI, hy_imJ, hy_imK]; simpa using himJ)
  refine ⟨r, h, hr, hr_near, hh, hh_near, ?_⟩
  refine (hr_within.abs_dot_le hh_within hr_length hh_length (by norm_num) ?_).trans (by norm_num)
  rw [rotated_eq p hx_re, rotated_eq p hy_re, hx_imI, hx_imJ, hx_imK, hy_imI, hy_imJ, hy_imK]
  ring

/-- A rotation about an axis has nearly the length one, whatever the angle, and its axis is the
given one times a number of at most one. -/
theorem exists_fromAxisAngle (ho : v.quaternion.HasQuaternion o)
    (ho_near : |normSq o - 1| ≤ 1 / 4096) (hangle : angle.isFinite = true) :
    ∃ (p : ℍ[ℝ]) (s : ℝ), (fromAxisAngle v angle).HasQuaternion p ∧ |normSq p - 1| ≤ 5 / 2 ^ 14 ∧
      |s| ≤ 1 ∧ VectorWithin (1 / 2 ^ 21) p (s • o) := by
  have hhalf : (angle * 0.5).isFinite = true :=
    isFinite_mul_of_abs_le_one hangle hasValue_half (by norm_num)
  obtain ⟨s, c, hs, hc, hs_le, hc_le, hcircle⟩ := exists_sine_cosine hhalf
  obtain ⟨-, himI, himJ, himK⟩ := abs_components_le_unit (p := o) (by
    have := (abs_le.mp ho_near).2
    linarith)
  have hpure : o.re = 0 := ho.w.unique hasValue_zero
  have hproduct {d : Float32} {x : ℝ} (hd : HasValue d x) (hx : |x| ≤ 17 / 16) :
      Near 1 (d * sine (angle * 0.5)) (x * s) 1 := by
    refine (hd.mul hs).near_exact isScale_one ?_
    rw [abs_mul]
    nlinarith [abs_nonneg x, abs_nonneg s]
  obtain ⟨p, hp_re, hp_imI, hp_imJ, hp_imK⟩ : ∃ p : ℍ[ℝ], p.re = c ∧ p.imI = o.imI * s ∧
      p.imJ = o.imJ * s ∧ p.imK = o.imK * s := ⟨⟨c, _, _, _⟩, rfl, rfl, rfl, rfl⟩
  have hvector : p.imI = (s • o).imI ∧ p.imJ = (s • o).imJ ∧ p.imK = (s • o).imK := by
    simp [hp_imI, hp_imJ, hp_imK, mul_comm]
  have hnear : (fromAxisAngle v angle).NearQuaternion 1 p 1 := by
    refine ⟨?_, ?_, ?_, hp_re ▸ hc.near.mono isScale_one (by norm_num)⟩
    · exact hp_imI ▸ hproduct ho.x himI
    · exact hp_imJ ▸ hproduct ho.y himJ
    · exact hp_imK ▸ hproduct ho.z himK
  have hexact : |normSq p - 1| ≤ 1 / 65536 + 1 / 4096 := by
    have hs_sq : s ^ 2 ≤ 1 := (sq_le_one_iff_abs_le_one s).mpr hs_le
    calc |normSq p - 1| = |(s ^ 2 + c ^ 2 - 1) + s ^ 2 * (normSq o - 1)| := by
          rw [normSq_def', normSq_def', hpure, hp_re, hp_imI, hp_imJ, hp_imK]
          ring_nf
      _ ≤ |s ^ 2 + c ^ 2 - 1| + s ^ 2 * |normSq o - 1| := by
          refine (abs_add_le _ _).trans_eq ?_
          rw [abs_mul, abs_of_nonneg (sq_nonneg s)]
      _ ≤ 1 / 65536 + 1 * (1 / 4096) := by gcongr
      _ = 1 / 65536 + 1 / 4096 := by norm_num
  obtain ⟨p', hp', hp'_within⟩ := hnear.exists_within
  have hclose : ComponentsWithin (1 / 2 ^ 21) p' p := hp'_within.mono (by norm_num)
  obtain ⟨hI, hJ, hK⟩ := hclose.toVectorWithin
  refine ⟨p', s, hp', ?_, hs_le, hvector.1 ▸ hI, hvector.2.1 ▸ hJ, hvector.2.2 ▸ hK⟩
  have hlength : normSq p ≤ 9 / 8 := by
    have := (abs_le.mp hexact).2
    linarith
  calc |normSq p' - 1| ≤ |normSq p' - normSq p| + |normSq p - 1| := abs_sub_le _ _ _
    _ ≤ 9 * ((1 : ℕ) * (1 / 2 ^ 21)) + (1 / 65536 + 1 / 4096) :=
        add_le_add (hp'_within.abs_normSq_sub_le hlength (by norm_num)) hexact
    _ ≤ 5 / 2 ^ 14 := by norm_num

/-- The product of two rotations of about unit length is normalised to a rotation of length one. -/
theorem HasQuaternion.normalize_mul (ha : a.HasQuaternion p) (hb : b.HasQuaternion p')
    (hp : |normSq p - 1| ≤ 1 / 2 ^ 11) (hp' : |normSq p' - 1| ≤ 1 / 2 ^ 11) :
    (a * b).normalize.Rigid := by
  obtain ⟨hp_low, hp_high⟩ := abs_le.mp hp
  obtain ⟨hp'_low, hp'_high⟩ := abs_le.mp hp'
  have hproduct_low : 9 / 10 ≤ normSq (p * p') := by
    rw [map_mul]
    nlinarith
  have hproduct_high : normSq (p * p') ≤ 9 / 8 := by
    rw [map_mul]
    nlinarith
  obtain ⟨r, hr, hr_within⟩ := (ha.mul hb (by linarith) (by linarith)).exists_within
  have hr_near : |normSq r - normSq (p * p')| ≤ 1 / 16 :=
    (hr_within.abs_normSq_sub_le hproduct_high (by norm_num)).trans (by norm_num)
  obtain ⟨hlow, hhigh⟩ := abs_le.mp hr_near
  exact hr.normalize (by linarith) (by linarith)

/-- A rotation keeps its length in a turn around an axis of its own. -/
theorem Rigid.turn_own (hq : q.Rigid) (hv : v.Direction) (hangle : angle.isFinite = true) :
    (q * fromAxisAngle v angle).normalize.Rigid := by
  obtain ⟨p, hp, hp_near⟩ := hq
  obtain ⟨o, ho, ho_near⟩ := hv
  obtain ⟨r, -, hr, hr_near, -⟩ := exists_fromAxisAngle ho ho_near hangle
  exact hp.normalize_mul hr (hp_near.trans (by norm_num)) (hr_near.trans (by norm_num))

/-- A rotation keeps its length in a turn around an outer axis. -/
theorem Rigid.turn_about (hq : q.Rigid) (hv : v.Direction) (hangle : angle.isFinite = true) :
    (fromAxisAngle v angle * q).normalize.Rigid := by
  obtain ⟨p, hp, hp_near⟩ := hq
  obtain ⟨o, ho, ho_near⟩ := hv
  obtain ⟨r, -, hr, hr_near, -⟩ := exists_fromAxisAngle ho ho_near hangle
  exact hr.normalize_mul hp (hr_near.trans (by norm_num)) (hp_near.trans (by norm_num))

end Rotation

end BranchingTubes
