import BranchingTubes.Proofs.DecayedPen
import BranchingTubes.Proofs.RingOffsets
import Mathlib

/-!
# The reach of a turtle

A single-precision number can stand for how far another one is from zero, unless it is itself not
finite (`BoundedBy`).  Such bounds are kept by rounding: a sum is bounded by the sum of the bounds,
and a product by their product (`BoundedBy.add`, `BoundedBy.mul`).  The reach of a turtle is a bound
for its coordinates.  It grows by `stretch` times the length of each segment, `stretch` being a
little more than one because a direction may be longer than one by rounding errors
(`Turtle.Steady.advance`).  A ring around the turtle is finite if the reach is still finite after
adding the radius (`Turtle.Steady.ring`).
-/

set_option autoImplicit false

namespace BranchingTubes

open Quaternion
open scoped Quaternion

/-! ## Bounds -/

/-- What a single has for a value is representable without its sign too. -/
theorem HasValue.representable_abs {a : Float32} {x : ℝ} (h : HasValue a x) :
    Representable |x| := by
  rcases abs_choice x with habs | habs <;> rw [habs]
  · exact h.representable
  · exact h.representable.neg

/-- A number is at most a bound from zero, unless the bound is not finite. -/
def BoundedBy (bound a : Float32) : Prop := ∀ y, HasValue bound y → ∃ x, HasValue a x ∧ |x| ≤ y

namespace BoundedBy

variable {a b c d : Float32}

/-- A number with a finite bound is finite. -/
theorem isFinite (h : BoundedBy b a) (hb : b.isFinite = true) : a.isFinite = true := by
  obtain ⟨y, hy⟩ := exists_hasValue hb
  obtain ⟨x, hx, -⟩ := h y hy
  exact hx.isFinite

/-- A number that is not negative bounds itself. -/
theorem self {x : ℝ} (ha : HasValue a x) (hx : 0 ≤ x) : BoundedBy a a := by
  intro y hy
  exact ⟨x, ha, by rw [abs_of_nonneg hx, ha.unique hy]⟩

/-- A sum is bounded by the sum of the bounds. -/
theorem add (h : BoundedBy b a) (h' : BoundedBy d c) : BoundedBy (b + d) (a + c) := by
  intro y hy
  obtain ⟨hb, hd⟩ := isFinite_of_isFinite_add hy.isFinite
  obtain ⟨z, hz⟩ := exists_hasValue hb
  obtain ⟨w, hw⟩ := exists_hasValue hd
  obtain ⟨x, hx, hx_le⟩ := h z hz
  obtain ⟨t, ht, ht_le⟩ := h' w hw
  obtain rfl := ((hz.add hw).hasValue_of_isFinite hy.isFinite).unique hy
  have hle : |nearestSingle (x + t)| ≤ nearestSingle (z + w) := by
    rw [abs_nearestSingle]
    exact nearestSingle_mono ((abs_add_le x t).trans (add_le_add hx_le ht_le))
  exact ⟨_, (hx.add ht).hasValue (hle.trans_lt (lt_of_abs_lt hy.abs_lt)), hle⟩

/-- A product is bounded by the product of the bounds. -/
theorem mul (h : BoundedBy b a) (h' : BoundedBy d c) : BoundedBy (b * d) (a * c) := by
  intro y hy
  obtain ⟨hb, hd⟩ := isFinite_of_isFinite_mul hy.isFinite
  obtain ⟨z, hz⟩ := exists_hasValue hb
  obtain ⟨w, hw⟩ := exists_hasValue hd
  obtain ⟨x, hx, hx_le⟩ := h z hz
  obtain ⟨t, ht, ht_le⟩ := h' w hw
  obtain rfl := ((hz.mul hw).hasValue_of_isFinite hy.isFinite).unique hy
  have hle : |nearestSingle (x * t)| ≤ nearestSingle (z * w) := by
    rw [abs_nearestSingle, abs_mul]
    exact nearestSingle_mono (mul_le_mul hx_le ht_le (abs_nonneg t) ((abs_nonneg x).trans hx_le))
  exact ⟨_, (hx.mul ht).hasValue (hle.trans_lt (lt_of_abs_lt hy.abs_lt)), hle⟩

/-- A bound stays one when another bound is added to it. -/
theorem extend (h : BoundedBy b a) (h' : BoundedBy d c) : BoundedBy (b + d) a := by
  intro y hy
  obtain ⟨hb, hd⟩ := isFinite_of_isFinite_add hy.isFinite
  obtain ⟨z, hz⟩ := exists_hasValue hb
  obtain ⟨w, hw⟩ := exists_hasValue hd
  obtain ⟨x, hx, hx_le⟩ := h z hz
  obtain ⟨t, -, ht_le⟩ := h' w hw
  obtain rfl := ((hz.add hw).hasValue_of_isFinite hy.isFinite).unique hy
  refine ⟨x, hx, le_nearestSingle_of_representable hx.representable_abs ?_⟩
  linarith [abs_nonneg t]

end BoundedBy

/-- A little more than one, by `2 ^ (-11)`: directions may be longer than one by as much. -/
def stretch : Float32 := 1.00048828125

/-- The value of the stretch. -/
theorem hasValue_stretch : HasValue stretch (1 + 1 / 2 ^ 11) := by
  have h : HasValue stretch ((0x801000 : ℕ) * 2 ^ (-23 : ℤ)) :=
    hasValue_of_fields 0x3f801000 (by decide +kernel) (by decide) (by decide) (by decide)
  norm_num at h ⊢
  exact h

/-- An extent that is drawn has a value that is not negative. -/
theorem exists_hasValue_usableExtent (x : Float32) : ∃ y, HasValue (usableExtent x) y ∧ 0 ≤ y := by
  obtain ⟨hfinite, hnonneg⟩ := usableExtent_nonneg x
  obtain ⟨y, hy⟩ := exists_hasValue hfinite
  refine ⟨y, hy, ?_⟩
  rcases hnonneg with hzero | hpos
  · rw [hzero] at hy
    exact (hy.unique hasValue_zero).ge
  · exact ((hasValue_zero.lt_iff hy).mp hpos).le

/-- An extent that is drawn bounds itself. -/
theorem boundedBy_usableExtent (x : Float32) : BoundedBy (usableExtent x) (usableExtent x) := by
  obtain ⟨y, hy, hy_nonneg⟩ := exists_hasValue_usableExtent x
  exact .self hy hy_nonneg

/-- A radius is half a thickness, and so at most half the greatest power of two. -/
theorem exists_hasValue_radius (x : Float32) :
    ∃ ρ, HasValue (usableExtent (x / 2)) ρ ∧ 0 ≤ ρ ∧ ρ ≤ 2 ^ 127 := by
  obtain ⟨ρ, hρ, hρ_nonneg⟩ := exists_hasValue_usableExtent (x / 2)
  refine ⟨ρ, hρ, hρ_nonneg, ?_⟩
  unfold usableExtent at hρ
  split at hρ
  next h =>
    obtain ⟨y, hy⟩ := exists_hasValue (isFinite_of_isFinite_div h.1)
    have hhalf : |y / 2| ≤ 2 ^ (127 : ℤ) := by
      rw [abs_div, abs_two]
      have := hy.abs_lt
      norm_num at this ⊢
      linarith
    obtain ⟨hvalue, hle⟩ := (hy.div hasValue_two two_ne_zero).hasValue_of_abs_le
      (representable_zpow (by norm_num)) (by norm_num) hhalf
    rw [hρ.unique hvalue]
    exact_mod_cast (le_abs_self _).trans hle
  next => rw [hρ.unique hasValue_zero]; norm_num

/-! ## Adding to a finite number -/

/-- The last place of a finite single is at most `2 ^ 104`. -/
theorem lastPlace_le {x : ℝ} (hx : |x| < 2 ^ 128) : lastPlace x ≤ 104 := by
  have hlog : Int.log 2 |x| < 128 := by
    rcases eq_or_ne x 0 with rfl | hne
    · rw [abs_zero, Int.log_zero_right]
      norm_num
    · apply (Int.lt_zpow_iff_log_lt (b := 2) (by norm_num) (abs_pos.mpr hne)).mp
      exact_mod_cast hx
  unfold lastPlace
  omega

/-- The greatest finite single is one last place below `2 ^ 128`. -/
theorem HasValue.abs_le_greatest {a : Float32} {x : ℝ} (h : HasValue a x) :
    |x| ≤ 2 ^ 128 - 2 ^ 104 := by
  have hlt := h.abs_lt
  obtain ⟨k, e, hk, -, rfl⟩ := h.representable
  rw [abs_mul, abs_of_pos (by positivity : (0 : ℝ) < 2 ^ e)] at hlt ⊢
  -- As a number of units of the last place of the greatest numbers, it is less than `2 ^ 24`.
  rcases le_or_gt e 104 with he | he
  · have hle : |(k : ℝ)| ≤ 2 ^ 24 - 1 := by
      have hint : |k| ≤ 2 ^ 24 - 1 := by omega
      exact_mod_cast hint
    calc |(k : ℝ)| * 2 ^ e ≤ (2 ^ 24 - 1) * 2 ^ (104 : ℤ) := by
          gcongr
          norm_num
      _ = 2 ^ 128 - 2 ^ 104 := by norm_num
  · have hsplit : |(k : ℝ)| * 2 ^ e = (|k| * 2 ^ (e - 104).toNat : ℤ) * 2 ^ 104 := by
      push_cast
      rw [mul_assoc, ← zpow_natCast, ← zpow_natCast, ← zpow_add₀ (by norm_num)]
      congr 2
      push_cast
      omega
    rw [hsplit] at hlt ⊢
    have hint : |k| * 2 ^ (e - 104).toNat ≤ 2 ^ 24 - 1 := by
      have hcast : ((|k| * 2 ^ (e - 104).toNat : ℤ) : ℝ) < ((2 ^ 24 : ℤ) : ℝ) := by
        push_cast at hlt ⊢
        linarith
      have := Int.cast_lt.mp hcast
      omega
    calc ((|k| * 2 ^ (e - 104).toNat : ℤ) : ℝ) * 2 ^ 104 ≤ ((2 ^ 24 - 1 : ℤ) : ℝ) * 2 ^ 104 := by
          gcongr
      _ = 2 ^ 128 - 2 ^ 104 := by norm_num

/-- A finite number stays finite when something below half the last place of the greatest numbers
is added. -/
theorem isFinite_add {a b : Float32} {bound : ℝ} (ha : a.isFinite = true) (hb : Moderate bound b)
    (hbound : bound < 2 ^ 103) : (a + b).isFinite = true := by
  obtain ⟨y, hb, hy⟩ := hb
  obtain ⟨x, hx⟩ := exists_hasValue ha
  have hsum : |x + y| < 2 ^ 128 - 2 ^ 103 := by
    calc |x + y| ≤ |x| + |y| := abs_add_le x y
      _ < (2 ^ 128 - 2 ^ 104) + 2 ^ 103 :=
          add_lt_add_of_le_of_lt hx.abs_le_greatest (hy.trans_lt hbound)
      _ = 2 ^ 128 - 2 ^ 103 := by norm_num
  have hplace : (2 : ℝ) ^ lastPlace (x + y) ≤ 2 ^ (104 : ℤ) :=
    zpow_le_zpow_right₀ (by norm_num) (lastPlace_le (hsum.trans (by norm_num)))
  have hrounded : |nearestSingle (x + y)| < 2 ^ 128 := by
    calc |nearestSingle (x + y)| = |(nearestSingle (x + y) - (x + y)) + (x + y)| := by
          rw [sub_add_cancel]
      _ ≤ |nearestSingle (x + y) - (x + y)| + |x + y| := abs_add_le _ _
      _ < 2 ^ (104 : ℤ) / 2 + (2 ^ 128 - 2 ^ 103) := by
          apply add_lt_add_of_le_of_lt _ hsum
          exact (abs_nearestSingle_sub_le_lastPlace _).trans (by gcongr)
      _ = 2 ^ 128 := by norm_num
  exact ((hx.add hb).hasValue hrounded).isFinite

/-! ## Vectors -/

/-- The coordinates of a vector are finite. -/
def Vec3.AllFinite (v : Vec3) : Prop :=
  v.x.isFinite = true ∧ v.y.isFinite = true ∧ v.z.isFinite = true

instance (v : Vec3) : Decidable v.AllFinite := inferInstanceAs (Decidable (_ ∧ _ ∧ _))

/-- The coordinates of a vector are at most a bound from zero, unless the bound is not finite. -/
structure Vec3.BoundedBy (bound : Float32) (v : Vec3) : Prop where
  x : BranchingTubes.BoundedBy bound v.x
  y : BranchingTubes.BoundedBy bound v.y
  z : BranchingTubes.BoundedBy bound v.z

namespace Vec3.BoundedBy

variable {b d c : Float32} {v w : Vec3}

/-- A vector with a finite bound is finite. -/
theorem allFinite (h : v.BoundedBy b) (hb : b.isFinite = true) : v.AllFinite :=
  ⟨h.x.isFinite hb, h.y.isFinite hb, h.z.isFinite hb⟩

/-- A sum of vectors is bounded by the sum of the bounds. -/
theorem add (h : v.BoundedBy b) (h' : w.BoundedBy d) : (v + w).BoundedBy (b + d) :=
  ⟨h.x.add h'.x, h.y.add h'.y, h.z.add h'.z⟩

/-- A scaled vector is bounded by the product of the bounds. -/
theorem scale (h : v.BoundedBy b) (hc : BranchingTubes.BoundedBy d c) :
    (v.scale c).BoundedBy (b * d) :=
  ⟨h.x.mul hc, h.y.mul hc, h.z.mul hc⟩

end Vec3.BoundedBy

/-- The components of a direction are at most one, but for the stretch. -/
theorem Vec3.Direction.boundedBy {v : Vec3} (hv : v.Direction) : v.BoundedBy stretch := by
  obtain ⟨o, ho, ho_near⟩ := hv
  have hlength : normSq o ≤ (1 + 1 / 2 ^ 11) ^ 2 := by
    have := (abs_le.mp ho_near).2
    linarith
  obtain ⟨-, himI, himJ, himK⟩ := abs_components_le (by norm_num) hlength
  have hcomponent {a : Float32} {x : ℝ} (ha : HasValue a x) (hx : |x| ≤ 1 + 1 / 2 ^ 11) :
      BranchingTubes.BoundedBy stretch a := by
    intro y hy
    exact ⟨x, ha, hx.trans_eq (hasValue_stretch.unique hy)⟩
  exact ⟨hcomponent ho.x himI, hcomponent ho.y himJ, hcomponent ho.z himK⟩

/-! ## Turtles -/

/-- The angle of a corner of a ring is finite. -/
theorem isFinite_fullTurn_mul_div (j : ℕ) {sides : ℕ} (hsides : 0 < sides.toUInt64.toNat) :
    (fullTurn * j.toUInt64.toFloat32 / sides.toUInt64.toFloat32).isFinite = true := by
  have hcount (n : UInt64) : HasValue n.toFloat32 (nearestSingle n.toNat) ∧
      |nearestSingle n.toNat| ≤ 2 ^ (64 : ℤ) := by
    apply (roundedFrom_ofNat n).hasValue_of_abs_le (representable_zpow (by norm_num))
      (by norm_num)
    rw [Nat.abs_cast]
    exact_mod_cast n.toNat_lt.le
  have hturn : ∃ x, HasValue fullTurn x ∧ |x| ≤ 8 := by
    have h : HasValue fullTurn ((0xc90fdb : ℕ) * 2 ^ (-21 : ℤ)) :=
      hasValue_of_fields 0x40c90fdb rfl (by decide) (by decide) (by decide)
    refine ⟨_, h, ?_⟩
    norm_num [abs_of_pos]
  have hdivisor : 1 ≤ nearestSingle sides.toUInt64.toNat := by
    apply le_nearestSingle_of_representable (representable_zpow (e := 0) (by norm_num))
    rw [zpow_zero]
    exact_mod_cast hsides
  obtain ⟨x, hx, hx_le⟩ := hturn
  obtain ⟨hj, hj_le⟩ := hcount j.toUInt64
  obtain ⟨hproduct, hproduct_le⟩ := (hx.mul hj).hasValue_of_abs_le
    (representable_zpow (e := 67) (by norm_num)) (by norm_num) (by
      rw [abs_mul]
      calc |x| * |nearestSingle j.toUInt64.toNat| ≤ 8 * 2 ^ (64 : ℤ) := by gcongr
        _ = 2 ^ (67 : ℤ) := by norm_num)
  have hquotient := hproduct.div (hcount sides.toUInt64).1 (by linarith)
  refine (hquotient.hasValue_of_abs_le (representable_zpow (e := 67) (by norm_num)) (by norm_num)
    ?_).1.isFinite
  rw [abs_div]
  exact (div_le_self (abs_nonneg _) (hdivisor.trans (le_abs_self _))).trans hproduct_le

namespace Turtle

/-- A turtle is within its reach, unless the reach is not finite, and its directions are
directions. -/
structure Steady (reach : Float32) (t : Turtle) : Prop where
  position : t.position.BoundedBy reach
  rotation : t.rotation.Rigid
  branchAxis : t.branchAxis.Direction

variable {t : Turtle} {reach : Float32}

/-- The heading of a turtle is a direction. -/
theorem Steady.heading (h : t.Steady reach) : t.heading.Direction := by
  obtain ⟨-, o, -, -, ho, ho_near, -⟩ := h.rotation.exists_frame
  exact ⟨o, ho, ho_near⟩

/-- A corner of a ring is finite if the reach is after the stretched radius has been added. -/
theorem Steady.ringCorner (h : t.Steady reach) {radius : Float32} {ρ : ℝ}
    (hradius : HasValue radius ρ) (hρ_nonneg : 0 ≤ ρ) (hρ : ρ ≤ 2 ^ 127)
    (hfinite : (reach + stretch * radius).isFinite = true) {sides : ℕ}
    (hsides : 0 < sides.toUInt64.toNat) (j : ℕ) :
    (t.ringCorner (t.right.scale radius) sides j).AllFinite := by
  have hoffset := h.rotation.ringOffset hradius hρ_nonneg hρ (isFinite_fullTurn_mul_div j hsides)
  obtain ⟨hreach, -⟩ := isFinite_of_isFinite_add hfinite
  rcases le_total 2 ρ with hlarge | hsmall
  · -- The offset is bounded by the stretched radius.
    rw [max_eq_right hlarge] at hoffset
    have hcomponent {a : Float32} (ha : Moderate ((1 + 1 / 2 ^ 11) * ρ) a) :
        BoundedBy (stretch * radius) a := by
      obtain ⟨x, hx, hx_le⟩ := ha
      intro y hy
      obtain rfl := ((hasValue_stretch.mul hradius).hasValue_of_isFinite hy.isFinite).unique hy
      exact ⟨x, hx, le_nearestSingle_of_representable hx.representable_abs hx_le⟩
    have hbounded : Vec3.BoundedBy (stretch * radius) _ :=
      ⟨hcomponent hoffset.x, hcomponent hoffset.y, hcomponent hoffset.z⟩
    exact (h.position.add hbounded).allFinite hfinite
  · -- The offset is so small that it cannot make a finite number infinite.
    rw [max_eq_left hsmall] at hoffset
    have hposition := h.position.allFinite hreach
    exact ⟨isFinite_add hposition.1 hoffset.x (by norm_num),
      isFinite_add hposition.2.1 hoffset.y (by norm_num),
      isFinite_add hposition.2.2 hoffset.z (by norm_num)⟩

/-- A ring is finite if the reach is after the stretched radius has been added. -/
theorem Steady.ring (h : t.Steady reach) {x : Float32} {sides : ℕ}
    (hsides : 0 < sides.toUInt64.toNat)
    (hfinite : (reach + stretch * usableExtent (x / 2)).isFinite = true) :
    ∀ v ∈ t.ring (usableExtent (x / 2)) sides, v.AllFinite := by
  intro v hv
  obtain ⟨ρ, hρ, hρ_nonneg, hρ_le⟩ := exists_hasValue_radius x
  obtain ⟨j, -, rfl⟩ := List.mem_map.mp hv
  exact h.ringCorner hρ hρ_nonneg hρ_le hfinite hsides j

/-! ## What keeps a turtle steady -/

/-- A turtle that stays while the reach grows is still steady. -/
theorem Steady.extend (h : t.Steady reach) (x : Float32) :
    t.Steady (reach + stretch * usableExtent x) := by
  have hgrowth : BoundedBy (stretch * usableExtent x) (stretch * usableExtent x) :=
    (BoundedBy.self hasValue_stretch (by norm_num)).mul (boundedBy_usableExtent x)
  exact ⟨⟨h.position.x.extend hgrowth, h.position.y.extend hgrowth, h.position.z.extend hgrowth⟩,
    h.rotation, h.branchAxis⟩

/-- An advance extends the reach by the stretched length. -/
theorem Steady.advance (h : t.Steady reach) (x : Float32) :
    (t.advance (usableExtent x)).Steady (reach + stretch * usableExtent x) :=
  ⟨h.position.add (h.heading.boundedBy.scale (boundedBy_usableExtent x)), h.rotation, h.branchAxis⟩

/-- A pitch by a finite angle keeps a turtle steady. -/
theorem Steady.pitch (h : t.Steady reach) {angle : Float32} (hangle : angle.isFinite = true) :
    (t.pitch angle).Steady reach :=
  ⟨h.position, h.rotation.turn_own Vec3.direction_unitX hangle, h.branchAxis⟩

/-- A turn by a finite angle keeps a turtle steady. -/
theorem Steady.azimuth (h : t.Steady reach) {angle : Float32} (hangle : angle.isFinite = true) :
    (t.azimuth angle).Steady reach :=
  ⟨h.position, h.rotation.turn_about h.branchAxis hangle, h.branchAxis⟩

/-- Opening a branch keeps a turtle steady. -/
theorem Steady.enterBranch (h : t.Steady reach) : t.enterBranch.Steady reach :=
  ⟨h.position, h.rotation, h.heading⟩

/-- A turtle at the origin is steady with no reach. -/
theorem steady_atOrigin {rotation : Rotation} (h : rotation.Rigid) (thickness length : Float32) :
    (atOrigin rotation thickness length).Steady 0 := by
  have hzero : BoundedBy 0 0 := .self hasValue_zero le_rfl
  obtain ⟨-, o, -, -, ho, ho_near, -⟩ := h.exists_frame
  exact ⟨⟨hzero, hzero, hzero⟩, h, o, ho, ho_near⟩

end Turtle

end BranchingTubes
