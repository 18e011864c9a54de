import BranchingTubes.Mesh.Measure
import BranchingTubes.Proofs.SingleOrder
import Mathlib

/-!
# The box around a mesh

The corners of the box are found in one pass over the vertices, which keeps the lesser and the
greater number of two on each axis.  Both are choices of one of two numbers that is related to both
of them (`Selects`), and so is a running choice over a list: it is a member of the list and related
to all members.  The box is therefore the tightest one (`Mesh.bounds_tight`).

Which of two equal numbers is chosen depends on their order, and equal numbers that differ are
zeros.  That is all that the order of the vertices can change.
-/

set_option autoImplicit false

namespace BranchingTubes

/-! ## Running choices -/

/-- An operation chooses one of two numbers, and the choice is related to both. -/
structure Selects (pick : Float32 → Float32 → Float32) (R : Float32 → Float32 → Prop) : Prop where
  either : ∀ a b, pick a b = a ∨ pick a b = b
  left : ∀ a b, a.isNaN = false → b.isNaN = false → R (pick a b) a
  right : ∀ a b, a.isNaN = false → b.isNaN = false → R (pick a b) b
  trans : ∀ a b c, a.isNaN = false → b.isNaN = false → c.isNaN = false → R a b → R b c → R a c

/-- The lesser of two numbers selects by `≤`. -/
theorem selects_lesser : Selects lesser fun a b => a ≤ b where
  either a b := by
    unfold lesser
    split
    · exact .inl rfl
    · exact .inr rfl
  left a b ha hb := by
    unfold lesser
    split
    next => exact le_refl_of_number ha
    next hlt => exact le_of_not_lt_of_numbers ha hb hlt
  right a b ha hb := by
    unfold lesser
    split
    next hlt => exact le_of_lt_of_numbers ha hb hlt
    next => exact le_refl_of_number hb
  trans a b c ha hb hc hab hbc := le_trans_of_numbers ha hb hc hab hbc

/-- The greater of two numbers selects by `≥`. -/
theorem selects_greater : Selects greater fun a b => b ≤ a where
  either a b := by
    unfold greater
    split
    · exact .inl rfl
    · exact .inr rfl
  left a b ha hb := by
    unfold greater
    split
    next => exact le_refl_of_number ha
    next hlt => exact le_of_not_lt_of_numbers hb ha hlt
  right a b ha hb := by
    unfold greater
    split
    next hlt => exact le_of_lt_of_numbers hb ha hlt
    next => exact le_refl_of_number hb
  trans a b c ha hb hc hab hbc := le_trans_of_numbers hc hb ha hbc hab

namespace Selects

variable {pick : Float32 → Float32 → Float32} {R : Float32 → Float32 → Prop} {a : Float32}
  {xs : List Float32}

/-- What a fold selects is its start or a member of the list. -/
theorem foldl_mem (h : Selects pick R) : xs.foldl pick a ∈ a :: xs := by
  induction xs generalizing a with
  | nil => exact List.mem_singleton_self a
  | cons b xs ih =>
    rw [List.foldl_cons]
    rcases List.mem_cons.mp (ih (a := pick a b)) with hpick | hlater
    · rw [hpick]
      rcases h.either a b with hleft | hright
      · rw [hleft]
        exact List.mem_cons_self
      · rw [hright]
        exact List.mem_cons_of_mem _ List.mem_cons_self
    · exact List.mem_cons_of_mem _ (List.mem_cons_of_mem _ hlater)

/-- A running choice is related to every number of the list, because each choice is related to the
one before it. -/
theorem foldl_related (h : Selects pick R) (hnumbers : ∀ x ∈ a :: xs, x.isNaN = false) :
    ∀ x ∈ a :: xs, R (xs.foldl pick a) x := by
  induction xs generalizing a with
  | nil =>
    intro x hx
    obtain rfl := List.mem_singleton.mp hx
    have ha := hnumbers x hx
    have hself := h.left x x ha ha
    rwa [(h.either x x).elim id id] at hself
  | cons b xs ih =>
    have ha : a.isNaN = false := hnumbers a List.mem_cons_self
    have hb : b.isNaN = false := hnumbers b (List.mem_cons_of_mem _ List.mem_cons_self)
    have hpick : (pick a b).isNaN = false := by
      rcases h.either a b with hleft | hright
      · rwa [hleft]
      · rwa [hright]
    have hlater : ∀ x ∈ pick a b :: xs, x.isNaN = false := by
      intro x hx
      rcases List.mem_cons.mp hx with rfl | hx
      · exact hpick
      · exact hnumbers x (List.mem_cons_of_mem _ (List.mem_cons_of_mem _ hx))
    have hresult : (xs.foldl pick (pick a b)).isNaN = false := hlater _ h.foldl_mem
    have hchoice : R (xs.foldl pick (pick a b)) (pick a b) := ih hlater _ List.mem_cons_self
    intro x hx
    rw [List.foldl_cons]
    rcases List.mem_cons.mp hx with rfl | hx
    · exact h.trans _ _ _ hresult hpick ha hchoice (h.left x b ha hb)
    · rcases List.mem_cons.mp hx with rfl | hx
      · exact h.trans _ _ _ hresult hpick hb hchoice (h.right a x ha hb)
      · exact ih hlater x (List.mem_cons_of_mem _ hx)

end Selects

/-! ## Axes -/

/-- The three axes of space. -/
inductive Axis where
  | x
  | y
  | z
  deriving DecidableEq

namespace Vec3

/-- The coordinate of a point on an axis. -/
def along (v : Vec3) : Axis → Float32
  | .x => v.x
  | .y => v.y
  | .z => v.z

/-- The meet of two points is taken on each axis. -/
@[simp] theorem along_meet (a b : Vec3) (axis : Axis) :
    (a.meet b).along axis = lesser (a.along axis) (b.along axis) := by
  cases axis <;> rfl

/-- The join of two points is taken on each axis. -/
@[simp] theorem along_join (a b : Vec3) (axis : Axis) :
    (a.join b).along axis = greater (a.along axis) (b.along axis) := by
  cases axis <;> rfl

/-- On each axis two points have the same coordinate, but for the sign of a zero. -/
def SameButZeroSigns (v w : Vec3) : Prop :=
  ∀ axis, SameButZeroSign (v.along axis) (w.along axis)

end Vec3

/-! ## The box -/

namespace Mesh

/-- No coordinate of a vertex is a NaN. -/
def Numeric (m : Mesh) : Prop := ∀ v ∈ m.vertices, ∀ axis, (v.along axis).isNaN = false

/-- The corners of a box that contains all vertices and has a vertex on each side. -/
structure TightBox (m : Mesh) (low high : Vec3) : Prop where
  contains : ∀ v ∈ m.vertices, ∀ axis,
    low.along axis ≤ v.along axis ∧ v.along axis ≤ high.along axis
  low_attained : ∀ axis, ∃ v ∈ m.vertices, v.along axis = low.along axis
  high_attained : ∀ axis, ∃ v ∈ m.vertices, v.along axis = high.along axis

variable {m m' : Mesh} {low high low' high' : Vec3}

/-- Only a mesh without vertices has no box. -/
theorem bounds_eq_none_iff : m.bounds = none ↔ m.vertices = #[] := by
  unfold bounds
  rw [← Array.toList_eq_nil_iff]
  cases m.vertices.toList <;> simp

/-- On each axis, the corners are the running choices of the coordinates. -/
theorem exists_corners (vertices : List Vec3) (low high : Vec3) :
    ∃ low' high', vertices.foldl (fun box v => (box.1.meet v, box.2.join v)) (low, high) =
        (low', high') ∧ ∀ axis,
      low'.along axis = (vertices.map fun v => v.along axis).foldl lesser (low.along axis) ∧
      high'.along axis =
        (vertices.map fun v => v.along axis).foldl greater (high.along axis) := by
  induction vertices generalizing low high with
  | nil => exact ⟨low, high, rfl, fun _ => ⟨rfl, rfl⟩⟩
  | cons v vertices ih => simpa using ih (low.meet v) (high.join v)

/-- A mesh of numbers with a vertex has a box, and the box is tight. -/
theorem exists_tightBox (hm : m.Numeric) (h : m.vertices ≠ #[]) :
    ∃ low high, m.bounds = some (low, high) ∧ m.TightBox low high := by
  cases hvertices : m.vertices.toList with
  | nil => exact absurd (Array.toList_eq_nil_iff.mp hvertices) h
  | cons first rest =>
    obtain ⟨low, high, hbox, hcorners⟩ := exists_corners (first :: rest) first first
    have hbounds : m.bounds = some (low, high) := by
      unfold bounds
      rw [hvertices]
      exact congrArg some hbox
    have hmem (v : Vec3) : v ∈ m.vertices ↔ v ∈ first :: rest := by
      rw [← hvertices, Array.mem_toList_iff]
    -- The pass starts with the first vertex and meets it again.
    have hcoordinates (axis : Axis) (x : Float32) :
        x ∈ first.along axis :: (first :: rest).map (fun v => v.along axis) ↔
          ∃ v ∈ m.vertices, v.along axis = x := by
      simp only [hmem, List.mem_cons, List.mem_map, List.map_cons]
      grind
    have hnumbers (axis : Axis) :
        ∀ x ∈ first.along axis :: (first :: rest).map (fun v => v.along axis),
          x.isNaN = false := by
      intro x hx
      obtain ⟨v, hv, rfl⟩ := (hcoordinates axis x).mp hx
      exact hm v hv axis
    refine ⟨low, high, hbounds, ?_, ?_, ?_⟩
    · intro v hv axis
      have hx := (hcoordinates axis (v.along axis)).mpr ⟨v, hv, rfl⟩
      rw [(hcorners axis).1, (hcorners axis).2]
      exact ⟨selects_lesser.foldl_related (hnumbers axis) _ hx,
        selects_greater.foldl_related (hnumbers axis) _ hx⟩
    · intro axis
      rw [← hcoordinates axis, (hcorners axis).1]
      exact selects_lesser.foldl_mem
    · intro axis
      rw [← hcoordinates axis, (hcorners axis).2]
      exact selects_greater.foldl_mem

/-- The corners of a tight box are numbers on every axis. -/
theorem TightBox.isNaN_eq_false (hm : m.Numeric) (h : m.TightBox low high) (axis : Axis) :
    (low.along axis).isNaN = false ∧ (high.along axis).isNaN = false := by
  obtain ⟨v, hv, hlow⟩ := h.low_attained axis
  obtain ⟨w, hw, hhigh⟩ := h.high_attained axis
  rw [← hlow, ← hhigh]
  exact ⟨hm v hv axis, hm w hw axis⟩

/-- The box around more vertices contains the box around fewer, because a vertex is on each of its
sides. -/
theorem TightBox.mono (h : m.TightBox low high) (h' : m'.TightBox low' high')
    (hsub : ∀ v ∈ m.vertices, v ∈ m'.vertices) (axis : Axis) :
    low'.along axis ≤ low.along axis ∧ high.along axis ≤ high'.along axis := by
  obtain ⟨v, hv, hlow⟩ := h.low_attained axis
  obtain ⟨w, hw, hhigh⟩ := h.high_attained axis
  rw [← hlow, ← hhigh]
  exact ⟨(h'.contains v (hsub v hv) axis).1, (h'.contains w (hsub w hw) axis).2⟩

/-- Boxes around the same vertices contain each other. -/
theorem TightBox.sameButZeroSigns (hm : m.Numeric) (hm' : m'.Numeric) (h : m.TightBox low high)
    (h' : m'.TightBox low' high') (hsame : ∀ v, v ∈ m.vertices ↔ v ∈ m'.vertices) :
    low.SameButZeroSigns low' ∧ high.SameButZeroSigns high' := by
  have hnumbers := h.isNaN_eq_false hm
  have hnumbers' := h'.isNaN_eq_false hm'
  have hwithin := h.mono h' fun v => (hsame v).mp
  have hwithin' := h'.mono h fun v => (hsame v).mpr
  constructor
  · intro axis
    exact eq_or_zeros_of_le (hnumbers axis).1 (hnumbers' axis).1 (hwithin' axis).1 (hwithin axis).1
  · intro axis
    exact eq_or_zeros_of_le (hnumbers axis).2 (hnumbers' axis).2 (hwithin axis).2 (hwithin' axis).2

/-- The corners of two boxes are the same, but for signs of zeros. -/
def SameCorners (box box' : Vec3 × Vec3) : Prop :=
  box.1.SameButZeroSigns box'.1 ∧ box.2.SameButZeroSigns box'.2

/-- **The bounds are tight.**  For every mesh without NaN there are bounds unless there are no
vertices; they contain every vertex, and each of their six numbers is, bit for bit, a coordinate of
a vertex.  Another order of the vertices changes at most the sign of a zero. -/
theorem bounds_tight (hm : m.Numeric) :
    (m.bounds = none ↔ m.vertices = #[]) ∧
    (m.vertices ≠ #[] → ∃ low high, m.bounds = some (low, high) ∧ m.TightBox low high) ∧
    ∀ m' : Mesh, m'.vertices.toList.Perm m.vertices.toList →
      Option.Rel SameCorners m.bounds m'.bounds := by
  refine ⟨bounds_eq_none_iff, exists_tightBox hm, ?_⟩
  intro m' hperm
  have hsame (v : Vec3) : v ∈ m.vertices ↔ v ∈ m'.vertices := by
    rw [← Array.mem_toList_iff, ← Array.mem_toList_iff]
    exact hperm.mem_iff.symm
  have hm' : m'.Numeric := fun v hv => hm v ((hsame v).mpr hv)
  by_cases hempty : m.vertices = #[]
  · have hempty' : m'.vertices = #[] := by
      rw [← Array.toList_eq_nil_iff] at hempty ⊢
      rw [hempty] at hperm
      exact hperm.eq_nil
    rw [bounds_eq_none_iff.mpr hempty, bounds_eq_none_iff.mpr hempty']
    exact .none
  · have hempty' : m'.vertices ≠ #[] := by
      intro hnone
      rw [← Array.toList_eq_nil_iff] at hempty hnone
      rw [hnone] at hperm
      exact hempty hperm.symm.eq_nil
    obtain ⟨low, high, hbounds, htight⟩ := exists_tightBox hm hempty
    obtain ⟨low', high', hbounds', htight'⟩ := exists_tightBox hm' hempty'
    rw [hbounds, hbounds']
    exact .some (htight.sameButZeroSigns hm hm' htight' hsame)

/-- Two points an infinite distance apart, with a zero of either sign: their order shows in the
sign of a zero. -/
def wideMesh (first second : Vec3) : Mesh := ⟨#[first, second], #[], #[]⟩

/-- A box with infinite sides is tight, and in another order of the vertices only the sign of a zero
changes. -/
theorem bounds_tight_of_infinite_sides :
    let up : Vec3 := ⟨0, 1 / 0, 1⟩
    let down : Vec3 := ⟨-0, -(1 / 0), 2⟩
    (wideMesh up down).Numeric ∧
    (∃ low high, (wideMesh up down).bounds = some (low, high) ∧
      (wideMesh up down).TightBox low high) ∧
    (wideMesh up down).bounds ≠ (wideMesh down up).bounds ∧
    Option.Rel SameCorners (wideMesh up down).bounds (wideMesh down up).bounds := by
  intro up down
  have hm : (wideMesh up down).Numeric := by
    intro v hv axis
    have hv' : v = up ∨ v = down := by simpa [wideMesh] using hv
    rcases hv' with rfl | rfl
    · cases axis <;> decide +kernel
    · cases axis <;> decide +kernel
  obtain ⟨-, hbox, hperm⟩ := bounds_tight hm
  exact ⟨hm, hbox (by simp [wideMesh]), by decide +kernel, hperm _ (List.Perm.swap up down [])⟩

end Mesh

end BranchingTubes
