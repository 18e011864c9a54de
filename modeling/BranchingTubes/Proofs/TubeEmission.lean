import BranchingTubes.Proofs.MachineSteps
import Mathlib

/-!
# What a drawn segment adds to the mesh

A mesh only ever grows at its ends: `Mesh.Extends` says that vertices, indices and
segments of one mesh are beginnings of those of another, and a run keeps it
(`extends_of_run`).  So the tube that an instruction draws stands where it was put, and
depends only on the turtle that drew it: `emitted_of_run` reads it back, by its number
among all tubes, from the mesh at the end of the run.
-/

set_option autoImplicit false

namespace BranchingTubes

namespace Mesh

/-- Nothing of a mesh is changed in another, which may have more at the ends. -/
structure Extends (m m' : Mesh) : Prop where
  vertices : m.vertices.toList <+: m'.vertices.toList
  indices : m.indices.toList <+: m'.indices.toList
  segments : m.segments.toList <+: m'.segments.toList

/-- A mesh extends itself. -/
theorem Extends.refl (m : Mesh) : m.Extends m :=
  ⟨List.prefix_refl _, List.prefix_refl _, List.prefix_refl _⟩

/-- A mesh that extends an extension extends the mesh extended. -/
theorem Extends.trans {a b c : Mesh} (hab : a.Extends b) (hbc : b.Extends c) : a.Extends c :=
  ⟨hab.vertices.trans hbc.vertices, hab.indices.trans hbc.indices,
    hab.segments.trans hbc.segments⟩

/-- A mesh with one more tube extends the mesh before. -/
theorem extends_addTube (m : Mesh) (before after : Turtle) (radius : Float32) (sides : Nat) :
    m.Extends (m.addTube before after radius sides) where
  vertices := by simp
  indices := by simp
  segments := by simp

/-- The vertices of a tube, given its number, in a mesh whose tubes all have the same
number of sides. -/
def tubeVertices (m : Mesh) (sides number : Nat) : List Vec3 :=
  (m.vertices.toList.drop (2 * sides * number)).take (2 * sides)

/-- The last vertices of a mesh. -/
def lastVertices (m : Mesh) (count : Nat) : List Vec3 :=
  m.vertices.toList.drop (m.vertexCount - count)

end Mesh

namespace Machine

/-- The vertices that a turtle emits when it obeys an instruction to draw. -/
def emittedVertices (sides : Nat) (t : Turtle) (i : Instruction) : List Vec3 :=
  t.ring (radius t) sides ++ (tipTurtle t i).ring (radius t) sides

/-- The segment that a turtle emits when it obeys an instruction to draw. -/
def emittedSegment (t : Turtle) (i : Instruction) : Segment :=
  ⟨t.position, (tipTurtle t i).position, radius t⟩

/-- A tube has two rings of vertices. -/
@[simp] theorem length_emittedVertices (sides : Nat) (t : Turtle) (i : Instruction) :
    (emittedVertices sides t i).length = 2 * sides := by
  simp only [emittedVertices, List.length_append, Turtle.length_ring]
  omega

variable {s : Setup} {index : Nat} {m m' : Machine} {is : List Instruction} {i : Instruction}

/-- Only drawing changes the mesh. -/
theorem mesh_obey_of_ne_draw (h : i.command ≠ .draw) : (m.obey s i).mesh = m.mesh := by
  unfold obey
  cases hc : i.command with
  | draw => exact absurd hc h
  | closeBranch => cases m.saved <;> rfl
  | _ => rfl

/-- Drawing adds a tube from the turtle to its tip, with the radius of the turtle. -/
theorem mesh_obey_of_draw (h : i.command = .draw) :
    (m.obey s i).mesh = m.mesh.addTube m.turtle (tipTurtle m.turtle i) (radius m.turtle)
      s.settings.sides.toNat := by
  simp [obey, h]

/-- One instruction only ever adds to the mesh. -/
theorem extends_obey (s : Setup) (m : Machine) (i : Instruction) :
    m.mesh.Extends (m.obey s i).mesh := by
  by_cases h : i.command = .draw
  · rw [mesh_obey_of_draw h]
    exact m.mesh.extends_addTube ..
  · rw [mesh_obey_of_ne_draw h]
    exact .refl _

/-- A run leaves the mesh that it starts with as it is and adds to its ends. -/
theorem extends_of_run (h : run s index m is = .ok m') : m.mesh.Extends m'.mesh := by
  refine run_induction ?_ (fun is i mid _ _ ih => ?_) h
  · exact .refl _
  · exact ih.trans (extends_obey s mid i)

/-- A run adds one segment for each instruction that draws. -/
theorem segmentCount_of_run (h : run s index m is = .ok m') :
    m'.mesh.segments.toList.length =
      m.mesh.segments.toList.length + is.countP Marks.instruction.draws := by
  refine run_induction ?_ (fun is i mid _ _ ih => ?_) h
  · simp
  · rw [List.countP_append, ← Nat.add_assoc, ← ih]
    by_cases hi : i.command = .draw
    · simp [mesh_obey_of_draw hi, Marks.instruction_draws_iff.mpr hi]
    · simp [mesh_obey_of_ne_draw hi, Marks.instruction_draws_iff, hi]

/-- The tube of an instruction to draw is found in the final mesh under the number of
instructions to draw before it, and is the one that the turtle emitted there. -/
theorem emitted_of_run {us vs : List Instruction} {mid : Machine}
    (h : run s 0 (start s) (us ++ i :: vs) = .ok m) (hi : i.command = .draw)
    (hmid : run s 0 (start s) us = .ok mid) :
    let number := us.countP Marks.instruction.draws
    m.mesh.segments[number]? = some (emittedSegment mid.turtle i) ∧
      m.mesh.tubeVertices s.settings.sides.toNat number =
        emittedVertices s.settings.sides.toNat mid.turtle i := by
  intro number
  have hafter : (mid.obey s i).mesh.Extends m.mesh := by
    rw [show us ++ i :: vs = (us ++ [i]) ++ vs by simp] at h
    obtain ⟨after, hafter, hrest⟩ := run_append_ok_iff.mp h
    obtain ⟨mid', hmid', -, rfl⟩ := run_concat_ok_iff.mp hafter
    obtain rfl : mid = mid' := by simpa [hmid] using hmid'
    exact extends_of_run hrest
  rw [mesh_obey_of_draw hi] at hafter
  constructor
  · obtain ⟨rest, hrest⟩ := hafter.segments
    have hnumber : mid.mesh.segments.toList.length = number := by
      simpa [start, Mesh.empty] using segmentCount_of_run hmid
    rw [← Array.getElem?_toList, ← hrest, Mesh.segments_addTube, List.append_assoc,
      List.getElem?_append_right hnumber.le, hnumber]
    simp [emittedSegment]
  · obtain ⟨rest, hrest⟩ := hafter.vertices
    have hbase : mid.mesh.vertices.toList.length = 2 * s.settings.sides.toNat * number :=
      vertexCount_of_start hmid
    rw [Mesh.vertices_addTube, List.append_assoc] at hrest
    rw [Mesh.tubeVertices, ← hrest, List.drop_append_of_le_length hbase.ge,
      List.drop_eq_nil_of_le hbase.le, List.nil_append, List.take_append_of_le_length (by simp; omega),
      List.take_of_length_le (by simp; omega), emittedVertices]

end Machine

end BranchingTubes
