import BranchingTubes.Proofs.CoupledRuns
import BranchingTubes.Proofs.TubeEmission
import Mathlib

/-!
# What a parameter influences

Two setups that differ in some parameters make two runs over the same word, and what the
parameters do not name comes out the same.  The girth of the tubes, that is the thickness, its
decay and the number of sides, leaves the skeleton as it is.  The lengths leave the triangles,
the radii and all orientations as they are.  The depth limit leaves everything as it is, unless
a run fails because of it.

The two runs are followed side by side.  In the first two cases the machines agree in a part of
each turtle and in a part of the mesh (`Machine.Agree`): the skeleton and what moves it, or the
gauge of the tubes and what sets it.
-/

set_option autoImplicit false

namespace BranchingTubes

/-! ## Setups that differ in a few parameters -/

namespace Setup

/-- Other thickness, thickness decay and number of sides. -/
def withGirth (s : Setup) (thickness decay : Float32) (sides : UInt64) : Setup where
  parameters := { s.parameters with thickness, thicknessDecay := decay }
  settings := { s.settings with sides }

/-- Other length and length decay. -/
def withLengths (s : Setup) (length decay : Float32) : Setup :=
  { s with parameters := { s.parameters with length, lengthDecay := decay } }

/-- Another depth limit. -/
def withDepthLimit (s : Setup) (limit : UInt64) : Setup :=
  { s with settings := { s.settings with depthLimit := limit } }

end Setup

/-! ## The girth and the skeleton -/

/-- Everything about a turtle but its thickness. -/
def Turtle.path (t : Turtle) : Vec3 × Rotation × Float32 × Vec3 :=
  (t.position, t.rotation, t.length, t.branchAxis)

/-- The ends of the segments. -/
def Mesh.skeleton (m : Mesh) : List (Vec3 × Vec3) := m.segments.toList.map fun g => (g.base, g.tip)

/-- Two interpretations have the same segments, up to the radii, and end with the same turtle, up
to its thickness, and with as many open branches. -/
structure Interpretation.SameSkeleton (r r' : Interpretation) : Prop where
  segments : r.mesh.skeleton = r'.mesh.skeleton
  turtle : r.turtle.path = r'.turtle.path
  openBranches : r.openBranches = r'.openBranches

/-- A tube adds the ends of its segment to the skeleton. -/
theorem Mesh.skeleton_addTube (m : Mesh) (before after : Turtle) (radius : Float32) (sides : ℕ) :
    (m.addTube before after radius sides).skeleton =
      m.skeleton ++ [(before.position, after.position)] := by
  rw [skeleton, segments_addTube, List.map_append]
  rfl

namespace Machine

variable {s : Setup} {m m' : Machine} {is : List Instruction} {i : Instruction} {index : ℕ}
variable {thickness decay : Float32} {sides : UInt64}

/-- Turtles on the same path that obey the same instruction stay on the same path, whatever their
thickness is. -/
theorem path_movedTurtle {t t' : Turtle} (h : t.path = t'.path) :
    (movedTurtle s t i).path = (movedTurtle (s.withGirth thickness decay sides) t' i).path := by
  obtain ⟨p, q, w, l, a⟩ := t
  obtain ⟨p', q', w', l', a'⟩ := t'
  simp only [Turtle.path, Prod.mk.injEq] at h
  obtain ⟨rfl, rfl, rfl, rfl⟩ := h
  unfold movedTurtle
  cases i.command <;>
    simp only [Turtle.path, tipTurtle, Turtle.advance, Turtle.heading, Turtle.pitch,
      Turtle.azimuth, Turtle.enterBranch, Setup.withGirth]

/-- Turtles on the same path draw segments with the same far end. -/
theorem position_tipTurtle {t t' : Turtle} (h : t.path = t'.path) :
    (tipTurtle t i).position = (tipTurtle t' i).position := by
  simp only [Turtle.path, Prod.mk.injEq] at h
  obtain ⟨hposition, hrotation, hlength, -⟩ := h
  simp only [tipTurtle, Turtle.advance, Turtle.heading, hposition, hrotation, hlength]

/-- The vertices drawn so far and those still to be drawn can be indexed. -/
def Fits (s : Setup) (is : List Instruction) (m : Machine) : Prop :=
  m.mesh.vertexCount + 2 * s.settings.sides.toNat * is.countP Marks.instruction.draws ≤ maxVertices

/-- A machine that has room for a list of instructions has room for the rest of it after the
first. -/
theorem Fits.obey (h : Fits s (i :: is) m) : Fits s is (m.obey s i) := by
  unfold Fits at h ⊢
  rw [List.countP_cons, ← List.countP_singleton, Nat.mul_add] at h
  rw [vertexCount_obey]
  omega

/-- A segment for which there is room is not refused. -/
theorem Fits.refusal?_of_draw (h : Fits s (i :: is) m) (hc : i.command = .draw) :
    m.refusal? s index i = none := by
  have hdraws : Marks.instruction.draws i = true := by
    simp [Marks.instruction, Marks.command, Marks.comap, hc]
  unfold Fits at h
  rw [List.countP_cons_of_pos hdraws, Nat.mul_add, Nat.mul_one] at h
  rw [refusal?_eq_none_iff]
  refine ⟨fun _ => by omega, ?_, ?_⟩ <;>
  · intro hother
    rw [hc] at hother
    cases hother

/-- Two runs that differ in the girth fail alike or agree in the skeleton, if neither runs out of
indices. -/
theorem run_withGirth (hfits : Fits s is (start s))
    (hfits' : Fits (s.withGirth thickness decay sides) is
      (start (s.withGirth thickness decay sides))) :
    SameOutcome (Agree Turtle.path Mesh.skeleton) (run s 0 (start s) is)
      (run (s.withGirth thickness decay sides) 0 (start (s.withGirth thickness decay sides)) is) := by
  set s' := s.withGirth thickness decay sides
  have hcoupled : SameOutcome
      (fun m m' => Agree Turtle.path Mesh.skeleton m m' ∧ Fits s [] m ∧ Fits s' [] m')
      (run s 0 (start s) is) (run s' 0 (start s') is) := by
    apply run_coupled (R := fun rest m m' =>
      Agree Turtle.path Mesh.skeleton m m' ∧ Fits s rest m ∧ Fits s' rest m')
    · rintro index i rest m m' ⟨hagree, hm, hm'⟩
      refine refusal?_congr rfl hagree.length_saved rfl fun hc => ?_
      rw [hm.refusal?_of_draw hc, hm'.refusal?_of_draw hc]
    · rintro index i rest m m' ⟨hagree, hm, hm'⟩ -
      refine ⟨hagree.obey rfl (path_movedTurtle hagree.turtle) fun hc => ?_, hm.obey, hm'.obey⟩
      have hposition : m.turtle.position = m'.turtle.position := congrArg Prod.fst hagree.turtle
      rw [mesh_obey_of_draw hc, mesh_obey_of_draw hc, Mesh.skeleton_addTube, Mesh.skeleton_addTube,
        hagree.mesh, hposition, position_tipTurtle hagree.turtle]
    · exact ⟨⟨rfl, rfl, rfl⟩, hfits, hfits'⟩
  exact hcoupled.imp fun _ _ h => h.1

end Machine

/-! ## The lengths and the shape of the tubes -/

/-- How a turtle is oriented and how thick it is. -/
def Turtle.pose (t : Turtle) : Rotation × Float32 × Vec3 := (t.rotation, t.thickness, t.branchAxis)

/-- The index buffer, the radii of the segments and the number of vertices. -/
def Mesh.gauge (m : Mesh) : Array UInt32 × List Float32 × ℕ :=
  (m.indices, m.segments.toList.map Segment.radius, m.vertexCount)

/-- Two interpretations have the same triangles, by their indices, and segments of the same radii,
and end with the same orientation, thickness and branch axis and with as many open branches. -/
structure Interpretation.SameGauge (r r' : Interpretation) : Prop where
  mesh : r.mesh.gauge = r'.mesh.gauge
  turtle : r.turtle.pose = r'.turtle.pose
  openBranches : r.openBranches = r'.openBranches

/-- A tube adds its strip, its radius and its vertices to the gauge. -/
theorem Mesh.gauge_addTube (m : Mesh) (before after : Turtle) (radius : Float32) (sides : ℕ) :
    (m.addTube before after radius sides).gauge =
      (m.gauge.1 ++ strip (UInt32.ofNat m.gauge.2.2) (UInt32.ofNat sides),
        m.gauge.2.1 ++ [radius], m.gauge.2.2 + 2 * sides) := by
  rw [gauge, segments_addTube, List.map_append, vertexCount_addTube]
  rfl

namespace Machine

variable {s s' : Setup} {m m' : Machine} {is : List Instruction} {i i' : Instruction} {index : ℕ}
variable {length decay : Float32}

/-- Turtles of the same thickness draw tubes of the same shape. -/
theorem gauge_obey_of_draw (hc : i.command = .draw) (hc' : i'.command = .draw)
    (hsides : s.settings.sides = s'.settings.sides)
    (hthickness : m.turtle.thickness = m'.turtle.thickness)
    (hgauge : m.mesh.gauge = m'.mesh.gauge) :
    (m.obey s i).mesh.gauge = (m'.obey s' i').mesh.gauge := by
  rw [mesh_obey_of_draw hc, mesh_obey_of_draw hc', Mesh.gauge_addTube, Mesh.gauge_addTube,
    hgauge, radius, radius, hthickness, hsides]

/-- Machines that have drawn tubes of the same shapes refuse to draw another alike. -/
theorem refusal?_of_draw_of_gauge (hc : i.command = .draw) (hc' : i'.command = .draw)
    (hsides : s.settings.sides = s'.settings.sides) (hgauge : m.mesh.gauge = m'.mesh.gauge) :
    m.refusal? s index i = m'.refusal? s' index i' := by
  have hcount : m.mesh.vertexCount = m'.mesh.vertexCount :=
    congrArg (fun gauge => gauge.2.2) hgauge
  simp only [refusal?, hc, hc', hcount, hsides]

/-- Turtles of the same pose that obey the same instruction keep the same pose, whatever their
lengths are. -/
theorem pose_movedTurtle {t t' : Turtle} (h : t.pose = t'.pose) :
    (movedTurtle s t i).pose = (movedTurtle (s.withLengths length decay) t' i).pose := by
  obtain ⟨p, q, w, l, a⟩ := t
  obtain ⟨p', q', w', l', a'⟩ := t'
  simp only [Turtle.pose, Prod.mk.injEq] at h
  obtain ⟨rfl, rfl, rfl⟩ := h
  unfold movedTurtle
  cases i.command <;>
    simp only [Turtle.pose, tipTurtle, Turtle.advance, Turtle.heading, Turtle.pitch,
      Turtle.azimuth, Turtle.enterBranch, Setup.withLengths]

/-- Two runs that differ in the lengths fail alike or agree in the shape of the tubes. -/
theorem run_withLengths (s : Setup) (length decay : Float32) (is : List Instruction) :
    SameOutcome (Agree Turtle.pose Mesh.gauge) (run s 0 (start s) is)
      (run (s.withLengths length decay) 0 (start (s.withLengths length decay)) is) := by
  apply run_coupled (R := fun _ m m' => Agree Turtle.pose Mesh.gauge m m')
  · intro index i rest m m' hagree
    exact refusal?_congr rfl hagree.length_saved rfl fun hc =>
      refusal?_of_draw_of_gauge hc hc rfl hagree.mesh
  · intro index i rest m m' hagree _
    have hthickness : m.turtle.thickness = m'.turtle.thickness :=
      congrArg (fun pose => pose.2.1) hagree.turtle
    exact hagree.obey rfl (pose_movedTurtle hagree.turtle) fun hc =>
      gauge_obey_of_draw hc hc rfl hthickness hagree.mesh
  · exact ⟨rfl, rfl, rfl⟩

/-! ## The depth limit -/

/-- A higher depth limit changes a run only if it failed because of the limit. -/
theorem run_withDepthLimit {limit : UInt64}
    (hle : s.settings.depthLimit.toNat ≤ limit.toNat)
    (h : ∀ j l, run s index m is ≠ .error (.tooDeep j l)) :
    run (s.withDepthLimit limit) index m is = run s index m is := by
  induction is generalizing m index with
  | nil => rfl
  | cons i rest ih =>
    have hobey : m.obey (s.withDepthLimit limit) i = m.obey s i := by
      unfold obey
      cases i.command <;> rfl
    have hrefuse : m.refusal? (s.withDepthLimit limit) index i = m.refusal? s index i := by
      by_cases hc : i.command = .openBranch
      · have hroom : ¬ s.settings.depthLimit.toNat ≤ m.saved.length := by
          intro hfull
          apply h index s.settings.depthLimit.toNat
          simp only [run, step_eq, refusal?, hc, if_pos hfull]
        have hroom' : ¬ (s.withDepthLimit limit).settings.depthLimit.toNat ≤ m.saved.length := by
          change ¬ limit.toNat ≤ m.saved.length
          omega
        simp only [refusal?, hc, if_neg hroom, if_neg hroom']
      · unfold refusal?
        cases hcommand : i.command with
        | openBranch => exact absurd hcommand hc
        | _ => rfl
    simp only [run, step_eq, hrefuse, hobey] at h ⊢
    cases hcause : m.refusal? s index i with
    | some e => rfl
    | none =>
      rw [hcause] at h
      exact ih h

end Machine

/-! ## Interpretations -/

namespace Setup

open Machine

variable {s : Setup}

/-- Where the setup is sound, an interpretation is a run. -/
theorem interpretText_of_sound (hs : s.fault? = none) (word : String) :
    s.interpretText word =
      (run s 0 (start s) (word.toList.map symbolInstruction)).map Machine.result := by
  rw [interpretText, interpret, hs]

/-- There is room for a word that draws no more vertices than can be indexed. -/
theorem fits_start {word : String}
    (h : 2 * s.settings.sides.toNat * word.toList.count 'F' ≤ 2 ^ 32 - 1) :
    Fits s (word.toList.map symbolInstruction) (start s) := by
  have hmax : maxVertices = 2 ^ 32 - 1 := rfl
  rw [Fits, Marks.countP_draws_text, hmax]
  change 0 + _ ≤ _
  omega

/-- Parameters influence only what they name.  Given two sound setups and any word: if the setups
differ in the girth only, and both can index the vertices of the word, both interpretations fail
alike or have the same skeleton; if they differ in the lengths only, both fail alike or have the
same indices, radii and orientations; and if they differ in the depth limit only, and the lower
limit is not exceeded, both have the same outcome altogether. -/
theorem interpretText_influence (hs : s.fault? = none) (word : String) :
    (∀ thickness decay sides, (s.withGirth thickness decay sides).fault? = none →
      2 * s.settings.sides.toNat * word.toList.count 'F' ≤ 2 ^ 32 - 1 →
      2 * sides.toNat * word.toList.count 'F' ≤ 2 ^ 32 - 1 →
      SameOutcome Interpretation.SameSkeleton (s.interpretText word)
        ((s.withGirth thickness decay sides).interpretText word)) ∧
    (∀ length decay, (s.withLengths length decay).fault? = none →
      SameOutcome Interpretation.SameGauge (s.interpretText word)
        ((s.withLengths length decay).interpretText word)) ∧
    ∀ limit, (s.withDepthLimit limit).fault? = none →
      s.settings.depthLimit.toNat ≤ limit.toNat →
      (∀ index l, s.interpretText word ≠ .error (.tooDeep index l)) →
      (s.withDepthLimit limit).interpretText word = s.interpretText word := by
  refine ⟨?_, ?_, ?_⟩
  · intro thickness decay sides hs' hdraws hdraws'
    rw [interpretText_of_sound hs, interpretText_of_sound hs']
    refine (run_withGirth (fits_start hdraws) (fits_start hdraws')).map fun m m' h => ?_
    exact ⟨h.mesh, h.turtle, h.length_saved⟩
  · intro length decay hs'
    rw [interpretText_of_sound hs, interpretText_of_sound hs']
    refine (run_withLengths s length decay _).map fun m m' h => ?_
    exact ⟨h.mesh, h.turtle, h.length_saved⟩
  · intro limit hs' hle hdeep
    rw [interpretText_of_sound hs] at hdeep ⊢
    rw [interpretText_of_sound hs']
    have hrun : run (s.withDepthLimit limit) 0 (start s) (word.toList.map symbolInstruction) =
        run s 0 (start s) (word.toList.map symbolInstruction) :=
      run_withDepthLimit hle fun index l hfail => by
        apply hdeep index l
        rw [hfail]
        rfl
    exact congrArg (Except.map Machine.result) hrun

/-- A word that draws, branches and decays, with setups that differ in each of the three ways. -/
theorem interpretText_influence_of_branch :
    let s := standard
    let word := "F[+#$F]F"
    SameOutcome Interpretation.SameSkeleton (s.interpretText word)
        ((s.withGirth 3 0.5 7).interpretText word) ∧
      SameOutcome Interpretation.SameGauge (s.interpretText word)
        ((s.withLengths 2 1.5).interpretText word) ∧
      (s.withDepthLimit 2000).interpretText word = s.interpretText word := by
  intro s word
  obtain ⟨hgirth, hlengths, hlimit⟩ :=
    interpretText_influence (s := s) (by decide +kernel) word
  refine ⟨hgirth 3 0.5 7 (by decide +kernel) (by decide) (by decide),
    hlengths 2 1.5 (by decide +kernel), hlimit 2000 (by decide +kernel) (by decide) ?_⟩
  intro index l hfail
  obtain ⟨r, hr⟩ : ∃ r, s.interpret (word.toList.map symbolInstruction) = .ok r :=
    exists_result (by decide +kernel)
  rw [interpretText, hr] at hfail
  cases hfail

end Setup

end BranchingTubes
