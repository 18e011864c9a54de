import BranchingTubes.Proofs.ParameterInfluence
import Mathlib

/-!
# Lengths that replace the turtle's own

A module of a derivation may bring a length of its own, which counts for the one segment that the
module draws.  Two derivations whose modules stand for the same commands make machines that differ
in nothing but positions: before each module the turtles, live and saved, agree in their bearing,
the running length included, and the tubes drawn so far have the same shape
(`Machine.run_sameCommands`).  So ages, parameters after the first and the parameters of modules
that do not draw are never read (`Machine.step_sameLength`).
-/

set_option autoImplicit false

namespace BranchingTubes

/-- Everything about a turtle but its position. -/
def Turtle.bearing (t : Turtle) : Rotation × Float32 × Float32 × Vec3 :=
  (t.rotation, t.thickness, t.length, t.branchAxis)

/-- The length of the segment that a module draws: that of its first parameter, rounded to single
precision, or else the turtle's own. -/
def SymbolModule.drawnLength (mod : SymbolModule) (t : Turtle) : Float32 :=
  match mod.parameters with
  | [] => usableExtent t.length
  | x :: _ => usableExtent (narrow x)

namespace Derivation

/-- The modules of two derivations stand for the same commands, one by one. -/
def SameCommands (commands : CommandMap) (d d' : Derivation) : Prop :=
  List.Forall₂ (fun mod mod' => commands.get mod.symbol = commands.get mod'.symbol)
    d.modules.toList d'.modules.toList

instance (commands : CommandMap) (d d' : Derivation) : Decidable (SameCommands commands d d') :=
  inferInstanceAs (Decidable (List.Forall₂ _ _ _))

/-- The modules of two derivations that draw do so with the same first parameter, rounded to single
precision, or none. -/
def SameLengths (commands : CommandMap) (d d' : Derivation) : Prop :=
  List.Forall₂ (fun mod mod' => commands.get mod.symbol = .draw →
      mod.parameters.head?.map narrow = mod'.parameters.head?.map narrow)
    d.modules.toList d'.modules.toList

instance (commands : CommandMap) (d d' : Derivation) : Decidable (SameLengths commands d d') :=
  inferInstanceAs (Decidable (List.Forall₂ _ _ _))

end Derivation

/-! ## Instructions that differ in the length -/

namespace Machine

variable {s : Setup} {m m' : Machine} {is is' : List Instruction} {i i' : Instruction} {index : ℕ}

/-- Turtles of the same bearing that obey the same command keep the same bearing, whatever their
lengths are. -/
theorem bearing_movedTurtle {t t' : Turtle} (hcommand : i.command = i'.command)
    (h : t.bearing = t'.bearing) : (movedTurtle s t i).bearing = (movedTurtle s t' i').bearing := by
  obtain ⟨p, q, w, l, a⟩ := t
  obtain ⟨p', q', w', l', a'⟩ := t'
  simp only [Turtle.bearing, Prod.mk.injEq] at h
  obtain ⟨rfl, rfl, rfl, rfl⟩ := h
  unfold movedTurtle
  rw [← hcommand]
  cases i.command <;>
    simp only [Turtle.bearing, tipTurtle, Turtle.advance, Turtle.heading, Turtle.pitch,
      Turtle.azimuth, Turtle.enterBranch]

/-- Two runs over the same commands fail alike, or agree in the bearing of each turtle and in the
shape of the tubes. -/
theorem run_sameCommands (h : List.Forall₂ (fun i i' => i.command = i'.command) is is')
    (hagree : Agree Turtle.bearing Mesh.gauge m m') (index : ℕ) :
    SameOutcome (Agree Turtle.bearing Mesh.gauge) (run s index m is) (run s index m' is') := by
  refine (run_coupled_pair (R := fun is is' m m' =>
    List.Forall₂ (fun i i' => i.command = i'.command) is is' ∧
      Agree Turtle.bearing Mesh.gauge m m')
    ?_ ?_ h.length_eq ⟨h, hagree⟩ index).imp fun _ _ hend => hend.2
  · rintro index i i' rest rest' m m' ⟨hall, hagree⟩
    obtain ⟨hcommand, -⟩ := List.forall₂_cons.mp hall
    exact refusal?_congr hcommand hagree.length_saved rfl fun hc =>
      refusal?_of_draw_of_gauge hc (hcommand ▸ hc) rfl hagree.mesh
  · rintro index i i' rest rest' m m' ⟨hall, hagree⟩ -
    obtain ⟨hcommand, hrest⟩ := List.forall₂_cons.mp hall
    have hthickness : m.turtle.thickness = m'.turtle.thickness :=
      congrArg (fun bearing => bearing.2.1) hagree.turtle
    have hmove := bearing_movedTurtle (s := s) hcommand hagree.turtle
    refine ⟨hrest, hagree.obey hcommand hmove fun hc => ?_⟩
    exact gauge_obey_of_draw hc (hcommand ▸ hc) rfl hthickness hagree.mesh

/-- The length that an instruction brings counts only if the instruction draws. -/
theorem step_sameLength (hcommand : i.command = i'.command)
    (hlength : i.command = .draw → i.segmentLength = i'.segmentLength) :
    m.step s index i = m.step s index i' := by
  unfold step
  rw [← hcommand]
  cases hc : i.command with
  | draw => rw [hlength hc]
  | _ => rfl

/-- A module advances the turtle by its own length if it has one, and by the turtle's if not. -/
theorem tipTurtle_instruction (commands : CommandMap) (mod : SymbolModule) (t : Turtle) :
    tipTurtle t (mod.instruction commands) = t.advance (mod.drawnLength t) := by
  unfold tipTurtle SymbolModule.drawnLength SymbolModule.instruction
  cases mod.parameters <;> rfl

end Machine

/-! ## Derivations -/

namespace Setup

open Machine

variable {s : Setup} {commands : CommandMap} {d d' : Derivation}

/-- The machine that has obeyed the first modules of a derivation. -/
def machineBefore (s : Setup) (commands : CommandMap) (d : Derivation) (k : ℕ) :
    Except InterpretationError Machine :=
  run s 0 (start s) ((d.modules.toList.take k).map (SymbolModule.instruction commands))

/-- The mesh of modules is that of the machine that has obeyed all of them. -/
theorem meshOfModules_eq (hs : s.fault? = none) :
    s.meshOfModules commands d = (s.machineBefore commands d d.modules.size).map Machine.mesh := by
  rw [machineBefore, ← Array.length_toList, List.take_length, meshOfModules, interpretModules,
    interpret, hs]
  cases run s 0 (start s) (d.modules.toList.map (SymbolModule.instruction commands)) <;> rfl

/-- Before each module, the machines of derivations with the same commands agree in all but
lengths. -/
theorem machineBefore_sameCommands (h : d.SameCommands commands d') (k : ℕ) :
    SameOutcome (Agree Turtle.bearing Mesh.gauge) (s.machineBefore commands d k)
      (s.machineBefore commands d' k) := by
  refine run_sameCommands ?_ ⟨rfl, rfl, rfl⟩ 0
  rw [List.forall₂_map_left_iff, List.forall₂_map_right_iff]
  exact List.forall₂_take k h

/-- What a module that draws adds to the machine before it, if the vertices can be indexed. -/
theorem machineBefore_succ_of_draw {k : ℕ} {mod : SymbolModule} {m : Machine}
    (hmod : d.modules[k]? = some mod) (hdraw : commands.get mod.symbol = .draw)
    (hm : s.machineBefore commands d k = .ok m)
    (hroom : m.mesh.vertexCount + 2 * s.settings.sides.toNat ≤ maxVertices) :
    ∃ m', s.machineBefore commands d (k + 1) = .ok m' ∧
      m'.turtle = m.turtle.advance (mod.drawnLength m.turtle) ∧
      m'.mesh.segments.toList =
        m.mesh.segments.toList ++ [⟨m.turtle.position, m'.turtle.position, radius m.turtle⟩] := by
  have hc : (mod.instruction commands).command = .draw := hdraw
  have hnone : m.refusal? s 0 (mod.instruction commands) = none := by
    simp only [refusal?, hc, if_neg (not_lt.mpr hroom)]
  have hfirst : d.modules.toList.take (k + 1) = d.modules.toList.take k ++ [mod] := by
    rw [List.take_add_one, Array.getElem?_toList, hmod]
    rfl
  have hturtle : (m.obey s (mod.instruction commands)).turtle =
      m.turtle.advance (mod.drawnLength m.turtle) := by
    rw [← tipTurtle_instruction commands]
    simp only [obey, hc]
  refine ⟨m.obey s (mod.instruction commands), ?_, hturtle, ?_⟩
  · rw [machineBefore, hfirst, List.map_append, List.map_singleton, run_concat_ok_iff]
    exact ⟨m, hm, hnone, rfl⟩
  · rw [mesh_obey_of_draw hc, Mesh.segments_addTube, hturtle, tipTurtle_instruction]

/-- Derivations with the same commands and the same lengths have the same mesh. -/
theorem meshOfModules_sameLengths (h : d.SameCommands commands d')
    (hlengths : d.SameLengths commands d') :
    s.meshOfModules commands d = s.meshOfModules commands d' := by
  have hrun : run s 0 (start s) (d.modules.toList.map (SymbolModule.instruction commands)) =
      run s 0 (start s) (d'.modules.toList.map (SymbolModule.instruction commands)) := by
    refine run_congr ?_ 0 _
    rw [List.forall₂_map_left_iff, List.forall₂_map_right_iff]
    refine List.Forall₂.mp (fun mod mod' hlength hcommand => ?_) hlengths h
    exact fun index m => step_sameLength hcommand hlength
  rw [meshOfModules, meshOfModules, interpretModules, interpretModules, interpret, interpret, hrun]

/-- Derivations with the same commands have meshes of the same gauge, or fail alike. -/
theorem meshOfModules_sameCommands (h : d.SameCommands commands d') :
    SameOutcome (fun mesh mesh' => mesh.gauge = mesh'.gauge) (s.meshOfModules commands d)
      (s.meshOfModules commands d') := by
  cases hs : s.fault? with
  | some e =>
    simp only [meshOfModules, interpretModules, interpret, hs]
    exact .error e
  | none =>
    have hsize : d.modules.size = d'.modules.size := h.length_eq
    rw [meshOfModules_eq hs, meshOfModules_eq hs, hsize]
    exact (machineBefore_sameCommands h _).map fun _ _ hagree => hagree.mesh

/-- **A length of its own counts for one segment only.**  For any setup, any command map and two
derivations whose modules stand for the same commands: both fail alike or have meshes with the same
indices and radii; before each module both have failed alike or agree in the bearing of the live
turtle and of each saved one; a module that draws, if the vertices can be indexed, advances by the
length that its first parameter gives, or else by the turtle's own; and if the modules that draw
have the same first parameters, the meshes are the same altogether. -/
theorem meshOfModules_override (s : Setup) (commands : CommandMap) (d d' : Derivation)
    (h : d.SameCommands commands d') :
    SameOutcome (fun mesh mesh' => mesh.gauge = mesh'.gauge)
        (s.meshOfModules commands d) (s.meshOfModules commands d') ∧
      (∀ k, SameOutcome (Agree Turtle.bearing Mesh.gauge)
        (s.machineBefore commands d k) (s.machineBefore commands d' k)) ∧
      (∀ k mod m, d.modules[k]? = some mod → commands.get mod.symbol = .draw →
        s.machineBefore commands d k = .ok m →
        m.mesh.vertexCount + 2 * s.settings.sides.toNat ≤ maxVertices →
        ∃ m', s.machineBefore commands d (k + 1) = .ok m' ∧
          m'.turtle = m.turtle.advance (mod.drawnLength m.turtle) ∧
          m'.mesh.segments.toList =
            m.mesh.segments.toList ++ [⟨m.turtle.position, m'.turtle.position, radius m.turtle⟩]) ∧
      (d.SameLengths commands d' → s.meshOfModules commands d = s.meshOfModules commands d') := by
  refine ⟨meshOfModules_sameCommands h, machineBefore_sameCommands h, ?_, ?_⟩
  · intro k mod m hmod hdraw hm hroom
    exact machineBefore_succ_of_draw hmod hdraw hm hroom
  · exact meshOfModules_sameLengths h

/-- A branch with a decayed length between two segments.  The lengths differ in the second
derivation; those of the third differ only before they are rounded, where both are infinite. -/
theorem meshOfModules_override_around_branch :
    let s := standard
    let commands : CommandMap := .ofList [.draw, .openBranch, .closeBranch, .decayLength]
    let d : Derivation :=
      ⟨#[⟨0, 0, [2]⟩, ⟨1, 0, []⟩, ⟨3, 0, []⟩, ⟨0, 0, [1e300]⟩, ⟨2, 0, []⟩, ⟨0, 0, []⟩], 8⟩
    let d' : Derivation :=
      ⟨#[⟨0, 5, [-1]⟩, ⟨1, 0, [3]⟩, ⟨3, 0, []⟩, ⟨0, 1, []⟩, ⟨2, 0, []⟩, ⟨0, 0, [4, 6]⟩], 8⟩
    let d'' : Derivation :=
      ⟨#[⟨0, 1, [2, 7]⟩, ⟨1, 0, [9]⟩, ⟨3, 0, []⟩, ⟨0, 0, [2e300]⟩, ⟨2, 4, []⟩, ⟨0, 0, []⟩], 8⟩
    ¬ d.SameLengths commands d' ∧
      SameOutcome (fun mesh mesh' => mesh.gauge = mesh'.gauge)
        (s.meshOfModules commands d) (s.meshOfModules commands d') ∧
      SameOutcome (Agree Turtle.bearing Mesh.gauge)
        (s.machineBefore commands d 4) (s.machineBefore commands d' 4) ∧
      (∃ m m', s.machineBefore commands d 3 = .ok m ∧ s.machineBefore commands d 4 = .ok m' ∧
        m'.turtle = m.turtle.advance 0) ∧
      s.meshOfModules commands d = s.meshOfModules commands d'' := by
  intro s commands d d' d''
  obtain ⟨hmesh, hbefore, hdraw, -⟩ :=
    meshOfModules_override s commands d d' (by decide +kernel)
  obtain ⟨-, -, -, hsame⟩ := meshOfModules_override s commands d d'' (by decide +kernel)
  obtain ⟨m, hm⟩ : ∃ m, s.machineBefore commands d 3 = .ok m := exists_ok (by decide +kernel)
  have hcount : m.mesh.vertexCount = 10 := by
    have hvertices : (s.machineBefore commands d 3).map (fun m => m.mesh.vertexCount) = .ok 10 := by
      decide +kernel
    rw [hm] at hvertices
    exact Except.ok.inj hvertices
  have hlength : SymbolModule.drawnLength ⟨0, 0, [1e300]⟩ m.turtle = 0 := by
    change usableExtent (narrow 1e300) = 0
    decide +kernel
  obtain ⟨m', hm', hturtle, -⟩ := hdraw 3 ⟨0, 0, [1e300]⟩ m (by decide +kernel) (by decide +kernel)
    hm (by rw [hcount]; decide +kernel)
  rw [hlength] at hturtle
  exact ⟨by decide +kernel, hmesh, hbefore 4, ⟨m, m', hm, hm', hturtle⟩, hsame (by decide +kernel)⟩

end Setup

end BranchingTubes
