import BranchingTubes.Proofs.LiveWords
import BranchingTubes.Proofs.TubeEmission
import Mathlib

/-!
# A closed branch leaves no trace outside itself

What is drawn after a closed branch is what would be drawn without it.  The machine that
runs over the live part of a word ends with the same turtle and the same saved turtles as
the machine that runs over the word (`run_live`), because a branch that closes returns to
the turtle that was saved where it opened, and that is where the live part is cut.  The
tube of a symbol depends only on the turtle that draws it, so it is the last tube of the
live part of the word up to that symbol (`interpretText_live`).
-/

set_option autoImplicit false

namespace BranchingTubes

namespace Machine

variable {s : Setup} {index : Nat} {a b m m' : Machine} {is : List Instruction} {i : Instruction}

/-- A run over instructions that neither open nor close branches saves no turtle and gives
none back. -/
theorem saved_of_run_unbranched (h : run s index m is = .ok m')
    (ho : ∀ i ∈ is, Marks.instruction.opens i = false)
    (hc : ∀ i ∈ is, Marks.instruction.closes i = false) : m'.saved = m.saved := by
  induction is using List.reverseRecOn generalizing m' with
  | nil =>
    obtain rfl : m = m' := by simpa [run] using h
    rfl
  | append_singleton is i ih =>
    obtain ⟨mid, hmid, -, rfl⟩ := run_concat_ok_iff.mp h
    have hi : i.command ≠ .openBranch ∧ i.command ≠ .closeBranch := by
      constructor
      · intro hopen
        simpa [Marks.instruction_opens_iff.mpr hopen] using ho i (by simp)
      · intro hclose
        simpa [Marks.instruction_closes_iff.mpr hclose] using hc i (by simp)
    rw [← ih hmid (fun j hj => ho j (by simp [hj])) fun j hj => hc j (by simp [hj])]
    unfold obey
    cases hcommand : i.command with
    | openBranch => exact absurd hcommand hi.1
    | closeBranch => exact absurd hcommand hi.2
    | _ => rfl

/-- One machine is where another is and has the same turtles saved, but may have drawn
less. -/
structure Shadows (a b : Machine) : Prop where
  turtle : a.turtle = b.turtle
  saved : a.saved = b.saved
  vertexCount : a.mesh.vertexCount ≤ b.mesh.vertexCount

/-- A machine that has drawn less refuses nothing that the other obeys. -/
theorem Shadows.refusal?_eq_none (h : a.Shadows b) (hb : b.refusal? s index i = none) :
    a.refusal? s index i = none := by
  rw [refusal?_eq_none_iff] at hb ⊢
  obtain ⟨hdraw, hopen, hclose⟩ := hb
  rw [h.saved]
  refine ⟨fun hi => ?_, hopen, hclose⟩
  have := h.vertexCount
  have := hdraw hi
  omega

/-- A machine that shadows another one still does so when both obey an instruction. -/
theorem Shadows.obey (h : a.Shadows b) (s : Setup) (i : Instruction) :
    (a.obey s i).Shadows (b.obey s i) := by
  obtain ⟨hturtle, hsaved, hcount⟩ := h
  refine ⟨?_, ?_, ?_⟩
  · unfold Machine.obey
    cases i.command with
    | closeBranch => rw [hsaved]; cases b.saved <;> simp [hturtle]
    | _ => simp [hturtle]
  · unfold Machine.obey
    cases i.command with
    | closeBranch => rw [hsaved]; cases b.saved <;> simp [hsaved]
    | _ => simp [hturtle, hsaved]
  · rw [vertexCount_obey, vertexCount_obey]
    omega

/-- The machine that closes a branch is back where the branch was opened. -/
theorem Shadows.closeBranch {us vs : List Instruction} {o c : Instruction} {mid : Machine}
    (hopen : Marks.instruction.opens o) (hclose : Marks.instruction.closes c)
    (hvo : ∀ i ∈ vs, Marks.instruction.opens i = false)
    (hvc : ∀ i ∈ vs, Marks.instruction.closes i = false)
    (hrun : run s 0 m (us ++ o :: vs) = .ok a) (hus : run s 0 m us = .ok mid)
    (hab : a.Shadows b) : mid.Shadows (b.obey s c) := by
  rw [show us ++ o :: vs = (us ++ [o]) ++ vs by simp] at hrun
  obtain ⟨opened, hopened, hvs⟩ := run_append_ok_iff.mp hrun
  obtain ⟨mid', hmid', -, rfl⟩ := run_concat_ok_iff.mp hopened
  obtain rfl : mid = mid' := by simpa [hus] using hmid'
  have hsaved : b.saved = mid.turtle :: mid.saved := by
    rw [← hab.saved, saved_of_run_unbranched hvs hvo hvc]
    simp [Machine.obey, Marks.instruction_opens_iff.mp hopen]
  have hcount : mid.mesh.vertexCount ≤ b.mesh.vertexCount := by
    refine le_trans ?_ hab.vertexCount
    rw [vertexCount_of_run hvs, vertexCount_obey]
    omega
  have hobey : b.obey s c = { b with turtle := mid.turtle, saved := mid.saved } := by
    simp [Machine.obey, Marks.instruction_closes_iff.mp hclose, hsaved]
  rw [hobey]
  exact ⟨rfl, rfl, hcount⟩

/-- The run over the live part of a list succeeds when the run over the list does, and ends
in the same place.  Nothing in the live part closes a branch. -/
theorem run_live (h : run s 0 (start s) is = .ok m) :
    (∀ i ∈ Marks.instruction.live is, Marks.instruction.closes i = false) ∧
      ∃ m', run s 0 (start s) (Marks.instruction.live is) = .ok m' ∧ m'.Shadows m := by
  refine run_induction ?_ (fun is i mid _ hnone ih => ?_) h
  · exact ⟨by simp, _, rfl, rfl, rfl, le_rfl⟩
  · obtain ⟨hclosed, mid', hmid', hshadow⟩ := ih
    rw [Marks.live_concat]
    cases hi : Marks.instruction.closes i with
    | false =>
      rw [Marks.liveStep_of_not_closes hi]
      refine ⟨?_, mid'.obey s i, ?_, hshadow.obey s i⟩
      · intro j hj
        rcases List.mem_append.mp hj with hj | hj
        · exact hclosed j hj
        · rw [List.mem_singleton.mp hj, hi]
      · exact run_concat_ok_iff.mpr ⟨mid', hmid', hshadow.refusal?_eq_none hnone, rfl⟩
    | true =>
      -- A turtle is saved, so the live part has an open branch, and `i` closes it.
      have hsaved : mid'.saved ≠ [] := by
        rw [hshadow.saved]
        exact (refusal?_eq_none_iff.mp hnone).2.2 (Marks.instruction_closes_iff.mp hi)
      have hopen : 0 < (Marks.instruction.live is).countP Marks.instruction.opens := by
        by_contra hzero
        apply hsaved
        refine saved_of_run_unbranched hmid' ?_ hclosed
        simpa [List.countP_eq_zero] using hzero
      obtain ⟨us, o, vs, hlive, ho, hvs⟩ := Marks.exists_last_open hopen
      rw [hlive] at hclosed hmid' ⊢
      rw [Marks.liveStep_of_closes hi ho hvs]
      obtain ⟨before, hbefore, -⟩ := run_append_ok_iff.mp hmid'
      refine ⟨fun j hj => hclosed j (by simp [hj]), before, hbefore, ?_⟩
      exact .closeBranch ho hi hvs (fun j hj => hclosed j (by simp [hj])) hmid' hbefore hshadow

/-- Where nothing closes a branch, every opening symbol leaves a saved turtle. -/
theorem saved_length_of_run_unclosed (h : run s 0 (start s) is = .ok m)
    (hc : ∀ i ∈ is, Marks.instruction.closes i = false) :
    m.saved.length = is.countP Marks.instruction.opens := by
  have hcount := saved_length_of_run h
  have hnone : is.countP Marks.instruction.closes = 0 := by
    simpa [List.countP_eq_zero] using hc
  simpa [Marks.excess, hnone, start] using hcount

/-- The tube that an instruction draws comes last in the run over the live part of the
list up to that instruction. -/
theorem emitted_live {us vs : List Instruction} (h : run s 0 (start s) (us ++ i :: vs) = .ok m)
    (hi : i.command = .draw) :
    let sides := s.settings.sides.toNat
    let number := us.countP Marks.instruction.draws
    ∃ m' segment, run s 0 (start s) (Marks.instruction.live (us ++ [i])) = .ok m' ∧
      m.mesh.segments[number]? = some segment ∧ m'.mesh.segments.back? = some segment ∧
      m.mesh.tubeVertices sides number = m'.mesh.lastVertices (2 * sides) ∧
      (m'.mesh.lastVertices (2 * sides)).length = 2 * sides := by
  intro sides number
  have hprefix : ∃ mid, run s 0 (start s) us = .ok mid ∧ mid.refusal? s 0 i = none := by
    rw [show us ++ i :: vs = (us ++ [i]) ++ vs by simp] at h
    obtain ⟨after, hafter, -⟩ := run_append_ok_iff.mp h
    obtain ⟨mid, hmid, hnone, -⟩ := run_concat_ok_iff.mp hafter
    exact ⟨mid, hmid, hnone⟩
  obtain ⟨mid, hmid, hnone⟩ := hprefix
  obtain ⟨hsegment, hvertices⟩ := emitted_of_run h hi hmid
  obtain ⟨-, mid', hmid', hshadow⟩ := run_live hmid
  have hclose : Marks.instruction.closes i = false := by
    rw [Bool.eq_false_iff]
    intro hclose
    simp [Marks.instruction_closes_iff.mp hclose] at hi
  have hlast : (mid'.obey s i).mesh.lastVertices (2 * sides) =
      emittedVertices sides mid.turtle i := by
    rw [mesh_obey_of_draw hi, hshadow.turtle, Mesh.lastVertices, Mesh.vertexCount_addTube,
      Mesh.vertices_addTube, Nat.add_sub_cancel]
    exact List.drop_left' (Array.length_toList)
  refine ⟨mid'.obey s i, emittedSegment mid.turtle i, ?_, hsegment, ?_, ?_, ?_⟩
  · rw [Marks.live_concat, Marks.liveStep_of_not_closes hclose]
    exact run_concat_ok_iff.mpr ⟨mid', hmid', hshadow.refusal?_eq_none hnone, rfl⟩
  · rw [mesh_obey_of_draw hi, hshadow.turtle, ← Array.getLast?_toList, Mesh.segments_addTube,
      List.getLast?_concat, emittedSegment]
  · rw [hvertices, hlast]
  · rw [hlast, length_emittedVertices]

end Machine

/-- A word without its closed branches. -/
def liveText (word : String) : String := String.ofList (Marks.text.live word.toList)

namespace Setup

/-- The instructions of the live part of a word are the live part of its instructions. -/
theorem map_toList_liveText (word : String) :
    (liveText word).toList.map symbolInstruction =
      Marks.instruction.live (word.toList.map symbolInstruction) := by
  rw [liveText, String.toList_ofList, Marks.live_map, Marks.text_eq_comap]

/-- **Branch isolation.**  Interpreting a word ends where interpreting its live part ends,
with as many branches open as the live part has opening symbols; and every symbol that
draws emits the segment and the vertices that come last when the live part of the word up
to that symbol is interpreted. -/
theorem interpretText_live {s : Setup} {word : String} {r : Interpretation}
    (h : s.interpretText word = .ok r) :
    (∃ r', s.interpretText (liveText word) = .ok r' ∧ r'.turtle = r.turtle ∧
      r'.openBranches = r.openBranches ∧
      r.openBranches = (liveText word).toList.count '[') ∧
    ∀ u v : String, word = u ++ "F" ++ v →
      ∃ r' segment, s.interpretText (liveText (u ++ "F")) = .ok r' ∧
        r.mesh.segments[u.toList.count 'F']? = some segment ∧
        r'.mesh.segments.back? = some segment ∧
        r.mesh.tubeVertices s.settings.sides.toNat (u.toList.count 'F') =
          r'.mesh.lastVertices (2 * s.settings.sides.toNat) ∧
        (r'.mesh.lastVertices (2 * s.settings.sides.toNat)).length =
          2 * s.settings.sides.toNat := by
  obtain ⟨hfault, m, hrun, rfl⟩ := interpret_eq_ok_iff.mp h
  refine ⟨?_, ?_⟩
  · obtain ⟨hclosed, m', hrun', hshadow⟩ := Machine.run_live hrun
    have hopen := Machine.saved_length_of_run_unclosed hrun' hclosed
    rw [← map_toList_liveText] at hrun' hopen
    rw [Marks.countP_opens_text] at hopen
    refine ⟨m'.result, interpret_eq_ok_iff.mpr ⟨hfault, m', hrun', rfl⟩, hshadow.turtle, ?_, ?_⟩
    · exact congrArg List.length hshadow.saved
    · rw [← hopen, hshadow.saved]
      rfl
  · rintro u v rfl
    have hword : (u ++ "F" ++ v).toList.map symbolInstruction =
        u.toList.map symbolInstruction ++
          symbolInstruction 'F' :: v.toList.map symbolInstruction := by
      simp
    rw [hword] at hrun
    obtain ⟨m', segment, hrun', hsegment, hlast, hvertices, hlength⟩ :=
      Machine.emitted_live hrun rfl
    rw [Marks.countP_draws_text] at hsegment hvertices
    refine ⟨m'.result, segment, interpret_eq_ok_iff.mpr ⟨hfault, m', ?_, rfl⟩, hsegment, hlast,
      hvertices, hlength⟩
    rw [map_toList_liveText]
    simpa using hrun'

/-- A branch in a branch, and then one that is not closed: the last segment but one is drawn
as if the closed branch, with its three segments, were not there. -/
theorem interpretText_live_nested :
    ∃ r, standard.interpretText "F[+F[-F]>F]#F[$F" = .ok r ∧
      (∃ r', standard.interpretText "F#F[$F" = .ok r' ∧ r'.turtle = r.turtle ∧
        r'.openBranches = r.openBranches ∧ r.openBranches = 1) ∧
      ∃ r' segment, standard.interpretText "F#F" = .ok r' ∧
        r.mesh.segments[4]? = some segment ∧ r'.mesh.segments.back? = some segment ∧
        r.mesh.tubeVertices 5 4 = r'.mesh.lastVertices 10 ∧
        (r'.mesh.lastVertices 10).length = 10 := by
  obtain ⟨r, hr⟩ : ∃ r, standard.interpretText "F[+F[-F]>F]#F[$F" = .ok r :=
    exists_result (by decide +kernel)
  obtain ⟨⟨r', hr', hturtle, hbranches, hcount⟩, hdraws⟩ := interpretText_live hr
  have hword : liveText "F[+F[-F]>F]#F[$F" = "F#F[$F" := by decide +kernel
  have hprefix : liveText ("F[+F[-F]>F]#" ++ "F") = "F#F" := by decide +kernel
  rw [hword] at hr' hcount
  refine ⟨r, hr, ⟨r', hr', hturtle, hbranches, hcount⟩, ?_⟩
  rw [← hprefix]
  exact hdraws "F[+F[-F]>F]#" "[$F" (by decide +kernel)

end Setup

end BranchingTubes
