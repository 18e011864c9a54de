import BranchingTubes.Proofs.BracketDepth
import BranchingTubes.Proofs.LivePositions
import Mathlib

/-!
# The branch axis follows the open branches

A branch axis is set where a branch is opened and never computed again; closing a branch
brings back the axis of the turtle that was saved.  What keeps it right is an invariant of
the whole stack: every turtle, the live one and the saved ones, has for its axis the heading
of the turtle saved below it, and the lowest one the heading of the start (`AxesFollow`).

For a word this means that the axis at its end is the heading at the end of the prefix that
stands before its last open branch (`branchAxis_eq_heading`).
-/

set_option autoImplicit false

namespace BranchingTubes

namespace Machine

variable {s : Setup} {index : ℕ} {m m' : Machine} {is : List Instruction} {i : Instruction}

/-- The branch axes of the live turtle and of the saved ones, innermost first, are the
headings of the saved turtles and, at last, of the turtle at the start. -/
def AxesFollow (s : Setup) (m : Machine) : Prop :=
  (m.turtle :: m.saved).map Turtle.branchAxis =
    m.saved.map Turtle.heading ++ [s.turtle.heading]

/-- At the start the axes follow: the live turtle has its own heading for an axis, and none is
saved. -/
theorem axesFollow_start (s : Setup) : (start s).AxesFollow s := rfl

/-- Only a symbol that opens or closes a branch changes the branch axis. -/
theorem branchAxis_obey (ho : Marks.instruction.opens i = false)
    (hc : Marks.instruction.closes i = false) (s : Setup) (m : Machine) :
    (m.obey s i).turtle.branchAxis = m.turtle.branchAxis := by
  unfold obey
  cases hi : i.command with
  | openBranch => simp [Marks.instruction_opens_iff.mpr hi] at ho
  | closeBranch => simp [Marks.instruction_closes_iff.mpr hi] at hc
  | _ => rfl

/-- A symbol that opens a branch makes the heading the branch axis. -/
theorem branchAxis_obey_of_opens (ho : Marks.instruction.opens i) (s : Setup) (m : Machine) :
    (m.obey s i).turtle.branchAxis = m.turtle.heading := by
  unfold obey
  rw [Marks.instruction_opens_iff.mp ho]
  rfl

/-- The axes still follow after any instruction has been obeyed. -/
theorem AxesFollow.obey (h : m.AxesFollow s) (i : Instruction) : (m.obey s i).AxesFollow s := by
  unfold AxesFollow at h ⊢
  cases hi : i.command with
  | openBranch =>
    -- The heading of the turtle that is saved becomes the axis of the live one.
    simp only [Machine.obey, hi, List.map_cons, Turtle.enterBranch, List.cons_append] at h ⊢
    rw [h]
  | closeBranch =>
    cases hsaved : m.saved with
    | nil =>
      simp only [Machine.obey, hi, hsaved] at h ⊢
      exact h
    | cons t rest =>
      simp only [Machine.obey, hi, hsaved, List.map_cons, List.cons_append] at h ⊢
      exact (List.cons.inj h).2
  | _ =>
    simp only [Machine.obey, hi]
    exact h

/-- The axes follow at the end of every run. -/
theorem axesFollow_of_run (h : run s 0 (start s) is = .ok m) : m.AxesFollow s := by
  refine run_induction ?_ (fun is i mid _ _ ih => ?_) h
  · exact axesFollow_start s
  · exact ih.obey i

end Machine

/-- The prefix of a word before its last opening symbol that no later symbol closes, or the
empty word if every opening symbol is closed. -/
def beforeLastOpen (word : String) : String :=
  String.ofList (word.toList.take ((Marks.text.lastLive? Marks.text.opens word.toList).getD 0))

/-- The last open branch begins at a bracket after which every branch is closed. -/
theorem beforeLastOpen_append (u : String) {v : String}
    (hv : Marks.text.WellBracketed v.toList) : beforeLastOpen (u ++ "[" ++ v) = u := by
  have hlast : Marks.text.lastLive? Marks.text.opens (u.toList ++ '[' :: v.toList) =
      some u.toList.length :=
    Marks.lastLive?_append_cons rfl rfl hv.nonneg hv.not_opens_of_mem_live u.toList
  have hword : (u ++ "[" ++ v).toList = u.toList ++ '[' :: v.toList := by simp
  unfold beforeLastOpen
  rw [hword, hlast, Option.getD_some, List.take_left, String.ofList_toList]

/-- Nothing stands before the last open branch if every branch is closed. -/
theorem beforeLastOpen_of_wellBracketed {word : String}
    (h : Marks.text.WellBracketed word.toList) : beforeLastOpen word = "" := by
  have hlast : Marks.text.lastLive? Marks.text.opens word.toList = none :=
    Marks.lastLive?_eq_none_iff.mpr h.not_opens_of_mem_live
  unfold beforeLastOpen
  rw [hlast]
  rfl

namespace Setup

/-- The branch axis at the end of a word is the heading at the end of what stands before its last
unmatched opening symbol. -/
theorem branchAxis_eq_heading {s : Setup} {word : String} {r : Interpretation}
    (h : s.interpretText word = .ok r) :
    ∃ r', s.interpretText (beforeLastOpen word) = .ok r' ∧
      r.turtle.branchAxis = r'.turtle.heading := by
  obtain ⟨hfault, m, hrun, rfl⟩ := interpret_eq_ok_iff.mp h
  obtain ⟨hnone, hsome⟩ := Machine.feature_at_lastLive Turtle.branchAxis
    (fun i ho hc m => Machine.branchAxis_obey ho hc s m) hrun
  have hlive : Marks.instruction.lastLive? Marks.instruction.opens
      (word.toList.map symbolInstruction) =
      Marks.text.lastLive? Marks.text.opens word.toList := by
    rw [Marks.lastLive?_map, Marks.text_eq_comap]
    rfl
  rw [hlive] at hnone hsome
  unfold beforeLastOpen
  cases hlast : Marks.text.lastLive? Marks.text.opens word.toList with
  | none =>
    refine ⟨(Machine.start s).result, interpret_eq_ok_iff.mpr ⟨hfault, _, rfl, rfl⟩, ?_⟩
    exact hnone hlast
  | some j =>
    obtain ⟨i, mid, -, hopens, hmid, haxis⟩ := hsome j hlast
    rw [← List.map_take] at hmid
    refine ⟨mid.result, interpret_eq_ok_iff.mpr ⟨hfault, mid, ?_, rfl⟩, ?_⟩
    · rw [Option.getD_some, String.toList_ofList]
      exact hmid
    · rw [Machine.branchAxis_obey_of_opens hopens] at haxis
      exact haxis

/-- **The branch axis.**  After any instructions, each axis is the heading of the turtle
saved below, or of the start; and the axis that is left at the end of a word is the heading
that was left before the last branch that stays open. -/
theorem interpret_branchAxis (s : Setup) :
    (∀ (is : List Instruction) (m : Machine), Machine.run s 0 (.start s) is = .ok m →
      m.AxesFollow s) ∧
    ∀ (word : String) (r : Interpretation), s.interpretText word = .ok r →
      ∃ r', s.interpretText (beforeLastOpen word) = .ok r' ∧
        r.turtle.branchAxis = r'.turtle.heading :=
  ⟨fun _ _ h => Machine.axesFollow_of_run h, fun _ _ h => branchAxis_eq_heading h⟩

/-- Two closed branches, one inside the other, and two that stay open. -/
theorem interpret_branchAxis_nested :
    ∃ m r', Machine.run standard 0 (.start standard)
        ("+[>F[-F]F]-[<F[#F".toList.map symbolInstruction) = .ok m ∧
      m.AxesFollow standard ∧ m.saved.length = 2 ∧
      standard.interpretText "+[>F[-F]F]-[<F" = .ok r' ∧
      m.turtle.branchAxis = r'.turtle.heading := by
  obtain ⟨r, hr⟩ : ∃ r, standard.interpretText "+[>F[-F]F]-[<F[#F" = .ok r :=
    exists_result (by decide +kernel)
  have hbefore : beforeLastOpen "+[>F[-F]F]-[<F[#F" = "+[>F[-F]F]-[<F" :=
    beforeLastOpen_append "+[>F[-F]F]-[<F" (v := "#F") (by decide +kernel)
  obtain ⟨hfollow, haxis⟩ := interpret_branchAxis standard
  obtain ⟨r', hr', hheading⟩ := haxis _ r hr
  obtain ⟨-, m, hrun, rfl⟩ := interpret_eq_ok_iff.mp hr
  have hsaved := Machine.saved_length_of_run hrun
  rw [hbefore] at hr'
  refine ⟨m, r', hrun, hfollow _ m hrun, ?_, hr', hheading⟩
  have hexcess : Marks.instruction.excess ("+[>F[-F]F]-[<F[#F".toList.map symbolInstruction) = 2 := by
    decide +kernel
  have hstart : (Machine.start standard).saved.length = 0 := rfl
  omega

end Setup

end BranchingTubes
