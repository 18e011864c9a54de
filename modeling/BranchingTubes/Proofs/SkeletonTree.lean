import BranchingTubes.Proofs.LivePositions
import Mathlib

/-!
# The segments form a tree

The segments of a mesh hang together: each starts at the origin or where an earlier one
ends.  Which one that is depends on the symbols alone.  `parent?` takes the live part of
what stands before a drawing symbol; its last drawing symbol has drawn the parent, and
without one the segment starts at the origin.

Only drawing moves the turtle, apart from closing a branch, so this is the rule for a
feature of the turtle at the last live symbol (`Machine.feature_at_lastLive`), applied to
the position.
-/

set_option autoImplicit false

namespace BranchingTubes

/-- The number of the segment from whose tip the next segment is drawn, after some symbols;
nothing if it is drawn from the origin. -/
def parent? (before : List Char) : Option ℕ :=
  (Marks.text.lastLive? Marks.text.draws before).map fun index => (before.take index).count 'F'

/-- Only an `F` draws. -/
theorem Marks.not_draws_text_iff {w : List Char} :
    (∀ c ∈ w, Marks.text.draws c = false) ↔ 'F' ∉ w := by
  constructor
  · intro h hmem
    simpa [Marks.text] using h 'F' hmem
  · intro h c hc
    show (c == 'F') = false
    rw [beq_eq_false_iff_ne]
    rintro rfl
    exact h hc

/-- A segment has no parent where no `F` before it is still live. -/
theorem parent?_eq_none_iff {before : List Char} :
    parent? before = none ↔ 'F' ∉ Marks.text.live before := by
  unfold parent?
  rw [Option.map_eq_none_iff, Marks.lastLive?_eq_none_iff, Marks.not_draws_text_iff]

/-- A parent is drawn before its children. -/
theorem parent?_lt {before : List Char} {number : ℕ} (h : parent? before = some number) :
    number < before.count 'F' := by
  unfold parent? at h
  obtain ⟨j, hj, rfl⟩ := Option.map_eq_some_iff.mp h
  obtain ⟨us, c, vs, hlive, hkind, -⟩ := Marks.exists_of_lastLive? hj
  have hprefix : us ++ [(c, j)] <+: Marks.text.liveAt before := by
    rw [hlive]
    exact ⟨vs, by simp⟩
  obtain ⟨hc, -⟩ := Marks.liveAt_take hprefix
  obtain rfl : c = 'F' := by simpa [Marks.text] using hkind
  have hnext : before.take (j + 1) = before.take j ++ ['F'] := by
    rw [List.take_add_one, hc]
    rfl
  calc (before.take j).count 'F' < (before.take (j + 1)).count 'F' := by rw [hnext]; simp
    _ ≤ before.count 'F' := (List.take_sublist (j + 1) before).count_le 'F'

/-- A segment is drawn from the tip of the one that an `F` has drawn, if the word closes no
branch after this `F` but those it opens, and draws outside them no more. -/
theorem parent?_append_cons {after : List Char}
    (hafter : ∀ t, t <+: after → 0 ≤ Marks.text.excess t)
    (hlater : 'F' ∉ Marks.text.live after) (before : List Char) :
    parent? (before ++ 'F' :: after) = some (before.count 'F') := by
  unfold parent?
  rw [Marks.lastLive?_append_cons rfl rfl hafter (Marks.not_draws_text_iff.mpr hlater) before,
    Option.map_some, List.take_left]

/-- A segment keeps its number when more is drawn. -/
theorem Mesh.Extends.getElem?_segments {m m' : Mesh} (h : m.Extends m') {number : ℕ}
    {segment : Segment} (hsegment : m.segments[number]? = some segment) :
    m'.segments[number]? = some segment := by
  rw [← Array.getElem?_toList] at hsegment ⊢
  obtain ⟨hlt, -⟩ := List.getElem?_eq_some_iff.mp hsegment
  obtain ⟨rest, hrest⟩ := h.segments
  rw [← hrest, List.getElem?_append_left hlt, hsegment]

namespace Machine

variable {s : Setup} {m : Machine} {is : List Instruction} {i : Instruction}

/-- Only drawing and returning from a branch move the turtle. -/
theorem position_obey (hd : Marks.instruction.draws i = false)
    (hc : Marks.instruction.closes i = false) (s : Setup) (m : Machine) :
    (m.obey s i).turtle.position = m.turtle.position := by
  unfold obey
  cases hi : i.command with
  | draw => simp [Marks.instruction_draws_iff.mpr hi] at hd
  | closeBranch => simp [Marks.instruction_closes_iff.mpr hi] at hc
  | _ => rfl

/-- Where a run has come to is the tip of the segment that the last live instruction to draw
has emitted, and the origin if there is none. -/
theorem position_of_run (h : run s 0 (start s) is = .ok m) :
    (Marks.instruction.lastLive? Marks.instruction.draws is = none →
      m.turtle.position = .zero) ∧
    ∀ j, Marks.instruction.lastLive? Marks.instruction.draws is = some j →
      ∃ parent, m.mesh.segments[(is.take j).countP Marks.instruction.draws]? = some parent ∧
        m.turtle.position = parent.tip := by
  obtain ⟨hnone, hsome⟩ := feature_at_lastLive Turtle.position
    (fun i hd hc m => position_obey hd hc s m) h
  refine ⟨hnone, ?_⟩
  intro j hj
  obtain ⟨i, mid, hi, hdraws, hmid, hposition⟩ := hsome j hj
  have hcommand := Marks.instruction_draws_iff.mp hdraws
  have hsplit : is = is.take j ++ i :: is.drop (j + 1) := by
    obtain ⟨hlt, rfl⟩ := List.getElem?_eq_some_iff.mp hi
    rw [← List.drop_eq_getElem_cons hlt, List.take_append_drop]
  rw [hsplit] at h
  refine ⟨emittedSegment mid.turtle i, (emitted_of_run h hcommand hmid).1, ?_⟩
  rw [hposition]
  unfold obey
  rw [hcommand]
  rfl

end Machine

namespace Setup

/-- **The skeleton is a tree.**  Every symbol that draws emits a segment, which starts at the
origin if the live part of the word before it draws nothing, and otherwise at the tip of the
segment drawn, earlier in the same word, by the last drawing symbol of that live part. -/
theorem interpretText_tree {s : Setup} {word : String} {r : Interpretation}
    (h : s.interpretText word = .ok r) (u v : String) (hword : word = u ++ "F" ++ v) :
    ∃ segment, r.mesh.segments[u.toList.count 'F']? = some segment ∧
      match parent? u.toList with
      | none => segment.base = .zero
      | some number => number < u.toList.count 'F' ∧
          ∃ parent, r.mesh.segments[number]? = some parent ∧ segment.base = parent.tip := by
  obtain ⟨-, m, hrun, rfl⟩ := interpret_eq_ok_iff.mp h
  have hsplit : word.toList.map symbolInstruction =
      u.toList.map symbolInstruction ++
        symbolInstruction 'F' :: v.toList.map symbolInstruction := by
    simp [hword]
  rw [hsplit] at hrun
  obtain ⟨mid, hmid, hrest⟩ := Machine.run_append_ok_iff.mp hrun
  obtain ⟨hsegment, -⟩ := Machine.emitted_of_run hrun rfl hmid
  obtain ⟨hnone, hsome⟩ := Machine.position_of_run hmid
  have hlive : Marks.instruction.lastLive? Marks.instruction.draws
      (u.toList.map symbolInstruction) = Marks.text.lastLive? Marks.text.draws u.toList := by
    rw [Marks.lastLive?_map, Marks.text_eq_comap]
    rfl
  rw [hlive] at hnone hsome
  rw [Marks.countP_draws_text] at hsegment
  refine ⟨_, hsegment, ?_⟩
  cases hparent : parent? u.toList with
  | none => exact hnone (Option.map_eq_none_iff.mp hparent)
  | some number =>
    obtain ⟨j, hj, hnumber⟩ := Option.map_eq_some_iff.mp hparent
    obtain ⟨parent, hdrawn, htip⟩ := hsome j hj
    rw [← List.map_take, Marks.countP_draws_text, hnumber] at hdrawn
    exact ⟨parent?_lt hparent, parent, (Machine.extends_of_run hrest).getElem?_segments hdrawn, htip⟩

/-- A trunk of two segments, and on the first of them a branch of two, which carries a twig
of its own.  The second segment of the branch goes on where the twig left it, and the second
of the trunk where the branch did. -/
theorem interpretText_tree_nested :
    ∃ r trunk branch, standard.interpretText "F[+F[-F]>F]#F" = .ok r ∧
      r.mesh.segments[0]? = some trunk ∧ trunk.base = .zero ∧
      r.mesh.segments[1]? = some branch ∧ branch.base = trunk.tip ∧
      (∃ second, r.mesh.segments[3]? = some second ∧ second.base = branch.tip) ∧
      ∃ second, r.mesh.segments[4]? = some second ∧ second.base = trunk.tip := by
  obtain ⟨r, hr⟩ : ∃ r, standard.interpretText "F[+F[-F]>F]#F" = .ok r :=
    exists_result (by decide +kernel)
  have hroot := interpretText_tree hr "" "[+F[-F]>F]#F" (by decide +kernel)
  have hbranch := interpretText_tree hr "F[+" "[-F]>F]#F" (by decide +kernel)
  have hsecond := interpretText_tree hr "F[+F[-F]>" "]#F" (by decide +kernel)
  have htop := interpretText_tree hr "F[+F[-F]>F]#" "" (by decide +kernel)
  rw [show parent? "".toList = none by decide +kernel] at hroot
  rw [show parent? "F[+".toList = some 0 by decide +kernel] at hbranch
  rw [show parent? "F[+F[-F]>".toList = some 1 by decide +kernel] at hsecond
  rw [show parent? "F[+F[-F]>F]#".toList = some 0 by decide +kernel] at htop
  obtain ⟨trunk, htrunk, hzero⟩ := hroot
  obtain ⟨branch, hbranch, -, trunk₁, htrunk₁, hbase⟩ := hbranch
  obtain ⟨second, hsecond, -, branch', hbranch', hsecondbase⟩ := hsecond
  obtain ⟨top, htop, -, trunk₂, htrunk₂, htopbase⟩ := htop
  obtain rfl : trunk = trunk₁ := Option.some.inj (htrunk.symm.trans htrunk₁)
  obtain rfl : trunk = trunk₂ := Option.some.inj (htrunk.symm.trans htrunk₂)
  obtain rfl : branch = branch' := Option.some.inj (hbranch.symm.trans hbranch')
  exact ⟨r, trunk, branch, hr, htrunk, hzero, hbranch, hbase, ⟨second, hsecond, hsecondbase⟩,
    top, htop, htopbase⟩

end Setup

end BranchingTubes
