import BranchingTubes.Proofs.InterpretationOutcome
import BranchingTubes.Proofs.TubeEmission
import Mathlib

/-!
# Reading on after a word

What is interpreted of a word stays as it is when the word goes on.  An error stands
(`interpret_append_error`), and a mesh is only added to (`interpret_append_ok`).  If the
longer word fails and the shorter one does not, then a symbol that was read later is to blame,
because the symbols of the shorter word are judged by what stands before them and by nothing
else (`offence_index_of_append`).
-/

set_option autoImplicit false

namespace BranchingTubes

namespace Marks

variable {α : Type} {k : Marks α} {settings : TubeSettings} {w : List α} {index : ℕ}
  {e : InterpretationError}

/-- A symbol offends by what it does: opening, closing or drawing. -/
theorem exists_symbol_of_offence (h : k.offence? settings w index = some e) :
    ∃ c, w[index]? = some c ∧
      (k.opens c ∧ e = .tooDeep index settings.depthLimit.toNat ∨
      k.closes c ∧ e = .nothingToClose index ∨
      k.draws c ∧ 2 ^ 32 - 1 < 2 * settings.sides.toNat * (k.drawnBefore w index + 1) ∧
        e = .tooManyVertices (2 * settings.sides.toNat * (k.drawnBefore w index + 1))) := by
  obtain ⟨c, hc, hjudge⟩ := Option.bind_eq_some_iff.mp h
  refine ⟨c, hc, ?_⟩
  simp only [judge] at hjudge
  split at hjudge
  next hopens => exact .inl ⟨hopens.1, (Option.some.inj hjudge).symm⟩
  next =>
    split at hjudge
    next hcloses => exact .inr (.inl ⟨hcloses.1, (Option.some.inj hjudge).symm⟩)
    next =>
      split at hjudge
      next hdraws => exact .inr (.inr ⟨hdraws.1, hdraws.2, (Option.some.inj hjudge).symm⟩)
      next => simp at hjudge

/-- If no symbol of a word offends, one that offends when the word goes on comes later. -/
theorem offence_index_of_append {more : List α}
    (hnone : ∀ j, k.offence? settings w j = none)
    (h : k.offence? settings (w ++ more) index = some e) :
    w.length ≤ index ∧ index < w.length + more.length := by
  constructor
  · by_contra hlt
    rw [offence?_append more (not_le.mp hlt), hnone] at h
    simp at h
  · by_contra hle
    rw [offence?_eq_none_of_length_le (by simpa using not_lt.mp hle)] at h
    simp at h

end Marks

namespace Setup

variable {s : Setup} {is more : List Instruction} {e : InterpretationError} {r : Interpretation}

/-- Instructions that fail still fail when more of them follow. -/
theorem interpret_append_error (h : s.interpret is = .error e) :
    s.interpret (is ++ more) = .error e := by
  unfold interpret at h ⊢
  cases hfault : s.fault? with
  | some fault =>
    simp only [hfault] at h ⊢
    exact h
  | none =>
    simp only [hfault] at h ⊢
    rw [Machine.run_append]
    cases hrun : Machine.run s 0 (.start s) is with
    | error e' =>
      rw [hrun] at h
      exact h
    | ok m => simp [hrun, Except.map] at h

/-- Where instructions succeed, the ones before the last few succeed as well, with a mesh that is
extended. -/
theorem interpret_append_ok (h : s.interpret (is ++ more) = .ok r) :
    ∃ r', s.interpret is = .ok r' ∧ r'.mesh.Extends r.mesh := by
  obtain ⟨hfault, m, hrun, rfl⟩ := interpret_eq_ok_iff.mp h
  obtain ⟨mid, hmid, hrest⟩ := Machine.run_append_ok_iff.mp hrun
  exact ⟨mid.result, interpret_eq_ok_iff.mpr ⟨hfault, mid, hmid, rfl⟩,
    Machine.extends_of_run hrest⟩

/-- An error is caused by a symbol of a word that is read after another word; indices count
the symbols of both. -/
inductive CausedByMore (s : Setup) (word more : String) : InterpretationError → Prop where
  | tooDeep {index : ℕ} (old : word.length ≤ index) (new : index < word.length + more.length)
      (symbol : (word ++ more).toList[index]? = some '[') :
      CausedByMore s word more (.tooDeep index s.settings.depthLimit.toNat)
  | nothingToClose {index : ℕ} (old : word.length ≤ index)
      (new : index < word.length + more.length)
      (symbol : (word ++ more).toList[index]? = some ']') :
      CausedByMore s word more (.nothingToClose index)
  | tooManyVertices {index count : ℕ} (old : word.length ≤ index)
      (new : index < word.length + more.length)
      (symbol : (word ++ more).toList[index]? = some 'F')
      (count_eq : count =
        2 * s.settings.sides.toNat * (((word ++ more).toList.take index).count 'F' + 1))
      (many : 2 ^ 32 - 1 < count) : CausedByMore s word more (.tooManyVertices count)

/-- The offence of a symbol that is read later is an error that the later word causes. -/
theorem causedByMore_of_offence {word more : String} {index : ℕ}
    (old : word.length ≤ index) (new : index < word.length + more.length)
    (h : Marks.text.offence? s.settings (word ++ more).toList index = some e) :
    s.CausedByMore word more e := by
  obtain ⟨c, hc, hcause⟩ := Marks.exists_symbol_of_offence h
  rcases hcause with ⟨hopens, rfl⟩ | ⟨hcloses, rfl⟩ | ⟨hdraws, hmany, rfl⟩
  · obtain rfl : c = '[' := by simpa [Marks.text] using hopens
    exact .tooDeep old new hc
  · obtain rfl : c = ']' := by simpa [Marks.text] using hcloses
    exact .nothingToClose old new hc
  · obtain rfl : c = 'F' := by simpa [Marks.text] using hdraws
    exact .tooManyVertices old new hc rfl hmany

/-- Every interpretation of a text has the outcome that its marks foretell. -/
theorem outcome_interpretText (s : Setup) (word : String) :
    Outcome Marks.text s word.toList ((s.interpretText word).map Interpretation.openBranches) := by
  rw [Marks.text_eq_comap, ← outcome_map_iff]
  exact outcome_iff_of_instructions.mp rfl

/-- A word that was read fails with more behind it only because of what is behind. -/
theorem causedByMore_of_error {word more : String} (h : s.interpretText word = .ok r)
    (herror : s.interpretText (word ++ more) = .error e) : s.CausedByMore word more e := by
  have hshort := s.outcome_interpretText word
  have hlong := s.outcome_interpretText (word ++ more)
  rw [h] at hshort
  rw [herror] at hlong
  cases hshort with
  | success sound none_offends left_open =>
    cases hlong with
    | fault wrong =>
      have hfault := fault?_of_fault wrong
      rw [fault?_of_sound sound] at hfault
      simp at hfault
    | offence sound' first =>
      obtain ⟨index, hindex, -⟩ := first
      have hbounds : word.toList.length ≤ index ∧
          index < word.toList.length + more.toList.length := by
        apply Marks.offence_index_of_append none_offends
        rwa [← String.toList_append]
      rw [String.length_toList, String.length_toList] at hbounds
      exact causedByMore_of_offence hbounds.1 hbounds.2 hindex

/-- **Reading on.**  An error of a word is also the error of every word that goes on from it.
If the longer word is interpreted, then so is the shorter one, and its vertices, indices and
segments are the first of the longer one.  If only the shorter word is interpreted, the error
of the longer one is caused by a symbol of what was added. -/
theorem interpretText_append (s : Setup) (word more : String) :
    (∀ e, s.interpretText word = .error e → s.interpretText (word ++ more) = .error e) ∧
    (∀ r, s.interpretText (word ++ more) = .ok r →
      ∃ r', s.interpretText word = .ok r' ∧ r'.mesh.Extends r.mesh) ∧
    ∀ r e, s.interpretText word = .ok r → s.interpretText (word ++ more) = .error e →
      s.CausedByMore word more e := by
  have hsplit : (word ++ more).toList.map symbolInstruction =
      word.toList.map symbolInstruction ++ more.toList.map symbolInstruction := by
    simp
  refine ⟨?_, ?_, ?_⟩
  · intro e h
    rw [interpretText, hsplit]
    exact interpret_append_error h
  · intro r h
    rw [interpretText, hsplit] at h
    exact interpret_append_ok h
  · intro r e h herror
    exact causedByMore_of_error h herror

/-- A closing bracket too many: in the first word, where it decides about every longer one, or
in what is added, where its index counts all symbols before it. -/
theorem interpretText_append_unbalanced :
    (standard.interpretText "F]" = .error (.nothingToClose 1) ∧
      standard.interpretText ("F]" ++ "[F") = .error (.nothingToClose 1)) ∧
    (∃ r r', standard.interpretText ("F[+" ++ "F]F") = .ok r ∧
      standard.interpretText "F[+" = .ok r' ∧ r'.mesh.Extends r.mesh) ∧
    (standard.interpretText "F[+").isOk ∧
    standard.interpretText ("F[+" ++ "é]]") = .error (.nothingToClose 5) ∧
    standard.CausedByMore "F[+" "é]]" (.nothingToClose 5) := by
  obtain ⟨hfails, -, -⟩ := interpretText_append standard "F]" "[F"
  obtain ⟨-, hextends, -⟩ := interpretText_append standard "F[+" "F]F"
  obtain ⟨-, -, hcaused⟩ := interpretText_append standard "F[+" "é]]"
  have herror : standard.interpretText "F]" = .error (.nothingToClose 1) := by decide +kernel
  have hlate : standard.interpretText ("F[+" ++ "é]]") = .error (.nothingToClose 5) := by
    decide +kernel
  obtain ⟨r, hr⟩ : ∃ r, standard.interpretText ("F[+" ++ "F]F") = .ok r :=
    exists_result (by decide +kernel)
  obtain ⟨r', hr', hmesh⟩ := hextends r hr
  refine ⟨⟨herror, hfails _ herror⟩, ⟨r, r', hr, hr', hmesh⟩, ?_, hlate, hcaused r' _ hr' hlate⟩
  rw [hr']
  rfl

end Setup

end BranchingTubes
