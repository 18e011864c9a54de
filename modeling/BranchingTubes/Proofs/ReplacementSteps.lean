import BranchingTubes.Rules.Replacement
import Mathlib

/-!
# Literal replacement, step by step

Replacement is defined by cutting a word into segments.  Here it is read from left to
right: an occurrence of the pattern at the front is replaced and skipped
(`replaced_append`), and where there is none one symbol is kept (`replaced_cons`).  Every
word is made up of these two kinds of steps, and `occurrence_induction` is the induction
over them.
-/

set_option autoImplicit false

namespace BranchingTubes

variable {pattern : List Char}

/-- There is always a segment, possibly an empty one. -/
theorem segmentsFrom_ne_nil (pattern : List Char) (skip : ℕ) (word : List Char) :
    segmentsFrom pattern skip word ≠ [] := by
  induction word generalizing skip with
  | nil => cases skip <;> simp [segmentsFrom]
  | cons c rest ih =>
    cases skip with
    | succ skip => exact ih skip
    | zero =>
      unfold segmentsFrom
      split
      · simp
      · unfold extendFirst
        split <;> simp

/-- The rest of an occurrence is dropped. -/
theorem segmentsFrom_eq_drop (pattern : List Char) (skip : ℕ) (word : List Char) :
    segmentsFrom pattern skip word = segments pattern (word.drop skip) := by
  induction word generalizing skip with
  | nil => cases skip <;> simp [segments, segmentsFrom]
  | cons c rest ih =>
    cases skip with
    | zero => rfl
    | succ skip => exact ih skip

/-- Where the pattern starts, the segment before it ends. -/
theorem segments_append (hpattern : pattern ≠ []) (rest : List Char) :
    segments pattern (pattern ++ rest) = [] :: segments pattern rest := by
  obtain ⟨c, tail, rfl⟩ := List.exists_cons_of_ne_nil hpattern
  have hprefix : (c :: tail).isPrefixOf (c :: (tail ++ rest)) = true := by
    rw [List.isPrefixOf_iff_prefix]
    exact List.prefix_append (c :: tail) rest
  rw [segments, List.cons_append, segmentsFrom, if_pos hprefix, segmentsFrom_eq_drop]
  simp

/-- Where the pattern does not start, the character belongs to the segment. -/
theorem segments_cons {c : Char} {rest : List Char} (h : ¬ pattern <+: c :: rest) :
    segments pattern (c :: rest) = extendFirst c (segments pattern rest) := by
  rw [segments, segmentsFrom, if_neg (mt List.isPrefixOf_iff_prefix.mp h)]
  rfl

/-! ## The replaced word -/

/-- A word with every occurrence of a pattern replaced. -/
def replaced (pattern successor word : List Char) : List Char :=
  successor.intercalate (segments pattern word)

variable {successor : List Char}

/-- Nothing is replaced in the empty word. -/
@[simp] theorem replaced_nil : replaced pattern successor [] = [] := by
  simp [replaced, segments, segmentsFrom]

/-- Where the pattern starts, the successor takes its place and the scan goes on behind it. -/
theorem replaced_append (hpattern : pattern ≠ []) (rest : List Char) :
    replaced pattern successor (pattern ++ rest) =
      successor ++ replaced pattern successor rest := by
  have hsegments : segments pattern rest ≠ [] := segmentsFrom_ne_nil pattern 0 rest
  rw [replaced, segments_append hpattern, List.intercalate_cons_of_ne_nil hsegments,
    List.nil_append, replaced]

/-- Where the pattern does not start, the character stays. -/
theorem replaced_cons {c : Char} {rest : List Char} (h : ¬ pattern <+: c :: rest) :
    replaced pattern successor (c :: rest) = c :: replaced pattern successor rest := by
  rw [replaced, segments_cons h, replaced]
  cases hsegments : segments pattern rest with
  | nil => exact absurd hsegments (segmentsFrom_ne_nil pattern 0 rest)
  | cons first others =>
    unfold extendFirst
    cases others with
    | nil => simp
    | cons second others => simp

/-- What holds of the empty word, and is kept when an occurrence of the pattern or a symbol
at which none begins is put in front, holds of every word. -/
@[elab_as_elim]
theorem occurrence_induction {motive : List Char → Prop} (hpattern : pattern ≠ [])
    (nil : motive []) (occurrence : ∀ rest, motive rest → motive (pattern ++ rest))
    (symbol : ∀ c rest, ¬ pattern <+: c :: rest → motive rest → motive (c :: rest))
    (word : List Char) : motive word := by
  induction hlength : word.length using Nat.strong_induction_on generalizing word with
  | _ n ih =>
    cases word with
    | nil => exact nil
    | cons c rest =>
      subst hlength
      by_cases hprefix : pattern <+: c :: rest
      · obtain ⟨tail, htail⟩ := hprefix
        have hshort : tail.length < (c :: rest).length := by
          have hpos : 0 < pattern.length := List.length_pos_of_ne_nil hpattern
          rw [← htail, List.length_append]
          omega
        rw [← htail]
        exact occurrence tail (ih _ hshort tail rfl)
      · exact symbol c rest hprefix (ih _ (by simp) rest rfl)

/-- A replacement with a pattern that is not empty replaces in the characters of the word. -/
theorem toList_apply {r : Replacement} (h : r.pattern.toList ≠ []) (word : String) :
    (r.apply word).toList = replaced r.pattern.toList r.successor.toList word.toList := by
  have hempty : r.pattern.isEmpty = false := by
    rw [Bool.eq_false_iff]
    intro hempty
    exact h (by simpa using hempty)
  rw [Replacement.apply, if_neg (by simp [hempty]), String.toList_ofList, replaced]

/-- A replacement of a single symbol replaces in the characters of the word. -/
theorem toList_apply_singleton (symbol : Char) (successor word : String) :
    (Replacement.apply ⟨String.singleton symbol, successor⟩ word).toList =
      replaced [symbol] successor.toList word.toList := by
  have hpattern : (String.singleton symbol).toList = [symbol] := String.toList_singleton symbol
  rw [toList_apply (by simp [hpattern]), hpattern]

end BranchingTubes
