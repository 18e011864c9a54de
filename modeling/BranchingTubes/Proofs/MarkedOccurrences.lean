import BranchingTubes.Proofs.ReplacementSteps
import Mathlib

/-!
# Replacement through a marker

What a literal replacement does to a word is fixed by where it finds the pattern.  These places
are made visible by putting a fresh symbol there, the marker: every replacement of the pattern
is the replacement of the marker in the marked word, and putting the pattern back gives the word
(`replaced_marked`).  The marked word has no occurrence of the pattern left, not even one that
the replacement brought about (`not_infix_marked`), because text without the marker that begins
some part of the marked word also begins that part of the word (`prefix_of_prefix_marked`).

The places are taken from left to right, each the leftmost one in what is left of the word
(`exists_stretches`).
-/

set_option autoImplicit false

namespace BranchingTubes

section Marked

variable {pattern successor : List Char} {marker : Char}

/-- Replacing a pattern by itself changes nothing. -/
theorem replaced_self (hpattern : pattern ≠ []) (word : List Char) :
    replaced pattern pattern word = word := by
  induction word using occurrence_induction hpattern with
  | nil => exact replaced_nil
  | occurrence rest ih => rw [replaced_append hpattern, ih]
  | symbol c rest hnone ih => rw [replaced_cons hnone, ih]

/-- A word in which the pattern does not occur stays as it is. -/
theorem replaced_of_absent {word : List Char} (h : ¬ pattern <:+: word) :
    replaced pattern successor word = word := by
  induction word with
  | nil => exact replaced_nil
  | cons c rest ih =>
    rw [List.infix_cons_iff, not_or] at h
    rw [replaced_cons h.1, ih h.2]

/-- Replacing the marker in the marked word replaces the pattern in the word. -/
theorem replaced_marked (hpattern : pattern ≠ []) {word : List Char} (hmarker : marker ∉ word) :
    replaced [marker] successor (replaced pattern [marker] word) =
      replaced pattern successor word := by
  have hne : [marker] ≠ [] := List.cons_ne_nil marker []
  induction word using occurrence_induction hpattern with
  | nil => simp
  | occurrence rest ih =>
    rw [List.mem_append, not_or] at hmarker
    rw [replaced_append hpattern, replaced_append hne, ih hmarker.2, replaced_append hpattern]
  | symbol c rest hnone ih =>
    rw [List.mem_cons, not_or] at hmarker
    have hother : ¬ [marker] <+: c :: replaced pattern [marker] rest := by simpa using hmarker.1
    rw [replaced_cons hnone, replaced_cons hother, ih hmarker.2, replaced_cons hnone]

/-- Marking does not make up a beginning that the word does not have. -/
theorem prefix_of_prefix_marked (hpattern : pattern ≠ []) {v word : List Char}
    (hmarker : marker ∉ v) (h : v <+: replaced pattern [marker] word) : v <+: word := by
  induction word using occurrence_induction hpattern generalizing v with
  | nil => simpa using h
  | occurrence rest ih =>
    rw [replaced_append hpattern, List.singleton_append] at h
    cases v with
    | nil => exact List.nil_prefix
    | cons c v =>
      obtain ⟨rfl, -⟩ := List.cons_prefix_cons.mp h
      exact absurd List.mem_cons_self hmarker
  | symbol c rest hnone ih =>
    rw [replaced_cons hnone] at h
    cases v with
    | nil => exact List.nil_prefix
    | cons c' v =>
      obtain ⟨rfl, htail⟩ := List.cons_prefix_cons.mp h
      rw [List.mem_cons, not_or] at hmarker
      exact List.cons_prefix_cons.mpr ⟨rfl, ih hmarker.2 htail⟩

/-- No occurrence of the pattern is left when a marker that is not in it takes its place. -/
theorem not_infix_marked_of_not_mem (hpattern : pattern ≠ []) (hmarker : marker ∉ pattern)
    (word : List Char) : ¬ pattern <:+: replaced pattern [marker] word := by
  induction word using occurrence_induction hpattern with
  | nil => simpa using hpattern
  | occurrence rest ih =>
    rw [replaced_append hpattern, List.singleton_append, List.infix_cons_iff, not_or]
    refine ⟨fun hprefix => ?_, ih⟩
    obtain ⟨c, tail, rfl⟩ := List.exists_cons_of_ne_nil hpattern
    obtain ⟨rfl, -⟩ := List.cons_prefix_cons.mp hprefix
    exact hmarker List.mem_cons_self
  | symbol c rest hnone ih =>
    rw [replaced_cons hnone, List.infix_cons_iff, not_or, ← replaced_cons hnone]
    exact ⟨fun hprefix => hnone (prefix_of_prefix_marked hpattern hmarker hprefix), ih⟩

/-- No occurrence of the pattern is left between the markers, and none has come about. -/
theorem not_infix_marked (hpattern : pattern ≠ []) {word : List Char} (hmarker : marker ∉ word) :
    ¬ pattern <:+: replaced pattern [marker] word := by
  by_cases h : pattern <:+: word
  · exact not_infix_marked_of_not_mem hpattern (fun hmem => hmarker (h.subset hmem)) word
  · rwa [replaced_of_absent h]

/-! ## Leftmost occurrences -/

/-- The least number of a set without zero is one more than that of the set of predecessors. -/
theorem isLeast_succ {s : Set ℕ} {i : ℕ} (hzero : 0 ∉ s) (h : IsLeast {j | j + 1 ∈ s} i) :
    IsLeast s (i + 1) := by
  refine ⟨h.1, ?_⟩
  rintro (_ | j) hj
  · exact absurd hj hzero
  · exact Nat.succ_le_succ (h.2 hj)

/-- The first marker stands at the place of the leftmost occurrence. -/
theorem exists_isLeast_marked (hpattern : pattern ≠ []) {word : List Char} (hmarker : marker ∉ word)
    (h : pattern <:+: word) :
    ∃ i, IsLeast {i | pattern <+: word.drop i} i ∧
      IsLeast {i | (replaced pattern [marker] word)[i]? = some marker} i := by
  induction word using occurrence_induction hpattern with
  | nil => exact absurd (List.infix_nil.mp h) hpattern
  | occurrence rest ih =>
    refine ⟨0, ⟨List.prefix_append .., fun _ _ => Nat.zero_le _⟩, ?_, fun _ _ => Nat.zero_le _⟩
    rw [replaced_append hpattern]
    rfl
  | symbol c rest hnone ih =>
    rw [List.mem_cons, not_or] at hmarker
    obtain ⟨i, hi, hmarked⟩ := ih hmarker.2 ((List.infix_cons_iff.mp h).resolve_left hnone)
    refine ⟨i + 1, isLeast_succ hnone hi, ?_⟩
    rw [replaced_cons hnone]
    exact isLeast_succ (by simpa using Ne.symm hmarker.1) hmarked

/-- Stretches of a word before occurrences of a pattern, and what follows the last of these.  Each
occurrence is the leftmost one after the occurrence before it, and the last one is followed by
no other. -/
structure Leftmost (pattern : List Char) (stretches : List (List Char)) (last : List Char) :
    Prop where
  before : ∀ g ∈ stretches, IsLeast {i | pattern <+: (g ++ pattern).drop i} g.length
  after : ¬ pattern <:+: last

/-- A word is cut into stretches at the leftmost occurrences of the pattern, and replacing puts the
successor after each stretch but the last. -/
theorem exists_stretches (hpattern : pattern ≠ []) (word : List Char) :
    ∃ stretches last, Leftmost pattern stretches last ∧
      ∀ successor, replaced pattern successor word =
        (stretches.flatMap (· ++ successor)) ++ last := by
  induction word using occurrence_induction hpattern with
  | nil =>
    refine ⟨[], [], ⟨by simp, by simpa using hpattern⟩, fun successor => ?_⟩
    exact replaced_nil
  | occurrence rest ih =>
    obtain ⟨stretches, last, hleftmost, heq⟩ := ih
    refine ⟨[] :: stretches, last, ⟨?_, hleftmost.after⟩, fun successor => ?_⟩
    · refine List.forall_mem_cons.mpr ⟨⟨by simp, fun _ _ => Nat.zero_le _⟩, hleftmost.before⟩
    · rw [replaced_append hpattern, heq, List.flatMap_cons, List.nil_append, List.append_assoc]
  | symbol c rest hnone ih =>
    obtain ⟨stretches, last, hleftmost, heq⟩ := ih
    have hrest : rest = stretches.flatMap (· ++ pattern) ++ last := by
      rw [← heq, replaced_self hpattern]
    cases stretches with
    | nil =>
      refine ⟨[], c :: last, ⟨by simp, ?_⟩, fun successor => ?_⟩
      · rw [List.infix_cons_iff, not_or]
        refine ⟨?_, hleftmost.after⟩
        simpa [hrest] using hnone
      · rw [replaced_cons hnone, heq]
        rfl
    | cons g stretches =>
      obtain ⟨hfirst, hothers⟩ := List.forall_mem_cons.mp hleftmost.before
      refine ⟨(c :: g) :: stretches, last, ⟨?_, hleftmost.after⟩, fun successor => ?_⟩
      · refine List.forall_mem_cons.mpr ⟨isLeast_succ (fun hprefix => hnone ?_) hfirst, hothers⟩
        rw [hrest, List.flatMap_cons, List.append_assoc, ← List.cons_append]
        exact List.IsPrefix.trans hprefix (List.prefix_append ..)
      · rw [replaced_cons hnone, heq, List.flatMap_cons, List.flatMap_cons]
        rfl

end Marked

namespace Replacement

variable {marker : Char}

/-- **A replacement factors through a fresh marker.**  Mark a word by replacing the pattern by a
symbol that does not occur in the word.  The marked word has no occurrence of the pattern; putting
the pattern in for the marker gives the word, and putting any successor in gives what the pass
makes of the word; and the first marker stands where the pattern occurs first.  So a pass replaces
occurrences from left to right, each the leftmost one after the occurrence before it, until none
is left.  The empty pattern is never found. -/
theorem apply_through_marker (pattern successor word : String) (hmarker : marker ∉ word.toList) :
    let marked := apply ⟨pattern, String.singleton marker⟩ word
    (pattern = "" → apply ⟨pattern, successor⟩ word = word) ∧
      (pattern ≠ "" →
        (¬ pattern.toList <:+: marked.toList) ∧
        apply ⟨String.singleton marker, pattern⟩ marked = word ∧
        apply ⟨pattern, successor⟩ word = apply ⟨String.singleton marker, successor⟩ marked ∧
        (pattern.toList <:+: word.toList →
          ∃ i, IsLeast {i | pattern.toList <+: word.toList.drop i} i ∧
            IsLeast {i | marked.toList[i]? = some marker} i) ∧
        ∃ stretches last, Leftmost pattern.toList stretches last ∧
          word.toList = stretches.flatMap (· ++ pattern.toList) ++ last ∧
          (apply ⟨pattern, successor⟩ word).toList =
            stretches.flatMap (· ++ successor.toList) ++ last) := by
  intro marked
  refine ⟨?_, fun hne => ?_⟩
  · rintro rfl
    rfl
  have hpattern : pattern.toList ≠ [] := by simpa using hne
  have happly (s : String) : (apply ⟨pattern, s⟩ word).toList =
      replaced pattern.toList s.toList word.toList := toList_apply hpattern word
  have hmarked : marked.toList = replaced pattern.toList [marker] word.toList := by
    rw [happly, String.toList_singleton]
  have hthrough (s : String) :
      apply ⟨String.singleton marker, s⟩ marked = apply ⟨pattern, s⟩ word := by
    apply String.toList_injective
    rw [toList_apply_singleton, hmarked, replaced_marked hpattern hmarker, happly]
  refine ⟨?_, ?_, (hthrough successor).symm, ?_, ?_⟩
  · rw [hmarked]
    exact not_infix_marked hpattern hmarker
  · rw [hthrough]
    apply String.toList_injective
    rw [happly, replaced_self hpattern]
  · rw [hmarked]
    exact exists_isLeast_marked hpattern hmarker
  · obtain ⟨stretches, last, hleftmost, heq⟩ := exists_stretches hpattern word.toList
    refine ⟨stretches, last, hleftmost, ?_, ?_⟩
    · rw [← heq, replaced_self hpattern]
    · rw [happly, heq]

/-- A pattern that overlaps itself, in a word that has three overlapping occurrences of it, and a
successor in which it occurs. -/
theorem apply_through_marker_overlapping :
    let marked := apply ⟨"aa", "é"⟩ "baaaa[aaa"
    'é' ∉ "baaaa[aaa".toList ∧ marked = "béé[éa" ∧ (¬ "aa".toList <:+: marked.toList) ∧
      apply ⟨"é", "aa"⟩ marked = "baaaa[aaa" ∧
      apply ⟨"aa", "aaa"⟩ "baaaa[aaa" = apply ⟨"é", "aaa"⟩ marked := by
  intro marked
  have hmarker : 'é' ∉ "baaaa[aaa".toList := by decide +kernel
  obtain ⟨-, hthrough⟩ := apply_through_marker "aa" "aaa" "baaaa[aaa" hmarker
  obtain ⟨hnone, hback, hsame, -⟩ := hthrough (by decide)
  exact ⟨hmarker, by decide +kernel, hnone, hback, hsame⟩

end Replacement

end BranchingTubes
