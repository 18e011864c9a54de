import BranchingTubes.Growth.Grammar
import BranchingTubes.Rules.Productions
import Mathlib

/-!
# The generations of a grammar

A rule that gives a word for every word makes a start word into a sequence of words, its
generations.  All ways to grow a word read from this one sequence: so many passes give the
word of that number, the list of generations is its beginning, and growth with a limit stops
at the first generation past the start word that is longer than the limit
(`Grammar.exists_growsAs`).

The functions that grow a word start anew after each pass.  The lemmas about them are
therefore about a start anywhere in the sequence.
-/

set_option autoImplicit false

namespace BranchingTubes

namespace Rule

/-- A rule gives a word for every word. -/
def Total (rule : Rule) : Prop := ∀ word, ∃ next, rule word = .ok next

/-- Each word of a sequence gives the next one in one pass. -/
def Generates (rule : Rule) (grown : ℕ → String) : Prop :=
  ∀ i, rule (grown i) = .ok (grown (i + 1))

/-- A total rule grows a sequence of words from any start. -/
theorem Total.exists_generates {rule : Rule} (h : rule.Total) (start : String) :
    ∃ grown : ℕ → String, grown 0 = start ∧ rule.Generates grown := by
  choose next hnext using h
  refine ⟨fun i => next^[i] start, rfl, ?_⟩
  intro i
  show rule (next^[i] start) = .ok (next^[i + 1] start)
  rw [Function.iterate_succ_apply', hnext]

namespace Generates

variable {rule : Rule} {grown : ℕ → String} {passes limit first : ℕ}

/-- So many passes lead from one word of the sequence to the one as many places further. -/
theorem iterate_eq (h : rule.Generates grown) (first passes : ℕ) :
    rule.iterate passes (grown first) = .ok (grown (first + passes)) := by
  induction passes generalizing first with
  | zero => rfl
  | succ passes ih =>
    simp only [Rule.iterate, h first]
    rw [ih, Nat.add_right_comm, Nat.add_assoc]

/-- The words on the way are those of the sequence, the first one included. -/
theorem orbit_eq (h : rule.Generates grown) (first passes : ℕ) :
    rule.orbit passes (grown first) =
      .ok ((List.range (passes + 1)).map fun i => grown (first + i)) := by
  induction passes generalizing first with
  | zero => rfl
  | succ passes ih =>
    simp only [Rule.orbit, h first]
    rw [ih, List.range_succ_eq_map (n := passes + 1), List.map_cons, List.map_map]
    simp only [Except.map, Nat.add_zero, Except.ok.injEq, List.cons.injEq, true_and]
    apply List.map_congr_left
    intro i _
    rw [Function.comp_apply, Nat.succ_eq_add_one, Nat.add_right_comm, Nat.add_assoc]

/-- Growth with a limit is growth, if no generation after the first is too long. -/
theorem iterateWithin_eq_ok (h : rule.Generates grown)
    (hwithin : ∀ i, first < i → i ≤ first + passes → (grown i).utf8ByteSize ≤ limit) :
    rule.iterateWithin limit (first + 1) passes (grown first) =
      .ok (grown (first + passes)) := by
  induction passes generalizing first with
  | zero => rfl
  | succ passes ih =>
    simp only [Rule.iterateWithin, h first]
    rw [if_neg (not_lt.mpr (hwithin (first + 1) (by omega) (by omega))), ih]
    · rw [Nat.add_right_comm, Nat.add_assoc]
    · intro i hfirst hlast
      exact hwithin i (by omega) (by omega)

/-- Growth with a limit fails at the first generation that is too long. -/
theorem iterateWithin_eq_error (h : rule.Generates grown) {i : ℕ} (hfirst : first < i)
    (hlast : i ≤ first + passes) (hlong : limit < (grown i).utf8ByteSize)
    (hbefore : ∀ j, first < j → j < i → (grown j).utf8ByteSize ≤ limit) :
    rule.iterateWithin limit (first + 1) passes (grown first) =
      .error (.tooLong i (grown i).utf8ByteSize limit) := by
  induction passes generalizing first with
  | zero => omega
  | succ passes ih =>
    simp only [Rule.iterateWithin, h first]
    rcases Nat.lt_or_eq_of_le (Nat.succ_le_of_lt hfirst) with hlater | rfl
    · rw [if_neg (not_lt.mpr (hbefore (first + 1) (by omega) hlater))]
      apply ih hlater (by omega)
      intro j hj hji
      exact hbefore j (by omega) hji
    · rw [if_pos hlong]

end Generates

end Rule

/-- Productions rewrite every word. -/
theorem Productions.total_rule (p : Productions) : p.rule.Total := by
  intro word
  exact ⟨p.apply word, rfl⟩

namespace Grammar

/-- The words of a sequence are the generations of a grammar, whichever way they are grown. -/
structure GrowsAs (g : Grammar) (grown : ℕ → String) : Prop where
  start : grown 0 = g.start
  pass : g.rule.Generates grown
  grow : ∀ passes, g.grow passes = .ok (grown passes)
  /-- Growth may be interrupted and taken up again. -/
  resume : ∀ m n, Grammar.grow { g with start := grown m } n = .ok (grown (m + n))
  generations : ∀ passes, ∃ words, g.generations passes = .ok words ∧
    words.length = passes + 1 ∧ ∀ i ≤ passes, words[i]? = some (grown i)
  ofInt : ∀ count : ℤ, g.growOfInt count =
    if count < 0 then .error (.negativePasses count)
    else if 2 ^ 32 - 1 < count then .error (.tooManyPasses count)
    else .ok (grown count.toNat)
  within : ∀ passes limit, g.growWithin passes limit = .ok (grown passes) ↔
    ∀ i, 1 ≤ i → i ≤ passes → (grown i).utf8ByteSize ≤ limit
  /-- The start word is not among those that may be too long. -/
  tooLong : ∀ passes limit i,
    IsLeast {j | 1 ≤ j ∧ j ≤ passes ∧ limit < (grown j).utf8ByteSize} i →
      g.growWithin passes limit = .error (.tooLong i (grown i).utf8ByteSize limit)

variable {g : Grammar} {grown : ℕ → String}

/-- What is grown by so many passes is the word of the sequence with their number. -/
theorem grow_eq (hstart : grown 0 = g.start) (hpass : g.rule.Generates grown) (passes : ℕ) :
    g.grow passes = .ok (grown passes) := by
  unfold grow
  rw [← hstart, hpass.iterate_eq, Nat.zero_add]

/-- A count is refused if it is negative or does not fit into 32 bits, and otherwise gives its
word. -/
theorem growOfInt_eq (hstart : grown 0 = g.start) (hpass : g.rule.Generates grown) (count : ℤ) :
    g.growOfInt count =
      if count < 0 then .error (.negativePasses count)
      else if 2 ^ 32 - 1 < count then .error (.tooManyPasses count)
      else .ok (grown count.toNat) := by
  have hmax : maxPasses = 2 ^ 32 - 1 := rfl
  unfold growOfInt
  rw [hmax, grow_eq hstart hpass]
  rfl

/-- Growth within a limit fails at the first pass whose word is too long, and reports its length in
bytes. -/
theorem growWithin_eq_error_of_isLeast (hstart : grown 0 = g.start)
    (hpass : g.rule.Generates grown) {passes limit i : ℕ}
    (hi : IsLeast {j | 1 ≤ j ∧ j ≤ passes ∧ limit < (grown j).utf8ByteSize} i) :
    g.growWithin passes limit = .error (.tooLong i (grown i).utf8ByteSize limit) := by
  obtain ⟨⟨hfirst, hlast, hlong⟩, hleast⟩ := hi
  unfold growWithin
  rw [← hstart]
  apply hpass.iterateWithin_eq_error hfirst (by omega) hlong
  intro j hj hji
  by_contra hlong'
  have := hleast ⟨hj, by omega, not_le.mp hlong'⟩
  omega

/-- Growth within a limit succeeds if no pass makes the word too long; the start is not looked
at. -/
theorem growWithin_eq_ok_iff (hstart : grown 0 = g.start) (hpass : g.rule.Generates grown)
    (passes limit : ℕ) :
    g.growWithin passes limit = .ok (grown passes) ↔
      ∀ i, 1 ≤ i → i ≤ passes → (grown i).utf8ByteSize ≤ limit := by
  constructor
  · intro hok
    by_contra hsome
    push Not at hsome
    -- Of the generations that are too long, the first one would have stopped the growth.
    obtain ⟨i, hi⟩ : ∃ i, IsLeast {j | 1 ≤ j ∧ j ≤ passes ∧ limit < (grown j).utf8ByteSize} i :=
      ⟨_, Nat.isLeast_find hsome⟩
    rw [growWithin_eq_error_of_isLeast hstart hpass hi] at hok
    simp at hok
  · intro hwithin
    unfold growWithin
    rw [← hstart, hpass.iterateWithin_eq_ok, Nat.zero_add]
    intro i hfirst hlast
    exact hwithin i hfirst (by omega)

/-- **The ways to grow a word agree.**  If the rule gives a word for every word, then there is
one sequence of generations, and a number of passes, a count that may be out of range, a
limit on the length, and the list of all generations all refer to it. -/
theorem exists_growsAs (h : g.rule.Total) : ∃ grown, g.GrowsAs grown := by
  obtain ⟨grown, hstart, hpass⟩ := h.exists_generates g.start
  refine ⟨grown, hstart, hpass, grow_eq hstart hpass, hpass.iterate_eq, ?_,
    growOfInt_eq hstart hpass, growWithin_eq_ok_iff hstart hpass, ?_⟩
  · intro passes
    refine ⟨(List.range (passes + 1)).map grown, ?_, by simp, ?_⟩
    · unfold generations
      rw [← hstart, hpass.orbit_eq]
      simp
    · intro i hi
      rw [List.getElem?_map, List.getElem?_range (by omega)]
      rfl
  · intro passes limit i hi
    exact growWithin_eq_error_of_isLeast hstart hpass hi

/-- A word that grows past the limit and shrinks again.  The limit counts bytes, of which the
letter that is left has two. -/
theorem exists_growsAs_shrinking :
    let p := Productions.ofList [('A', "BéB"), ('B', "")]
    let g : Grammar := ⟨"A", p.rule, .standard⟩
    g.rule.Total ∧ ∃ grown, g.GrowsAs grown ∧ grown 0 = "A" ∧ grown 1 = "BéB" ∧ grown 2 = "é" ∧
      g.growWithin 2 3 = .error (.tooLong 1 4 3) ∧ g.growWithin 2 4 = .ok "é" ∧
      g.growOfInt 2 = .ok "é" ∧ g.growOfInt (2 ^ 32) = .error (.tooManyPasses (2 ^ 32)) := by
  intro p g
  have htotal : g.rule.Total := p.total_rule
  obtain ⟨grown, hgrown⟩ := exists_growsAs htotal
  have hone : grown 1 = "BéB" := by
    have hgrow : g.grow 1 = .ok "BéB" := by decide +kernel
    exact Except.ok.inj ((hgrown.grow 1).symm.trans hgrow)
  have htwo : grown 2 = "é" := by
    have hgrow : g.grow 2 = .ok "é" := by decide +kernel
    exact Except.ok.inj ((hgrown.grow 2).symm.trans hgrow)
  refine ⟨htotal, grown, hgrown, hgrown.start, hone, htwo, ?_, ?_, ?_, ?_⟩
  · have hlong : (grown 1).utf8ByteSize = 4 := by
      rw [hone]
      decide +kernel
    have hleast : IsLeast {j | 1 ≤ j ∧ j ≤ 2 ∧ 3 < (grown j).utf8ByteSize} 1 :=
      ⟨⟨le_rfl, by decide, by omega⟩, fun j hj => hj.1⟩
    rw [hgrown.tooLong 2 3 1 hleast, hlong]
  · rw [← htwo, hgrown.within]
    intro i hfirst hlast
    obtain rfl | rfl : i = 1 ∨ i = 2 := by omega
    · rw [hone]
      decide +kernel
    · rw [htwo]
      decide +kernel
  · rw [hgrown.ofInt, ← htwo]
    rfl
  · rw [hgrown.ofInt]
    rfl

end Grammar

end BranchingTubes
