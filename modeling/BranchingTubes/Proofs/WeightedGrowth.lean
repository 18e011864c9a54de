import BranchingTubes.Proofs.ChoiceStream
import BranchingTubes.Proofs.Generations
import Mathlib

/-!
# When weighted growth fails

Weights that do not count leave a word as it is, but weights that count can still be too large
together: if their single-precision sum is infinite, then a pass fails on every word, also on
one without the symbol that is rewritten.  `growth_fails_iff_infinite` says that this is the only
way to fail.  Of a grammar with such a rule nothing can be grown but the start word; with any other
weights no way of growing a word ever fails by the rule.

`overflowing_weights_fail` is a production of two finite weights to which this happens.
-/

set_option autoImplicit false

namespace BranchingTubes

/-- A rule that always succeeds does not stop bounded growth by an error of its own. -/
theorem Rule.Total.iterateWithin_ne {rule : Rule} (h : rule.Total) (limit pass passes : ℕ)
    (word : String) (e : RuleError) :
    rule.iterateWithin limit pass passes word ≠ .error (.rule e) := by
  induction passes generalizing pass word with
  | zero => simp [Rule.iterateWithin]
  | succ passes ih =>
    obtain ⟨next, hnext⟩ := h word
    simp only [Rule.iterateWithin, hnext]
    split
    · simp
    · exact ih (pass + 1) next

namespace Grammar

/-- No way of growing a word fails by the rule. -/
structure Unfailing (g : Grammar) : Prop where
  grow : ∀ passes, ∃ word, g.grow passes = .ok word
  generations : ∀ passes, ∃ words, g.generations passes = .ok words
  /-- A count that is out of range is refused, but for that reason. -/
  ofInt : ∀ count e, g.growOfInt count ≠ .error (.rule e)
  within : ∀ passes limit e, g.growWithin passes limit ≠ .error (.rule e)

/-- Every way of growing a word by one pass or more fails by the rule. -/
structure Failing (g : Grammar) (e : RuleError) : Prop where
  grow : ∀ passes, 0 < passes → g.grow passes = .error e
  generations : ∀ passes, 0 < passes → g.generations passes = .error e
  ofInt : ∀ count, 0 < count → count ≤ 2 ^ 32 - 1 → g.growOfInt count = .error (.rule e)
  within : ∀ passes limit, 0 < passes → g.growWithin passes limit = .error (.rule e)

variable {g : Grammar} {e : RuleError}

/-- A grammar whose rule always succeeds has no failure but those of the bounds. -/
theorem unfailing_of_total (h : g.rule.Total) : g.Unfailing := by
  obtain ⟨grown, hstart, hpass⟩ := h.exists_generates g.start
  refine ⟨?_, ?_, ?_, ?_⟩
  · intro passes
    exact ⟨grown passes, grow_eq hstart hpass passes⟩
  · intro passes
    unfold generations
    rw [← hstart, hpass.orbit_eq]
    exact ⟨_, rfl⟩
  · intro count e
    rw [growOfInt_eq hstart hpass]
    split_ifs <;> simp
  · intro passes limit e
    exact h.iterateWithin_ne limit 1 passes g.start e

/-- A grammar whose rule always fails fails at the first pass. -/
theorem failing_of_error (h : ∀ word, g.rule word = .error e) : g.Failing e := by
  have hgrow : ∀ passes, 0 < passes → g.grow passes = .error e := by
    rintro (_ | passes) hpos
    · omega
    · simp only [Grammar.grow, Rule.iterate, h]
  refine ⟨hgrow, ?_, ?_, ?_⟩
  · rintro (_ | passes) hpos
    · omega
    · simp only [Grammar.generations, Rule.orbit, h]
  · intro count hpos hmax
    have hmaximum : maxPasses = 2 ^ 32 - 1 := rfl
    unfold growOfInt
    rw [if_neg (by omega), if_neg (by omega), hgrow _ (by omega)]
    rfl
  · rintro (_ | passes) limit hpos
    · omega
    · simp only [growWithin, Rule.iterateWithin, h]

/-- A grammar does not fail both never and always. -/
theorem Unfailing.not_failing (h : g.Unfailing) : ¬ g.Failing e := by
  intro hfailing
  obtain ⟨word, hword⟩ := h.grow 1
  rw [hfailing.grow 1 one_pos] at hword
  cases hword

end Grammar

namespace WeightedProduction

variable {p : WeightedProduction}

/-- A production whose total weight is not infinite rewrites every word. -/
theorem exists_apply (h : (totalWeight p.weights).isInf = false) (word : String) :
    ∃ next, p.apply word = .ok next := by
  obtain happly | ⟨l, happly⟩ := apply_cases h word
  · exact ⟨_, happly⟩
  · exact ⟨_, happly⟩

/-- **Weighted growth fails exactly if the weights sum to infinity.**  Then a pass fails on every
word, and so does all growth by one pass or more; otherwise a pass gives a word for every word,
and no growth fails by the rule.  In particular no pass fails for want of an alternative: every
pick of a lottery is the number of one. -/
theorem growth_fails_iff_infinite (p : WeightedProduction) :
    (∀ word, (∃ next, p.apply word = .ok next) ↔ (totalWeight p.weights).isInf = false) ∧
      (∀ start parameters,
        (Grammar.Unfailing ⟨start, p.rule, parameters⟩ ↔
          (totalWeight p.weights).isInf = false) ∧
        (Grammar.Failing ⟨start, p.rule, parameters⟩ .infiniteWeight ↔
          (totalWeight p.weights).isInf = true)) ∧
      ∀ l, p.lottery = .ok (some l) → ∀ i, p.pick l i < p.alternatives.length := by
  refine and_assoc.mp ⟨?_, fun l hl => pick_lt hl⟩
  cases hinf : (totalWeight p.weights).isInf with
  | false =>
    refine ⟨?_, ?_⟩
    · intro word
      exact iff_of_true (exists_apply hinf word) rfl
    · intro start parameters
      have hunfailing : Grammar.Unfailing ⟨start, p.rule, parameters⟩ :=
        Grammar.unfailing_of_total (exists_apply hinf)
      exact ⟨iff_of_true hunfailing rfl, iff_of_false hunfailing.not_failing Bool.false_ne_true⟩
  | true =>
    refine ⟨?_, ?_⟩
    · intro word
      simp [apply_of_infinite hinf]
    · intro start parameters
      have hfailing : Grammar.Failing ⟨start, p.rule, parameters⟩ .infiniteWeight :=
        Grammar.failing_of_error (apply_of_infinite hinf)
      have hnot : ¬ Grammar.Unfailing ⟨start, p.rule, parameters⟩ := by
        intro hunfailing
        exact hunfailing.not_failing hfailing
      exact ⟨iff_of_false hnot Bool.true_eq_false.mp, iff_of_true hfailing rfl⟩

/-- Two weights, each finite and above zero, with which a pass fails although the word has nothing
to rewrite. -/
theorem overflowing_weights_fail :
    let p : WeightedProduction := ⟨'X', [("F", 3e38), ("FF", 3e38)], 7⟩
    (∀ a ∈ p.alternatives, a.2.isFinite = true ∧ 0 < a.2) ∧
      (¬ ∃ next, p.apply "F" = .ok next) ∧
      ¬ ∃ word, Grammar.grow ⟨"F", p.rule, .standard⟩ 1 = .ok word := by
  intro p
  have hinf : (totalWeight p.weights).isInf = true := by decide +kernel
  have happly : p.apply "F" = .error .infiniteWeight := apply_of_infinite hinf "F"
  have hgrow : Grammar.grow ⟨"F", p.rule, .standard⟩ 1 = .error .infiniteWeight :=
    (Grammar.failing_of_error (apply_of_infinite hinf)).grow 1 one_pos
  exact ⟨by decide +kernel, by simp [happly], by simp [hgrow]⟩

end WeightedProduction

end BranchingTubes
