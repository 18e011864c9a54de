import BranchingTubes.Proofs.ChoiceStream
import BranchingTubes.Proofs.Generations
import BranchingTubes.Proofs.ReplacementSteps
import Mathlib

/-!
# One symbol, three kinds of rules

To put a word in for one symbol is something that all three kinds of rules can do: a literal
replacement whose pattern is the symbol, productions for this symbol alone, and a weighted
production with a single alternative.  One looks for a pattern, one looks symbols up in a table,
and one draws from a lottery, but each is the same substitution (`substituted`), and so they grow
the same words (`one_symbol_rules_agree`).
-/

set_option autoImplicit false

namespace BranchingTubes

/-- A word with another one put in for each occurrence of a symbol. -/
def substituted (symbol : Char) (successor word : List Char) : List Char :=
  word.flatMap fun c => if c = symbol then successor else [c]

section Substitution

variable {symbol : Char} {successor : List Char}

/-- The symbol itself is substituted. -/
theorem substituted_cons_self (rest : List Char) :
    substituted symbol successor (symbol :: rest) =
      successor ++ substituted symbol successor rest := by
  simp [substituted]

/-- Any other character stays. -/
theorem substituted_cons_of_ne {c : Char} (hc : c ≠ symbol) (rest : List Char) :
    substituted symbol successor (c :: rest) = c :: substituted symbol successor rest := by
  simp [substituted, hc]

/-- Replacing a pattern of one symbol is substituting the symbol. -/
theorem replaced_singleton (word : List Char) :
    replaced [symbol] successor word = substituted symbol successor word := by
  induction word with
  | nil => exact replaced_nil
  | cons c rest ih =>
    by_cases hc : c = symbol
    · subst hc
      rw [substituted_cons_self, ← ih]
      exact replaced_append (List.cons_ne_nil c []) rest
    · have hother : ¬ [symbol] <+: c :: rest := by simpa using Ne.symm hc
      rw [replaced_cons hother, ih, substituted_cons_of_ne hc]

/-- If every occurrence is replaced by the same word, their numbers play no part. -/
theorem replaceNumbered_const (i : ℕ) (word : List Char) :
    replaceNumbered symbol (fun _ => successor) i word = substituted symbol successor word := by
  induction word generalizing i with
  | nil => rfl
  | cons c rest ih =>
    by_cases hc : c = symbol
    · subst hc
      rw [replaceNumbered_cons_self, ih, substituted_cons_self]
    · rw [replaceNumbered_cons_of_ne symbol _ i hc, ih, substituted_cons_of_ne hc]

end Substitution

variable {symbol : Char} {successor : String}

/-- A replacement of one symbol substitutes it in every word. -/
theorem Replacement.apply_symbol (word : String) :
    apply ⟨String.singleton symbol, successor⟩ word =
      String.ofList (substituted symbol successor.toList word.toList) := by
  apply String.toList_injective
  rw [toList_apply_singleton, replaced_singleton, String.toList_ofList]

/-- Productions for one symbol expand it and nothing else. -/
theorem Productions.expand_insert_empty (c : Char) :
    (empty.insert symbol successor).expand c = if c = symbol then successor.toList else [c] := by
  have hentries : (empty.insert symbol successor).successor? c =
      List.lookup c [(symbol, successor)] := rfl
  unfold expand
  rw [hentries]
  by_cases hc : c = symbol
  · subst hc
    rw [List.lookup_cons_self, if_pos rfl]
  · rw [List.lookup_cons, beq_eq_false_iff_ne.mpr hc, if_neg hc]
    rfl

/-- Productions for one symbol substitute it in every word. -/
theorem Productions.apply_insert_empty (word : String) :
    (empty.insert symbol successor).apply word =
      String.ofList (substituted symbol successor.toList word.toList) := by
  rw [apply, substituted, funext expand_insert_empty]

namespace WeightedProduction

variable {seed : UInt64} {weight : Float32}

/-- The only alternative is chosen, whatever its weight and the random words are. -/
theorem apply_single (hfinite : weight.isFinite = true) (hpos : 0 < weight) (word : String) :
    apply ⟨symbol, [(successor, weight)], seed⟩ word =
      .ok (String.ofList (substituted symbol successor.toList word.toList)) := by
  set p : WeightedProduction := ⟨symbol, [(successor, weight)], seed⟩
  have htotal : (totalWeight p.weights).isFinite = true := by
    have hsingle : totalWeight p.weights = usableWeight weight := totalWeight_singleton weight
    rwa [hsingle, usableWeight, if_pos hpos]
  have hweight : ∃ a ∈ p.alternatives, 0 < a.2 := ⟨_, List.mem_singleton_self _, hpos⟩
  have htext : p.chosenText = fun _ => successor.toList := by
    funext i
    obtain ⟨a, ha, -, htext⟩ := exists_chosen htotal hweight i
    obtain rfl := List.mem_singleton.mp (List.mem_of_getElem? ha)
    exact htext
  rw [apply_eq_replaceNumbered htotal hweight, htext, replaceNumbered_const]

end WeightedProduction

/-- Replacements rewrite every word. -/
theorem Replacement.total_rule (r : Replacement) : r.rule.Total := by
  intro word
  exact ⟨r.apply word, rfl⟩

/-- **The three kinds of rules agree on one symbol.**  Replacing a symbol by a word, having a
production for this symbol alone, and having it as the only alternative, with any seed and any
finite weight above zero, give the same word after a pass over any word, and the same word after
any number of passes from any start word. -/
theorem one_symbol_rules_agree (symbol : Char) (successor : String) (seed : UInt64)
    {weight : Float32} (hfinite : weight.isFinite = true) (hpos : 0 < weight) :
    let r : Replacement := ⟨String.singleton symbol, successor⟩
    let p : Productions := Productions.empty.insert symbol successor
    let w : WeightedProduction := ⟨symbol, [(successor, weight)], seed⟩
    (∀ word, r.apply word = String.ofList (substituted symbol successor.toList word.toList) ∧
      p.apply word = r.apply word ∧ w.apply word = .ok (r.apply word)) ∧
    ∀ start parameters passes, ∃ grown,
      Grammar.grow ⟨start, r.rule, parameters⟩ passes = .ok grown ∧
      Grammar.grow ⟨start, p.rule, parameters⟩ passes = .ok grown ∧
      Grammar.grow ⟨start, w.rule, parameters⟩ passes = .ok grown := by
  intro r p w
  have hp (word : String) : p.apply word = r.apply word := by
    rw [Productions.apply_insert_empty, Replacement.apply_symbol]
  have hw (word : String) : w.apply word = .ok (r.apply word) := by
    rw [WeightedProduction.apply_single hfinite hpos, Replacement.apply_symbol]
  refine ⟨fun word => ⟨Replacement.apply_symbol word, hp word, hw word⟩, ?_⟩
  intro start parameters passes
  have hprule : p.rule = r.rule := funext fun word => congrArg Except.ok (hp word)
  have hwrule : w.rule = r.rule := funext hw
  obtain ⟨grown, rfl, hpass⟩ := r.total_rule.exists_generates start
  rw [hprule, hwrule]
  have hgrow := Grammar.grow_eq (g := ⟨grown 0, r.rule, parameters⟩) rfl hpass passes
  exact ⟨grown passes, hgrow, hgrow, hgrow⟩

/-- A successor that has the symbol in it, and the least weight above zero. -/
theorem one_symbol_rules_agree_recursive :
    let r : Replacement := ⟨String.singleton 'é', "é[é]"⟩
    let p : Productions := Productions.empty.insert 'é' "é[é]"
    let w : WeightedProduction := ⟨'é', [("é[é]", .ofBits 1)], 7⟩
    (Float32.ofBits 1).isFinite = true ∧ 0 < Float32.ofBits 1 ∧
      Grammar.grow ⟨"Fé", r.rule, .standard⟩ 2 = .ok "Fé[é][é[é]]" ∧
      Grammar.grow ⟨"Fé", p.rule, .standard⟩ 2 = .ok "Fé[é][é[é]]" ∧
      Grammar.grow ⟨"Fé", w.rule, .standard⟩ 2 = .ok "Fé[é][é[é]]" := by
  intro r p w
  have hfinite : (Float32.ofBits 1).isFinite = true := by decide +kernel
  have hpos : 0 < Float32.ofBits 1 := by decide +kernel
  have hgrown : Grammar.grow ⟨"Fé", r.rule, .standard⟩ 2 = .ok "Fé[é][é[é]]" := by decide +kernel
  obtain ⟨-, hgrow⟩ := one_symbol_rules_agree 'é' "é[é]" 7 hfinite hpos
  obtain ⟨grown, hr, hp, hw⟩ := hgrow "Fé" .standard 2
  obtain rfl := Except.ok.inj (hgrown.symm.trans hr)
  exact ⟨hfinite, hpos, hr, hp, hw⟩

end BranchingTubes
