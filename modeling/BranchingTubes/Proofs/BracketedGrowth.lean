import BranchingTubes.Growth.Grammar
import BranchingTubes.Proofs.BracketDepth
import BranchingTubes.Proofs.ChoiceStream
import BranchingTubes.Proofs.InterpretationOutcome
import BranchingTubes.Proofs.ReplacementSteps
import BranchingTubes.Rules.Productions
import Mathlib

/-!
# Well-bracketed grammars always build

A grammar whose start word is well-bracketed, and whose rule puts in well-bracketed words
only, grows well-bracketed words.  Each of the three kinds of rules is a way of grafting
(`Rule.Grafts`): simultaneous productions and weighted ones cut out single symbols, literal
replacement cuts out well-bracketed occurrences of its pattern.  A pass therefore adds at
most the depth of the deepest word put in.

What is well-bracketed and not too deep can be interpreted: no symbol of it opens a branch
beyond the limit or closes one that is not open (`offence?_eq_none`).
-/

set_option autoImplicit false

namespace BranchingTubes

/-! ## The rules graft -/

section Rules

variable {n : ℕ}

/-- A pass of productions grafts a word if no bracket is rewritten and every successor is well
bracketed. -/
theorem grafted_flatMap_expand {p : Productions}
    (hsymbols : ∀ e ∈ p.entries, e.1 ≠ '[' ∧ e.1 ≠ ']')
    (hsuccessors : ∀ e ∈ p.entries, Marks.text.WellBracketed e.2.toList)
    (hdepth : ∀ e ∈ p.entries, Marks.text.depth e.2.toList ≤ n) (w : List Char) :
    Marks.text.Grafted n w (w.flatMap p.expand) := by
  induction w with
  | nil => exact .nil
  | cons c w ih =>
    rw [List.flatMap_cons]
    unfold Productions.expand
    split
    next successor hsuccessor =>
      obtain ⟨before, after, hentries, -⟩ := List.lookup_eq_some_iff.mp hsuccessor
      have hmem : (c, successor) ∈ p.entries := by simp [hentries]
      obtain ⟨hopens, hcloses⟩ := hsymbols _ hmem
      apply Marks.Grafted.graft_symbol _ _ (hsuccessors _ hmem) (hdepth _ hmem) ih
      · simpa [Marks.text] using hopens
      · simpa [Marks.text] using hcloses
    next => exact .keep c ih

/-- A pass that replaces a symbol by its number grafts a word if the symbol is no bracket and every
successor is well bracketed. -/
theorem grafted_replaceNumbered {symbol : Char} {successor : ℕ → List Char}
    (hsymbol : symbol ≠ '[' ∧ symbol ≠ ']')
    (hsuccessor : ∀ i, Marks.text.WellBracketed (successor i))
    (hdepth : ∀ i, Marks.text.depth (successor i) ≤ n) (i : ℕ) (w : List Char) :
    Marks.text.Grafted n w (replaceNumbered symbol successor i w) := by
  induction w generalizing i with
  | nil => exact .nil
  | cons c w ih =>
    unfold replaceNumbered
    split
    next hc =>
      apply Marks.Grafted.graft_symbol _ _ (hsuccessor i) (hdepth i) (ih (i + 1))
      · simpa [Marks.text, hc] using hsymbol.1
      · simpa [Marks.text, hc] using hsymbol.2
    next => exact .keep c (ih i)

/-- A pass that replaces a well-bracketed pattern by a well-bracketed word grafts a word. -/
theorem grafted_replaced {pattern successor : List Char} (hne : pattern ≠ [])
    (hpattern : Marks.text.WellBracketed pattern)
    (hsuccessor : Marks.text.WellBracketed successor) (hdepth : Marks.text.depth successor ≤ n)
    (w : List Char) : Marks.text.Grafted n w (replaced pattern successor w) := by
  induction w using occurrence_induction hne with
  | nil =>
    rw [replaced_nil]
    exact .nil
  | occurrence rest ih =>
    rw [replaced_append hne]
    exact .graft hpattern hsuccessor hdepth ih
  | symbol c rest hnone ih =>
    rw [replaced_cons hnone]
    exact .keep c ih

/-- One pass of a rule gives a word, and this word is grafted from the one before. -/
def Rule.Grafts (rule : Rule) (n : ℕ) : Prop :=
  ∀ word, ∃ next, rule word = .ok next ∧ Marks.text.Grafted n word.toList next.toList

/-- A rule of one of the three kinds that puts in well-bracketed words only, and the largest
depth of these words.  Productions and weighted productions do not rewrite brackets, and the
pattern of a replacement is well-bracketed too. -/
inductive Rule.Bracketed : Rule → ℕ → Prop where
  | productions (p : Productions) (symbols : ∀ e ∈ p.entries, e.1 ≠ '[' ∧ e.1 ≠ ']')
      (successors : ∀ e ∈ p.entries, Marks.text.WellBracketed e.2.toList) :
      Bracketed p.rule (Marks.text.greatestDepth (p.entries.map fun e => e.2.toList))
  | weighted (p : WeightedProduction) (symbol : p.symbol ≠ '[' ∧ p.symbol ≠ ']')
      (alternatives : ∀ a ∈ p.alternatives, Marks.text.WellBracketed a.1.toList)
      (weight : (totalWeight (p.alternatives.map Prod.snd)).isInf = false) :
      Bracketed p.rule (Marks.text.greatestDepth (p.alternatives.map fun a => a.1.toList))
  | replacement (r : Replacement) (pattern : Marks.text.WellBracketed r.pattern.toList)
      (successor : Marks.text.WellBracketed r.successor.toList) :
      Bracketed r.rule (Marks.text.greatestDepth [r.successor.toList])

/-- The text of an alternative is well bracketed if all of them are, and at most as deep as the
deepest one; out of range it is empty. -/
theorem WeightedProduction.wellBracketed_successor {p : WeightedProduction}
    (h : ∀ a ∈ p.alternatives, Marks.text.WellBracketed a.1.toList) (alternative : ℕ) :
    Marks.text.WellBracketed (p.successor alternative) ∧
      Marks.text.depth (p.successor alternative) ≤
        Marks.text.greatestDepth (p.alternatives.map fun a => a.1.toList) := by
  unfold WeightedProduction.successor
  split
  next word weight ha =>
    have hmem : (word, weight) ∈ p.alternatives := List.mem_of_getElem? ha
    exact ⟨h _ hmem, Marks.depth_le_greatestDepth (List.mem_map_of_mem hmem)⟩
  next =>
    refine ⟨Marks.wellBracketed_nil, Marks.depth_le_iff.mpr fun u hu => ?_⟩
    rw [List.prefix_nil.mp hu, Marks.excess_nil]
    exact Int.natCast_nonneg _

/-- A bracketed rule grafts every word, whichever kind of rule it is. -/
theorem Rule.Bracketed.grafts {rule : Rule} (h : rule.Bracketed n) : rule.Grafts n := by
  intro word
  cases h with
  | productions p symbols successors =>
    refine ⟨p.apply word, rfl, ?_⟩
    rw [Productions.apply, String.toList_ofList]
    apply grafted_flatMap_expand symbols successors
    intro e he
    exact Marks.depth_le_greatestDepth (List.mem_map_of_mem he)
  | weighted p symbol alternatives weight =>
    obtain happly | ⟨l, happly⟩ := WeightedProduction.apply_cases (p := p) weight word
    · exact ⟨word, happly, .refl _ _⟩
    · refine ⟨_, happly, ?_⟩
      rw [String.toList_ofList]
      apply grafted_replaceNumbered symbol
      · intro i
        exact (p.wellBracketed_successor alternatives _).1
      · intro i
        exact (p.wellBracketed_successor alternatives _).2
  | replacement r pattern successor =>
    refine ⟨r.apply word, rfl, ?_⟩
    by_cases hne : r.pattern.toList = []
    · rw [Replacement.apply, if_pos (by simpa using hne)]
      exact .refl _ _
    · rw [toList_apply hne]
      apply grafted_replaced hne pattern successor
      exact Marks.depth_le_greatestDepth (by simp)

/-- A pass after the other, the word stays well-bracketed and gets deeper by no more than
the deepest word put in. -/
theorem Rule.Grafts.iterate {rule : Rule} (h : rule.Grafts n) (passes : ℕ) {word : String}
    (hword : Marks.text.WellBracketed word.toList) :
    ∃ grown, rule.iterate passes word = .ok grown ∧ Marks.text.WellBracketed grown.toList ∧
      Marks.text.depth grown.toList ≤ Marks.text.depth word.toList + passes * n := by
  induction passes generalizing word with
  | zero => exact ⟨word, rfl, hword, by simp⟩
  | succ passes ih =>
    obtain ⟨next, hnext, hgrafted⟩ := h word
    obtain ⟨grown, hgrown, hbracketed, hdepth⟩ := ih (hgrafted.wellBracketed hword)
    refine ⟨grown, ?_, hbracketed, ?_⟩
    · unfold Rule.iterate
      rw [hnext]
      exact hgrown
    · calc Marks.text.depth grown.toList
          ≤ Marks.text.depth next.toList + passes * n := hdepth
        _ ≤ Marks.text.depth word.toList + n + passes * n := by
            have := hgrafted.depth_le
            omega
        _ = Marks.text.depth word.toList + (passes + 1) * n := by ring

end Rules

/-! ## Well-bracketed words are interpreted -/

/-- No symbol offends in a well-bracketed word that is not too deep and does not draw too
much. -/
theorem Marks.offence?_eq_none {α : Type} {k : Marks α} {settings : TubeSettings} {w : List α}
    (hw : k.WellBracketed w) (hdepth : k.depth w ≤ settings.depthLimit.toNat)
    (hdraws : 2 * settings.sides.toNat * w.countP k.draws ≤ 2 ^ 32 - 1) (index : ℕ) :
    k.offence? settings w index = none := by
  unfold offence?
  cases hc : w[index]? with
  | none => rfl
  | some c =>
    have hnext : w.take (index + 1) = w.take index ++ [c] := by rw [List.take_add_one, hc]; rfl
    have hprefix : w.take index ++ [c] <+: w := hnext ▸ List.take_prefix (index + 1) w
    have hheight : k.excess (w.take index ++ [c]) = k.openBefore w index + k.excess [c] :=
      k.excess_append _ _
    rw [Option.bind_some, judge, if_neg, if_neg, if_neg]
    · rintro ⟨hdraw, hmany⟩
      have hcount : k.drawnBefore w index + 1 ≤ w.countP k.draws := by
        calc k.drawnBefore w index + 1
            = (w.take index ++ [c]).countP k.draws := by simp [drawnBefore, hdraw]
          _ ≤ w.countP k.draws := hprefix.sublist.countP_le
      have := Nat.mul_le_mul_left (2 * settings.sides.toNat) hcount
      omega
    · rintro ⟨hcloses, hzero⟩
      have hnonneg := hw.nonneg _ hprefix
      rw [hheight, hzero, excess_of_closes hcloses] at hnonneg
      omega
    · rintro ⟨hopens, hlimit⟩
      have hbound : k.excess (w.take index ++ [c]) ≤ k.depth w := excess_le_depth hprefix
      rw [hheight, excess_of_opens hopens] at hbound
      omega

/-- A sound setup interprets every well-bracketed word that is not too deep and does not draw too
much, and no branch stays open. -/
theorem Setup.exists_interpretation {s : Setup} {word : String} (hs : s.Sound)
    (hword : Marks.text.WellBracketed word.toList)
    (hdepth : Marks.text.depth word.toList ≤ s.settings.depthLimit.toNat)
    (hdraws : 2 * s.settings.sides.toNat * word.toList.count 'F' ≤ 2 ^ 32 - 1) :
    ∃ r, s.interpretText word = .ok r ∧ r.openBranches = 0 := by
  have hnone : ∀ index, Marks.text.offence? s.settings word.toList index = none :=
    Marks.offence?_eq_none hword hdepth hdraws
  have hopen : ((0 : ℕ) : ℤ) = Marks.text.openBefore word.toList word.toList.length := by
    rw [Marks.openBefore, List.take_length, hword.balanced]
    rfl
  have hresult : (s.interpretText word).map Interpretation.openBranches = .ok 0 := by
    rw [interpretText, outcome_iff_of_instructions, outcome_map_iff, ← Marks.text_eq_comap]
    exact .success hs hnone hopen
  cases hr : s.interpretText word with
  | error e => simp [hr, Except.map] at hresult
  | ok r => exact ⟨r, rfl, by simpa [hr, Except.map] using hresult⟩

namespace Grammar

/-- **Well-bracketed grammars always build.**  From a well-bracketed start word, a rule that
puts in well-bracketed words only grows a well-bracketed word, each pass adding at most the
largest depth of the words put in.  With a sound setup, a depth limit of that size and few
enough segments, the grown word is interpreted, and no branch is left open. -/
theorem grow_builds {g : Grammar} {n : ℕ} (hrule : g.rule.Bracketed n)
    (hstart : Marks.text.WellBracketed g.start.toList) (passes : ℕ) :
    ∃ word, g.grow passes = .ok word ∧ Marks.text.WellBracketed word.toList ∧
      Marks.text.depth word.toList ≤ Marks.text.depth g.start.toList + passes * n ∧
      ∀ s : Setup, s.fault? = none →
        Marks.text.depth g.start.toList + passes * n ≤ s.settings.depthLimit.toNat →
        2 * s.settings.sides.toNat * word.toList.count 'F' ≤ 2 ^ 32 - 1 →
        ∃ r, s.interpretText word = .ok r ∧ r.openBranches = 0 ∧
          s.meshOfText word = .ok r.mesh := by
  obtain ⟨word, hword, hbracketed, hdepth⟩ := hrule.grafts.iterate passes hstart
  refine ⟨word, hword, hbracketed, hdepth, ?_⟩
  intro s hs hlimit hdraws
  have hsound : s.Sound := Setup.sound_of_fault?_eq_none hs
  obtain ⟨r, hr, hopen⟩ :=
    Setup.exists_interpretation hsound hbracketed (hdepth.trans hlimit) hdraws
  refine ⟨r, hr, hopen, ?_⟩
  rw [Setup.meshOfText, hr]
  rfl

/-- One grammar of each kind after two passes.  The pattern of the replacement is a branch
with a segment after it. -/
theorem grow_builds_each_kind :
    let p := Productions.ofList [('X', "F[+X]F[-X]")]
    let w : WeightedProduction := ⟨'X', [("F[+X]", 1), ("F[[-X]]", 2)], 7⟩
    let r : Replacement := ⟨"[X]F", "F[[X]F]"⟩
    (∃ word i, grow ⟨"[X]", p.rule, .standard⟩ 2 = .ok word ∧
      Marks.text.depth word.toList ≤ 1 + 2 * 1 ∧
      Setup.standard.interpretText word = .ok i ∧ i.openBranches = 0) ∧
    (∃ word i, grow ⟨"X[X]", w.rule, .standard⟩ 2 = .ok word ∧
      Marks.text.depth word.toList ≤ 1 + 2 * 2 ∧
      Setup.standard.interpretText word = .ok i ∧ i.openBranches = 0) ∧
    ∃ word i, grow ⟨"F[X]F", r.rule, .standard⟩ 2 = .ok word ∧
      Marks.text.depth word.toList ≤ 1 + 2 * 2 ∧
      Setup.standard.interpretText word = .ok i ∧ i.openBranches = 0 := by
  intro p w r
  have hp : grow ⟨"[X]", p.rule, .standard⟩ 2 = .ok "[F[+F[+X]F[-X]]F[-F[+X]F[-X]]]" := by
    decide +kernel
  have hw : grow ⟨"X[X]", w.rule, .standard⟩ 2 = .ok "F[[-F[[-X]]]][F[+F[+X]]]" := by
    decide +kernel
  have hr : grow ⟨"F[X]F", r.rule, .standard⟩ 2 = .ok "FF[F[[X]F]]" := by decide +kernel
  refine ⟨?_, ?_, ?_⟩
  · obtain ⟨word, hword, -, hdepth, hbuild⟩ := grow_builds (g := ⟨"[X]", p.rule, .standard⟩)
      (.productions p (by decide +kernel) (by decide +kernel)) (by decide +kernel) 2
    obtain rfl := Except.ok.inj (hp.symm.trans hword)
    obtain ⟨i, hi, hopen, -⟩ :=
      hbuild .standard (by decide +kernel) (by decide +kernel) (by decide +kernel)
    exact ⟨_, i, hp, hdepth.trans (by decide +kernel), hi, hopen⟩
  · obtain ⟨word, hword, -, hdepth, hbuild⟩ := grow_builds (g := ⟨"X[X]", w.rule, .standard⟩)
      (.weighted w (by decide +kernel) (by decide +kernel) (by decide +kernel))
      (by decide +kernel) 2
    obtain rfl := Except.ok.inj (hw.symm.trans hword)
    obtain ⟨i, hi, hopen, -⟩ :=
      hbuild .standard (by decide +kernel) (by decide +kernel) (by decide +kernel)
    exact ⟨_, i, hw, hdepth.trans (by decide +kernel), hi, hopen⟩
  · obtain ⟨word, hword, -, hdepth, hbuild⟩ := grow_builds (g := ⟨"F[X]F", r.rule, .standard⟩)
      (.replacement r (by decide +kernel) (by decide +kernel)) (by decide +kernel) 2
    obtain rfl := Except.ok.inj (hr.symm.trans hword)
    obtain ⟨i, hi, hopen, -⟩ :=
      hbuild .standard (by decide +kernel) (by decide +kernel) (by decide +kernel)
    exact ⟨_, i, hr, hdepth.trans (by decide +kernel), hi, hopen⟩

end Grammar

end BranchingTubes
