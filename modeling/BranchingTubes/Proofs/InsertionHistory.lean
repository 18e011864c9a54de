import BranchingTubes.Proofs.Generations
import BranchingTubes.Rules.Productions
import Mathlib

/-!
# Productions after a history of insertions

Productions are inserted one after the other, and of several successors of one symbol the last
one counts.  `ofList_substitutes` says that nothing else of the history is left: the productions
are the substitution that puts the last successor in for each symbol, their size is the number of
symbols, and two histories give equal productions exactly when they agree on all last successors.

A substitution rewrites a word piece by piece, so the word grown from two words in a row is the
one grown from the first followed by the one grown from the second (`iterate_apply_append`).

That equal substitutions are equal productions is due to the order of the entries: a list in
strictly ascending order is determined by what is looked up in it (`Ascending.eq_of_lookup`).
-/

set_option autoImplicit false

namespace BranchingTubes

/-! ## Entries in ascending order -/

/-- The first entry of a list answers for its own symbol. -/
theorem lookup_cons_entry (entry : Char × String) (rest : List (Char × String)) (c : Char) :
    (entry :: rest).lookup c = if c = entry.1 then some entry.2 else rest.lookup c := by
  rw [List.lookup_cons]
  by_cases hc : c = entry.1
  · rw [if_pos hc, beq_iff_eq.mpr hc]
  · rw [if_neg hc, beq_eq_false_iff_ne.mpr hc]

/-- A successor that is put in answers for its symbol and for no other. -/
theorem lookup_putEntry (symbol : Char) (successor : String) (entries : List (Char × String))
    (c : Char) :
    (putEntry symbol successor entries).lookup c =
      if c = symbol then some successor else entries.lookup c := by
  induction entries with
  | nil => exact lookup_cons_entry (symbol, successor) [] c
  | cons entry rest ih =>
    simp only [putEntry]
    split
    · exact lookup_cons_entry (symbol, successor) (entry :: rest) c
    · split
      · next hsame =>
        -- The old entry is gone, and it was found for this symbol only.
        simp only [lookup_cons_entry, hsame]
        split <;> rfl
      · next hother =>
        rw [lookup_cons_entry, lookup_cons_entry, ih]
        by_cases hc : c = entry.1
        · rw [if_pos hc, if_pos hc, if_neg fun h => hother (h.symm.trans hc)]
        · rw [if_neg hc, if_neg hc]

namespace Ascending

variable {entries entries' : List (Char × String)}

/-- Ascending entries have each symbol once. -/
theorem nodup_symbols (h : Ascending entries) : (entries.map Prod.fst).Nodup := by
  rw [List.Nodup, List.pairwise_map]
  exact h.imp fun hlt => hlt.ne

/-- In ascending entries, being an entry and being found are the same. -/
theorem mem_iff_lookup (h : Ascending entries) {c : Char} {successor : String} :
    (c, successor) ∈ entries ↔ entries.lookup c = some successor := by
  induction entries with
  | nil => simp
  | cons entry rest ih =>
    obtain ⟨hfirst, hrest⟩ := List.pairwise_cons.mp h
    obtain ⟨symbol, word⟩ := entry
    rw [lookup_cons_entry, List.mem_cons, ih hrest]
    by_cases hc : c = symbol
    · subst hc
      have hnew : rest.lookup c ≠ some successor := fun hlater =>
        lt_irrefl c (hfirst _ ((ih hrest).mpr hlater))
      simp [hnew, eq_comm]
    · simp [hc]

/-- What is looked up in a list in ascending order determines the list. -/
theorem eq_of_lookup (h : Ascending entries) (h' : Ascending entries')
    (hlookup : ∀ c, entries.lookup c = entries'.lookup c) : entries = entries' := by
  have hperm : entries.Perm entries' := by
    rw [List.perm_ext_iff_of_nodup h.nodup_symbols.of_map h'.nodup_symbols.of_map]
    rintro ⟨c, successor⟩
    rw [h.mem_iff_lookup, h'.mem_iff_lookup, hlookup]
  refine hperm.eq_of_pairwise (fun a b _ _ hab hba => ?_) h h'
  exact absurd hab hba.asymm

end Ascending

/-- The successor that a history of insertions gives to a symbol at last. -/
def lastSuccessor? (history : List (Char × String)) (symbol : Char) : Option String :=
  ((history.filter fun entry => entry.1 = symbol).getLast?).map Prod.snd

/-- What was inserted last answers for its symbol, whatever was inserted before. -/
theorem lastSuccessor?_concat (history : List (Char × String)) (entry : Char × String)
    (c : Char) :
    lastSuccessor? (history ++ [entry]) c =
      if c = entry.1 then some entry.2 else lastSuccessor? history c := by
  unfold lastSuccessor?
  rw [List.filter_append]
  by_cases hc : c = entry.1
  · simp [hc]
  · simp [hc, Ne.symm hc]

/-- A symbol has a last successor if it was ever inserted. -/
theorem isSome_lastSuccessor?_iff (history : List (Char × String)) (c : Char) :
    (lastSuccessor? history c).isSome ↔ c ∈ history.map Prod.fst := by
  induction history using List.reverseRecOn with
  | nil => simp [lastSuccessor?]
  | append_singleton history entry ih =>
    rw [lastSuccessor?_concat]
    by_cases hc : c = entry.1
    · simp [hc]
    · simp [hc, ih]

namespace Productions

variable {p p' : Productions}

/-! ## The last insertion counts -/

/-- Productions with the same successors are the same. -/
theorem eq_of_successor? (h : ∀ c, p.successor? c = p'.successor? c) : p = p' := by
  obtain ⟨entries, ascending⟩ := p
  obtain ⟨entries', ascending'⟩ := p'
  obtain rfl := ascending.eq_of_lookup ascending' h
  rfl

/-- Productions made of a history have the last successor of each symbol. -/
theorem successor?_ofList (history : List (Char × String)) (c : Char) :
    (ofList history).successor? c = lastSuccessor? history c := by
  induction history using List.reverseRecOn with
  | nil => rfl
  | append_singleton history entry ih =>
    rw [lastSuccessor?_concat, ← ih, ofList, List.foldl_append]
    exact lookup_putEntry entry.1 entry.2 (ofList history).entries c

/-- Productions come back from their entries in any order. -/
theorem ofList_of_perm {entries : List (Char × String)} (h : entries.Perm p.entries) :
    ofList entries = p := by
  apply eq_of_successor?
  intro c
  have hmem (successor : String) :
      (c, successor) ∈ entries ↔ p.successor? c = some successor := by
    rw [h.mem_iff]
    exact p.ascending.mem_iff_lookup
  rw [successor?_ofList]
  cases hlast : lastSuccessor? entries c with
  | some successor =>
    unfold lastSuccessor? at hlast
    obtain ⟨entry, hentry, rfl⟩ := Option.map_eq_some_iff.mp hlast
    obtain ⟨hin, hsymbol⟩ := List.mem_filter.mp (List.mem_of_getLast? hentry)
    rw [(hmem entry.2).mp]
    rwa [← of_decide_eq_true hsymbol]
  | none =>
    have hnone := mt (isSome_lastSuccessor?_iff entries c).mpr (by simp [hlast])
    cases hfound : p.successor? c with
    | none => rfl
    | some successor =>
      exact absurd (List.mem_map_of_mem (f := Prod.fst) ((hmem successor).mpr hfound)) hnone

/-- The size is the number of different symbols. -/
theorem size_eq_card (p : Productions) : p.size = (p.entries.map Prod.fst).toFinset.card := by
  rw [List.toFinset_card_of_nodup p.ascending.nodup_symbols, List.length_map]
  rfl

/-- The symbols of productions are those that have a successor. -/
theorem mem_symbols_iff (p : Productions) (c : Char) :
    c ∈ p.entries.map Prod.fst ↔ (p.successor? c).isSome := by
  rw [Option.isSome_iff_exists]
  constructor
  · intro hmem
    obtain ⟨entry, hentry, rfl⟩ := List.mem_map.mp hmem
    exact ⟨entry.2, p.ascending.mem_iff_lookup.mp hentry⟩
  · rintro ⟨successor, hsuccessor⟩
    exact List.mem_map_of_mem (p.ascending.mem_iff_lookup.mpr hsuccessor)

/-- Productions made of a history have as many entries as the history has different symbols. -/
theorem size_ofList (history : List (Char × String)) :
    (ofList history).size = (history.map Prod.fst).toFinset.card := by
  rw [size_eq_card]
  congr 1
  ext c
  rw [List.mem_toFinset, List.mem_toFinset, mem_symbols_iff, successor?_ofList,
    isSome_lastSuccessor?_iff]

/-! ## Rewriting piece by piece -/

/-- A pass over two words, one after the other, rewrites each of them. -/
theorem apply_append (p : Productions) (u v : String) :
    p.apply (u ++ v) = p.apply u ++ p.apply v := by
  unfold apply
  rw [String.toList_append, List.flatMap_append, String.ofList_append]

/-- A pass rewrites a single symbol to its successor, or leaves it. -/
theorem apply_singleton (p : Productions) (c : Char) :
    p.apply (String.singleton c) = (p.successor? c).getD (String.singleton c) := by
  apply String.toList_injective
  simp only [apply, expand, String.toList_singleton, List.flatMap_singleton, String.toList_ofList]
  cases p.successor? c with
  | some successor => rfl
  | none => exact (String.toList_singleton ..).symm

/-- Passes over two words, one after the other, rewrite each of them. -/
theorem iterate_apply_append (p : Productions) (u v : String) (passes : ℕ) :
    p.apply^[passes] (u ++ v) = p.apply^[passes] u ++ p.apply^[passes] v := by
  induction passes with
  | zero => rfl
  | succ passes ih => simp only [Function.iterate_succ_apply', ih, apply_append]

/-- A grammar with productions grows what repeated passes make of its start. -/
theorem grow_eq_iterate (p : Productions) (start : String) (parameters : Parameters)
    (passes : ℕ) :
    Grammar.grow ⟨start, p.rule, parameters⟩ passes = .ok (p.apply^[passes] start) := by
  have hpass : p.rule.Generates fun passes => p.apply^[passes] start := fun i =>
    congrArg Except.ok (Function.iterate_succ_apply' p.apply i start).symm
  exact Grammar.grow_eq (g := ⟨start, p.rule, parameters⟩) rfl hpass passes

/-- The productions put in for each symbol what a function gives for it, in every word and in all
its generations. -/
structure Substitutes (p : Productions) (successor? : Char → Option String) : Prop where
  successor : ∀ c, p.successor? c = successor? c
  /-- A symbol without a successor is kept. -/
  apply_symbol : ∀ c, p.apply (String.singleton c) = (successor? c).getD (String.singleton c)
  apply_empty : p.apply "" = ""
  apply_append : ∀ u v, p.apply (u ++ v) = p.apply u ++ p.apply v
  grow_append : ∀ u v parameters passes, ∃ grown grown',
    Grammar.grow ⟨u, p.rule, parameters⟩ passes = .ok grown ∧
    Grammar.grow ⟨v, p.rule, parameters⟩ passes = .ok grown' ∧
    Grammar.grow ⟨u ++ v, p.rule, parameters⟩ passes = .ok (grown ++ grown')

/-- **The substitution of an insertion history.**  After any insertions into empty productions,
each symbol is rewritten to the successor that it was given last, and kept if it was given none;
there are as many productions as symbols that were given one; and the productions are equal to
those of another history if and only if both give each symbol the same successor at last. -/
theorem ofList_substitutes (history : List (Char × String)) :
    (ofList history).Substitutes (lastSuccessor? history) ∧
    (ofList history).size = (history.map Prod.fst).toFinset.card ∧
    ∀ history', ofList history = ofList history' ↔
      ∀ c, lastSuccessor? history c = lastSuccessor? history' c := by
  refine ⟨⟨successor?_ofList history, fun c => ?_, rfl, apply_append _, ?_⟩,
    size_ofList history, fun history' => ⟨fun h c => ?_, fun h => ?_⟩⟩
  · rw [apply_singleton, successor?_ofList]
  · intro u v parameters passes
    refine ⟨_, _, grow_eq_iterate _ u parameters passes, grow_eq_iterate _ v parameters passes, ?_⟩
    rw [grow_eq_iterate, iterate_apply_append]
  · rw [← successor?_ofList, ← successor?_ofList, h]
  · apply eq_of_successor?
    intro c
    rw [successor?_ofList, successor?_ofList, h]

end Productions

end BranchingTubes
