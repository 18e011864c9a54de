import BranchingTubes.Proofs.LotteryDraws
import BranchingTubes.Rules.WeightedProduction
import Mathlib

/-!
# The choices of a weighted production

The alternatives that a weighted production chooses form one stream: `choice` is a function of a
seed, some weights and the number of an occurrence, and of no text.  A pass replaces occurrence
number `i` of the symbol by the text of choice `i`, and every choice is of an alternative whose
weight counts.

The recursion that makes a pass carries the number of the next occurrence along.
`replaceNumbered_eq_flatMap` reads it off the text instead: it is how often the symbol stands
before.  A part of a word is therefore replaced as it is on its own, from the number on that it
starts with (`replaceNumbered_append`), and the choices are put between the stretches of the word
that have no occurrence (`replaceNumbered_stretches`).
-/

set_option autoImplicit false

namespace BranchingTubes

/-! ## Passes by occurrence number -/

section Passes

variable (symbol : Char) (successor : ℕ → List Char)

/-- The symbol itself is replaced, and the occurrence after it has the next number. -/
theorem replaceNumbered_cons_self (i : ℕ) (rest : List Char) :
    replaceNumbered symbol successor i (symbol :: rest) =
      successor i ++ replaceNumbered symbol successor (i + 1) rest := if_pos rfl

/-- Any other character stays and counts for nothing. -/
theorem replaceNumbered_cons_of_ne (i : ℕ) {c : Char} (hc : c ≠ symbol) (rest : List Char) :
    replaceNumbered symbol successor i (c :: rest) =
      c :: replaceNumbered symbol successor i rest := if_neg hc

/-- What follows a word is numbered on from the occurrences in it. -/
theorem replaceNumbered_append (i : ℕ) (u v : List Char) :
    replaceNumbered symbol successor i (u ++ v) =
      replaceNumbered symbol successor i u ++
        replaceNumbered symbol successor (i + u.count symbol) v := by
  induction u generalizing i with
  | nil => rfl
  | cons c u ih =>
    rw [List.cons_append]
    by_cases hc : c = symbol
    · subst hc
      rw [replaceNumbered_cons_self, replaceNumbered_cons_self, ih, List.count_cons_self,
        List.append_assoc, Nat.add_right_comm, Nat.add_assoc]
    · rw [replaceNumbered_cons_of_ne symbol successor i hc,
        replaceNumbered_cons_of_ne symbol successor i hc, ih, List.count_cons_of_ne hc,
        List.cons_append]

/-- A word without the symbol stays as it is. -/
theorem replaceNumbered_of_not_mem (i : ℕ) {word : List Char} (h : symbol ∉ word) :
    replaceNumbered symbol successor i word = word := by
  induction word with
  | nil => rfl
  | cons c word ih =>
    rw [List.mem_cons, not_or] at h
    rw [replaceNumbered_cons_of_ne symbol successor i (Ne.symm h.1), ih h.2]

/-- A word is replaced character by character.  The number of an occurrence is how often the
symbol stands before it. -/
theorem replaceNumbered_eq_flatMap (word : List Char) :
    replaceNumbered symbol successor 0 word =
      word.zipIdx.flatMap fun (c, j) =>
        if c = symbol then successor ((word.take j).count symbol) else [c] := by
  -- The induction goes over the rest of the word; what is done fixes the number reached.
  suffices h : ∀ finished rest : List Char,
      replaceNumbered symbol successor (finished.count symbol) rest =
        (rest.zipIdx finished.length).flatMap fun (c, j) =>
          if c = symbol then successor (((finished ++ rest).take j).count symbol) else [c] by
    exact h [] word
  intro finished rest
  induction rest generalizing finished with
  | nil => rfl
  | cons c rest ih =>
    have hnext := ih (finished ++ [c])
    rw [List.length_append, List.length_singleton, List.append_assoc, List.singleton_append]
      at hnext
    rw [List.zipIdx_cons, List.flatMap_cons, ← hnext]
    simp only [List.take_left]
    by_cases hc : c = symbol
    · subst hc
      rw [replaceNumbered_cons_self, if_pos rfl, List.count_append, List.count_singleton_self]
    · have hcount : [c].count symbol = 0 := List.count_eq_zero.mpr (by simpa using Ne.symm hc)
      rw [replaceNumbered_cons_of_ne symbol successor _ hc, if_neg hc, List.count_append, hcount]
      rfl

/-- Stretches without the symbol keep their place around the replaced occurrences. -/
theorem replaceNumbered_stretches (i : ℕ) {first : List Char} {stretches : List (List Char)}
    (hfirst : symbol ∉ first) (hstretches : ∀ g ∈ stretches, symbol ∉ g) :
    replaceNumbered symbol successor i (first ++ stretches.flatMap (symbol :: ·)) =
      first ++ (stretches.zipIdx i).flatMap fun (g, k) => successor k ++ g := by
  rw [replaceNumbered_append, replaceNumbered_of_not_mem symbol successor i hfirst,
    List.count_eq_zero.mpr hfirst, add_zero]
  congr 1
  induction stretches generalizing i with
  | nil => rfl
  | cons g rest ih =>
    obtain ⟨hg, hrest⟩ := List.forall_mem_cons.mp hstretches
    rw [List.flatMap_cons, List.zipIdx_cons, List.flatMap_cons, List.cons_append,
      replaceNumbered_cons_self, replaceNumbered_append,
      replaceNumbered_of_not_mem symbol successor _ hg, List.count_eq_zero.mpr hg, add_zero,
      ih (i + 1) hrest, List.append_assoc]

end Passes

/-! ## One stream of choices -/

/-- The alternative chosen for an occurrence number, given a seed and the weights. -/
def choice (seed : UInt64) (weights : List Float32) (i : ℕ) : ℕ :=
  match Lottery.ofWeights weights with
  | .ok (some l) => l.ticket ((Keystream.ofSeed seed).word i)
  | _ => 0

namespace WeightedProduction

variable (p : WeightedProduction)

/-- The weights of the alternatives, in order. -/
def weights : List Float32 := p.alternatives.map Prod.snd

/-- The text put in for an occurrence number. -/
def chosenText (i : ℕ) : List Char := p.successor (choice p.seed p.weights i)

variable {p}

/-- Every pick of a lottery that is made is the number of an alternative, so the text of a pick is
never missing. -/
theorem pick_lt {l : Lottery} (h : p.lottery = .ok (some l)) (i : ℕ) :
    p.pick l i < p.alternatives.length := by
  have hticket := ticket_lt h ((Keystream.ofSeed p.seed).word i)
  rwa [List.length_map] at hticket

/-- No weight that counts: nothing is rewritten. -/
theorem apply_of_no_weight (h : ∀ a ∈ p.alternatives, ¬ 0 < a.2) (word : String) :
    p.apply word = .ok word := by
  have hnone : p.lottery = .ok none := by
    apply ofWeights_eq_none
    intro w hw
    obtain ⟨a, ha, rfl⟩ := List.mem_map.mp hw
    exact h a ha
  rw [apply, hnone]

/-- Unless the weights sum to infinity, a pass leaves the word or puts in what a lottery draws. -/
theorem apply_cases (h : (totalWeight p.weights).isInf = false) (word : String) :
    p.apply word = .ok word ∨ ∃ l, p.apply word = .ok (String.ofList
      (replaceNumbered p.symbol (fun i => p.successor (p.pick l i)) 0 word.toList)) := by
  obtain ⟨made, hmade⟩ := exists_lottery h
  have hlottery : p.lottery = .ok made := hmade
  rw [apply, hlottery]
  cases made with
  | none => exact .inl rfl
  | some l => exact .inr ⟨l, rfl⟩

/-- Weights that sum to infinity: a pass fails, whether or not the symbol occurs. -/
theorem apply_of_infinite (h : (totalWeight p.weights).isInf = true) (word : String) :
    p.apply word = .error .infiniteWeight := by
  have hlottery : p.lottery = .error .infiniteWeight := ofWeights_eq_error h
  rw [apply, hlottery]

/-- A pass puts in the chosen texts in the order of the occurrences. -/
theorem apply_eq_replaceNumbered (hfinite : (totalWeight p.weights).isFinite = true)
    (h : ∃ a ∈ p.alternatives, 0 < a.2) (word : String) :
    p.apply word = .ok (String.ofList (replaceNumbered p.symbol p.chosenText 0 word.toList)) := by
  obtain ⟨l, hl, -⟩ := exists_lottery_of_pos hfinite h
  have hlottery : p.lottery = .ok (some l) := hl
  have hpick : (fun i => p.successor (p.pick l i)) = p.chosenText := by
    funext i
    rw [chosenText, choice, weights, hl]
    rfl
  rw [apply, hlottery, ← hpick]

/-- The number drawn for an occurrence number. -/
def drawn (p : WeightedProduction) (i : ℕ) : Float32 :=
  drawnNumber (totalWeight p.weights) ((Keystream.ofSeed p.seed).word i)

/-- Every choice is of an alternative whose weight counts, the one at which the running sum of the
weights exceeds the drawn number. -/
theorem exists_choice (hfinite : (totalWeight p.weights).isFinite = true)
    (h : ∃ a ∈ p.alternatives, 0 < a.2) (i : ℕ) :
    ∃ a, p.alternatives[choice p.seed p.weights i]? = some a ∧ 0 < a.2 ∧
      firstAbove (fun b => usableWeight b.2) (p.drawn i) 0 p.alternatives = some a := by
  obtain ⟨l, hl, hticket⟩ := exists_lottery_of_pos hfinite h
  obtain ⟨a, ha, hpos, hfirst⟩ := hticket ((Keystream.ofSeed p.seed).word i)
  refine ⟨a, ?_, hpos, hfirst⟩
  rw [choice, weights, hl]
  exact ha

/-- The text put in is that of the chosen alternative. -/
theorem chosenText_eq {a : String × Float32} {i : ℕ}
    (h : p.alternatives[choice p.seed p.weights i]? = some a) : p.chosenText i = a.1.toList := by
  rw [chosenText, successor, h]

/-- Every choice is of an alternative whose weight counts, and its text is put in. -/
theorem exists_chosen (hfinite : (totalWeight p.weights).isFinite = true)
    (h : ∃ a ∈ p.alternatives, 0 < a.2) (i : ℕ) :
    ∃ a, p.alternatives[choice p.seed p.weights i]? = some a ∧ 0 < a.2 ∧
      p.chosenText i = a.1.toList := by
  obtain ⟨a, ha, hpos, -⟩ := exists_choice hfinite h i
  exact ⟨a, ha, hpos, chosenText_eq ha⟩

/-- The choices of a weighted production are one stream, fixed by its seed and its weights.  If
no weight counts, a pass changes nothing.  Otherwise every choice is of an alternative whose
weight counts, and a pass over a word replaces each occurrence of the symbol by the text of the
choice that has its number, and nothing else.  What a word becomes is then the beginning of what
a longer word becomes, and the texts put in do not depend on what stands between the
occurrences. -/
theorem apply_follows_choices (hfinite : (totalWeight p.weights).isFinite = true) :
    ((∀ a ∈ p.alternatives, ¬ 0 < a.2) → ∀ word, p.apply word = .ok word) ∧
      ((∃ a ∈ p.alternatives, 0 < a.2) →
        (∀ i, ∃ a, p.alternatives[choice p.seed p.weights i]? = some a ∧ 0 < a.2 ∧
          p.chosenText i = a.1.toList) ∧
        (∀ word, p.apply word = .ok (String.ofList (word.toList.zipIdx.flatMap fun (c, j) =>
          if c = p.symbol then p.chosenText ((word.toList.take j).count p.symbol) else [c]))) ∧
        (∀ u v, ∃ out more, p.apply u = .ok out ∧ p.apply (u ++ v) = .ok (out ++ more)) ∧
        ∀ (first : List Char) (stretches : List (List Char)), p.symbol ∉ first →
          (∀ g ∈ stretches, p.symbol ∉ g) →
          p.apply (String.ofList (first ++ stretches.flatMap (p.symbol :: ·))) =
            .ok (String.ofList
              (first ++ stretches.zipIdx.flatMap fun (g, i) => p.chosenText i ++ g))) := by
  refine ⟨apply_of_no_weight, fun h => ⟨exists_chosen hfinite h, ?_, ?_, ?_⟩⟩
  · intro word
    rw [apply_eq_replaceNumbered hfinite h, replaceNumbered_eq_flatMap]
  · intro u v
    refine ⟨_, String.ofList (replaceNumbered p.symbol p.chosenText (u.toList.count p.symbol)
      v.toList), apply_eq_replaceNumbered hfinite h u, ?_⟩
    rw [apply_eq_replaceNumbered hfinite h, String.toList_append, replaceNumbered_append, zero_add,
      String.ofList_append]
  · intro first stretches hfirst hstretches
    rw [apply_eq_replaceNumbered hfinite h, String.toList_ofList,
      replaceNumbered_stretches p.symbol p.chosenText 0 hfirst hstretches]

/-- Of three alternatives only the one in the middle has a weight that counts, although the
others have a negative weight and none. -/
theorem apply_follows_choices_of_middle :
    let p : WeightedProduction := ⟨'X', [("[X]", -1), ("FX", 0.5), ("$", 0)], 7⟩
    (totalWeight p.weights).isFinite = true ∧
      ∀ i, ∃ a, p.alternatives[choice p.seed p.weights i]? = some a ∧ 0 < a.2 ∧
        p.chosenText i = a.1.toList := by
  intro p
  have hfinite : (totalWeight p.weights).isFinite = true := by decide +kernel
  have hweight : ∃ a ∈ p.alternatives, 0 < a.2 :=
    ⟨("FX", 0.5), List.mem_cons_of_mem _ List.mem_cons_self, by decide +kernel⟩
  exact ⟨hfinite, ((apply_follows_choices hfinite).2 hweight).1⟩

end WeightedProduction

end BranchingTubes
