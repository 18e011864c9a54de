import BranchingTubes.Proofs.LiveWords
import Mathlib

/-!
# The depth of a word, and grafting

The depth of a word is how many branches it has open at once at most.  A word is `Grafted`
from another if well-bracketed pieces of it are replaced by well-bracketed words.  The
heights between the pieces stay what they are, so grafting keeps a word well-bracketed
(`Grafted.wellBracketed`) and makes it deeper by no more than the words that are put in
(`Grafted.depth_le`).
-/

set_option autoImplicit false

namespace BranchingTubes

namespace Marks

variable {α : Type} (k : Marks α)

/-- The largest number of branches that are open after some prefix of a word. -/
def depth (w : List α) : ℕ :=
  (Finset.range (w.length + 1)).sup fun index => (k.excess (w.take index)).toNat

/-- The largest depth of some words, zero if there are none. -/
def greatestDepth (words : List (List α)) : ℕ := (words.map k.depth).foldr max 0

instance (w : List α) : Decidable (k.WellBracketed w) :=
  decidable_of_iff ((∀ u ∈ w.inits, 0 ≤ k.excess u) ∧ k.excess w = 0)
    ⟨fun h => ⟨fun u hu => h.1 u ((List.mem_inits u w).mpr hu), h.2⟩,
      fun h => ⟨fun u hu => h.nonneg u ((List.mem_inits u w).mp hu), h.balanced⟩⟩

variable {k} {n : ℕ} {w w' : List α}

/-- A word is at most so deep if no beginning of it opens more branches than that without closing
them. -/
theorem depth_le_iff : k.depth w ≤ n ↔ ∀ u, u <+: w → k.excess u ≤ n := by
  unfold depth
  rw [Finset.sup_le_iff]
  constructor
  · intro h u hu
    have hlength : u.length ∈ Finset.range (w.length + 1) := by
      rw [Finset.mem_range]
      exact Nat.lt_succ_of_le hu.length_le
    have hn := h u.length hlength
    rw [← List.prefix_iff_eq_take.mp hu] at hn
    omega
  · intro h index _
    have hn := h (w.take index) (List.take_prefix index w)
    omega

/-- No beginning of a word opens more branches than the word is deep. -/
theorem excess_le_depth {u : List α} (h : u <+: w) : k.excess u ≤ k.depth w :=
  depth_le_iff.mp le_rfl u h

/-- A word of a list is at most as deep as the deepest one. -/
theorem depth_le_greatestDepth {words : List (List α)} (h : w ∈ words) :
    k.depth w ≤ k.greatestDepth words := by
  induction words with
  | nil => simp at h
  | cons first rest ih =>
    rw [greatestDepth, List.map_cons, List.foldr_cons, le_max_iff]
    rcases List.mem_cons.mp h with rfl | h
    · exact .inl le_rfl
    · exact .inr (ih h)

/-- The empty word closes the branches that it opens. -/
theorem wellBracketed_nil : k.WellBracketed [] := by
  refine ⟨fun u hu => ?_, rfl⟩
  rw [List.prefix_nil.mp hu]
  rfl

/-- A symbol that neither opens nor closes is a well-bracketed word. -/
theorem wellBracketed_singleton {c : α} (ho : k.opens c = false) (hc : k.closes c = false) :
    k.WellBracketed [c] := by
  have hexcess : k.excess [c] = 0 := by simp [excess, ho, hc]
  refine ⟨fun u hu => ?_, hexcess⟩
  rcases List.prefix_cons_iff.mp hu with rfl | ⟨t, rfl, ht⟩
  · exact le_rfl
  · rw [List.prefix_nil.mp ht, hexcess]

/-! ## Grafting -/

/-- The second word is the first with some pieces of it, all well-bracketed, replaced by
well-bracketed words of at most the given depth. -/
inductive Grafted (k : Marks α) (n : ℕ) : List α → List α → Prop where
  | nil : Grafted k n [] []
  | keep (c : α) {w w' : List α} (rest : Grafted k n w w') : Grafted k n (c :: w) (c :: w')
  | graft {old new w w' : List α} (removed : k.WellBracketed old) (added : k.WellBracketed new)
      (depth : k.depth new ≤ n) (rest : Grafted k n w w') : Grafted k n (old ++ w) (new ++ w')

namespace Grafted

/-- A word is a grafted form of itself, with nothing put in. -/
theorem refl (n : ℕ) (w : List α) : k.Grafted n w w := by
  induction w with
  | nil => exact .nil
  | cons c w ih => exact .keep c ih

/-- A symbol that neither opens nor closes may be replaced. -/
theorem graft_symbol {c : α} {new : List α} (ho : k.opens c = false) (hc : k.closes c = false)
    (hnew : k.WellBracketed new) (hdepth : k.depth new ≤ n) (rest : k.Grafted n w w') :
    k.Grafted n (c :: w) (new ++ w') := by
  rw [← List.singleton_append]
  exact .graft (wellBracketed_singleton ho hc) hnew hdepth rest

/-- What is grafted into a word leaves its excess of opened branches as it is. -/
theorem excess_eq (h : k.Grafted n w w') : k.excess w' = k.excess w := by
  induction h with
  | nil => rfl
  | keep c _ ih => rw [excess_cons, ih, ← excess_cons]
  | graft removed added _ _ ih =>
    rw [excess_append, excess_append, ih, removed.balanced, added.balanced]

/-- Every height in the grafted word lies above a height in the word itself, by no more than
the depth of the words that are put in. -/
theorem exists_prefix (h : k.Grafted n w w') {u' : List α} (hu' : u' <+: w') :
    ∃ u, u <+: w ∧ k.excess u ≤ k.excess u' ∧ k.excess u' ≤ k.excess u + n := by
  induction h generalizing u' with
  | nil =>
    rw [List.prefix_nil.mp hu']
    exact ⟨[], List.nil_prefix, le_rfl, by simp⟩
  | keep c rest ih =>
    rcases List.prefix_cons_iff.mp hu' with rfl | ⟨v', rfl, hv'⟩
    · exact ⟨[], List.nil_prefix, le_rfl, by simp⟩
    · obtain ⟨v, hv, hlow, hhigh⟩ := ih hv'
      refine ⟨c :: v, List.cons_prefix_cons.mpr ⟨rfl, hv⟩, ?_, ?_⟩
      · rw [excess_cons, k.excess_cons c v']
        omega
      · rw [excess_cons, k.excess_cons c v]
        omega
  | @graft old new w w' removed added depth rest ih =>
    rcases List.prefix_or_prefix_of_prefix hu' (List.prefix_append new w') with hu' | ⟨v', rfl⟩
    · -- The prefix ends inside the new word, which starts at the height of the old one.
      refine ⟨[], List.nil_prefix, added.nonneg u' hu', ?_⟩
      have hdepth : k.excess _ ≤ k.depth new := excess_le_depth hu'
      rw [excess_nil]
      omega
    · obtain ⟨v, hv, hlow, hhigh⟩ := ih ((List.prefix_append_right_inj new).mp hu')
      refine ⟨old ++ v, (List.prefix_append_right_inj old).mpr hv, ?_, ?_⟩
      · rw [excess_append, excess_append, removed.balanced, added.balanced]
        omega
      · rw [excess_append, excess_append, removed.balanced, added.balanced]
        omega

/-- A well-bracketed word stays one when it is grafted. -/
theorem wellBracketed (h : k.Grafted n w w') (hw : k.WellBracketed w) : k.WellBracketed w' := by
  refine ⟨fun u' hu' => ?_, ?_⟩
  · obtain ⟨u, hu, hlow, -⟩ := h.exists_prefix hu'
    exact (hw.nonneg u hu).trans hlow
  · rw [h.excess_eq, hw.balanced]

/-- Grafting makes a word deeper by at most the depth of what is put in. -/
theorem depth_le (h : k.Grafted n w w') : k.depth w' ≤ k.depth w + n := by
  rw [depth_le_iff]
  intro u' hu'
  obtain ⟨u, hu, -, hhigh⟩ := h.exists_prefix hu'
  have hdepth : k.excess u ≤ k.depth w := excess_le_depth hu
  push_cast
  omega

end Grafted

end Marks

end BranchingTubes
