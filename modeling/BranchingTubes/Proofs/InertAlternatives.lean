import BranchingTubes.Proofs.ChoiceStream
import Mathlib

/-!
# Alternatives without weight

An alternative whose weight is not above zero has no part in a weighted production: it can be
left out, wherever it stands, and every pass gives the same word, or fails as before
(`apply_of_thinned`).

The two productions have different tables of partial sums and choose different positions in
them.  What they share is the running sum itself, which a weight of zero leaves as it is.  So the
total is the same, with it the number that is drawn, and the first alternative at which the
running sum exceeds this number (`Thinned.firstAbove_eq`).
-/

set_option autoImplicit false

namespace BranchingTubes

/-- A list of weighted entries, and the list that is left of it without some entries whose weight
does not count. -/
inductive Thinned {α : Type} : List (α × Float32) → List (α × Float32) → Prop where
  | nil : Thinned [] []
  | keep (a : α × Float32) {all kept : List (α × Float32)} :
      Thinned all kept → Thinned (a :: all) (a :: kept)
  | drop (a : α × Float32) {all kept : List (α × Float32)} (weight : ¬ 0 < a.2) :
      Thinned all kept → Thinned (a :: all) kept

namespace Thinned

variable {α : Type} {all kept : List (α × Float32)}

/-- What has a weight that counts is kept. -/
theorem mem_iff (h : Thinned all kept) {a : α × Float32} (ha : 0 < a.2) :
    a ∈ kept ↔ a ∈ all := by
  induction h with
  | nil => rfl
  | keep b _ ih => rw [List.mem_cons, List.mem_cons, ih]
  | drop b weight _ ih =>
    have hne : a ≠ b := by
      rintro rfl
      exact weight ha
    rw [ih, List.mem_cons, or_iff_right hne]

/-- The running sum ends as before, whatever unsigned number it started with. -/
theorem foldl_eq (h : Thinned all kept) {sum : Float32} (hsum : Unsigned sum) :
    (kept.map fun a => usableWeight a.2).foldl (· + ·) sum =
      (all.map fun a => usableWeight a.2).foldl (· + ·) sum := by
  induction h generalizing sum with
  | nil => rfl
  | keep a _ ih =>
    rw [List.map_cons, List.foldl_cons, List.map_cons, List.foldl_cons]
    exact ih (hsum.add (unsigned_usableWeight a.2))
  | drop a weight _ ih =>
    rw [List.map_cons, List.foldl_cons, usableWeight_of_not_pos weight, hsum.add_zero]
    exact ih hsum

/-- Thinning does not change the total of the weights. -/
theorem totalWeight_eq (h : Thinned all kept) :
    totalWeight (kept.map Prod.snd) = totalWeight (all.map Prod.snd) := by
  unfold totalWeight
  rw [List.map_map, List.map_map]
  exact h.foldl_eq .zero

/-- The running sum exceeds a number at the same entry, provided that it has reached no more than
this number at the start. -/
theorem firstAbove_eq (h : Thinned all kept) {sum drawn : Float32} (hsum : Unsigned sum)
    (hlow : sum ≤ drawn) :
    firstAbove (fun a => usableWeight a.2) drawn sum kept =
      firstAbove (fun a => usableWeight a.2) drawn sum all := by
  induction h generalizing sum with
  | nil => rfl
  | keep a _ ih =>
    rw [firstAbove, firstAbove]
    split
    next hreached => exact ih (hsum.add (unsigned_usableWeight a.2)) hreached
    next => rfl
  | drop a weight _ ih =>
    rw [firstAbove, usableWeight_of_not_pos weight, hsum.add_zero, if_pos hlow]
    exact ih hsum hlow

end Thinned

namespace WeightedProduction

variable {p : WeightedProduction} {kept : List (String × Float32)}

/-- The text chosen for an occurrence is the same after thinning, as long as something that counts
is left. -/
theorem chosenText_of_thinned (h : Thinned p.alternatives kept)
    (hfinite : (totalWeight p.weights).isFinite = true) (hweight : ∃ a ∈ p.alternatives, 0 < a.2)
    (hkept : ∃ a ∈ kept, 0 < a.2) (i : ℕ) :
    chosenText { p with alternatives := kept } i = p.chosenText i := by
  set q : WeightedProduction := { p with alternatives := kept }
  have htotal : totalWeight q.weights = totalWeight p.weights := h.totalWeight_eq
  have hdrawn : q.drawn i = p.drawn i := by rw [drawn, drawn, htotal]
  obtain ⟨a, ha, -, hfirst⟩ := exists_choice hfinite hweight i
  obtain ⟨b, hb, -, hfirst'⟩ := exists_choice (p := q) (htotal ▸ hfinite) hkept i
  have hlow : 0 ≤ p.drawn i := zero_le_drawnNumber hfinite hweight _
  rw [hdrawn, h.firstAbove_eq .zero hlow, hfirst] at hfirst'
  obtain rfl := Option.some.inj hfirst'
  rw [chosenText_eq ha, chosenText_eq hb]

/-- **Alternatives without weight are inert.**  If alternatives are left out whose weight does not
count, wherever they stand and even if none is left, then every pass over every word gives the
same word as before, or fails as before. -/
theorem apply_of_thinned (h : Thinned p.alternatives kept) (word : String) :
    apply { p with alternatives := kept } word = p.apply word := by
  set q : WeightedProduction := { p with alternatives := kept }
  have htotal : totalWeight q.weights = totalWeight p.weights := h.totalWeight_eq
  by_cases hinf : (totalWeight p.weights).isInf = true
  · rw [apply_of_infinite hinf, apply_of_infinite (htotal ▸ hinf)]
  have hfinite : (totalWeight p.weights).isFinite = true := by
    rw [(unsigned_totalWeight _).isFinite_eq]
    simpa using hinf
  by_cases hweight : ∃ a ∈ p.alternatives, 0 < a.2
  · have hkept : ∃ a ∈ kept, 0 < a.2 := by
      obtain ⟨a, ha, hpos⟩ := hweight
      exact ⟨a, (h.mem_iff hpos).mpr ha, hpos⟩
    have htext : q.chosenText = p.chosenText :=
      funext (chosenText_of_thinned h hfinite hweight hkept)
    rw [apply_eq_replaceNumbered hfinite hweight,
      apply_eq_replaceNumbered (p := q) (htotal ▸ hfinite) hkept, htext]
  · push Not at hweight
    have hkept : ∀ a ∈ q.alternatives, ¬ 0 < a.2 :=
      fun a ha hpos => hweight a ((h.mem_iff hpos).mp ha) hpos
    rw [apply_of_no_weight hweight, apply_of_no_weight hkept]

/-- Alternatives of weights that are no number, zero and negative are left out in front, in the
middle and at the end; one of weight zero stays. -/
theorem apply_of_thinned_interleaved :
    let p : WeightedProduction :=
      ⟨'X', [("N", .ofBits 0x7fc00000), ("F", 1), ("Z", 0), ("M", -2), ("FX", 3), ("W", -0)], 7⟩
    let kept := [("F", 1), ("Z", 0), ("FX", 3)]
    Thinned p.alternatives kept ∧ p.apply "XX[X]X" = .ok "FXF[F]FX" ∧
      apply { p with alternatives := kept } "XX[X]X" = .ok "FXF[F]FX" := by
  intro p kept
  have hthinned : Thinned p.alternatives kept :=
    .drop _ (by decide +kernel) (.keep _ (.keep _ (.drop _ (by decide +kernel) (.keep _
      (.drop _ (by decide +kernel) .nil)))))
  have happly : p.apply "XX[X]X" = .ok "FXF[F]FX" := by decide +kernel
  exact ⟨hthinned, happly, by rw [apply_of_thinned hthinned, happly]⟩

end WeightedProduction

end BranchingTubes
