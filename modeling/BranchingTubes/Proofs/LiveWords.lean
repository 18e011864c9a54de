import BranchingTubes.Proofs.BranchMarks
import Mathlib

/-!
# The live part of a word

`Marks.live` is what is left of a word when every closed branch is deleted.  It is read
from left to right: a closing symbol takes away everything back to the innermost opening
one.  `live_group` and `live_eq_self` say that this deletes the matched groups and nothing
else: a closed branch around a well-bracketed word may stand anywhere and be left out, and
a word without closing symbols stays as it is.
-/

set_option autoImplicit false

namespace BranchingTubes

namespace Marks

variable {α β : Type} (k : Marks α)

/-- A word closes the branches it opens and no others. -/
structure WellBracketed (w : List α) : Prop where
  nonneg : ∀ u, u <+: w → 0 ≤ k.excess u
  balanced : k.excess w = 0

/-- The live part of a word after one more symbol.  A symbol that closes takes away
everything back to the innermost opening symbol; if there is none, it stays. -/
def liveStep (u : List α) (c : α) : List α :=
  if k.closes c then
    let kept := u.rdropWhile fun d => !k.opens d
    if kept.isEmpty then u ++ [c] else kept.dropLast
  else u ++ [c]

/-- A word without its matched groups; opening symbols that are never closed stay. -/
def live (w : List α) : List α := w.foldl k.liveStep []

/-- Nothing of the empty word is live. -/
@[simp] theorem live_nil : k.live [] = [] := rfl

/-- The live part grows with the word, one step for each symbol. -/
theorem live_concat (w : List α) (c : α) : k.live (w ++ [c]) = k.liveStep (k.live w) c := by
  simp [live]

variable {k}

/-- A symbol that closes no branch is added to the live part. -/
theorem liveStep_of_not_closes {u : List α} {c : α} (h : k.closes c = false) :
    k.liveStep u c = u ++ [c] := by
  simp [liveStep, h]

/-- A closing symbol takes away the innermost open branch. -/
theorem liveStep_of_closes {u v : List α} {o c : α} (hc : k.closes c) (ho : k.opens o)
    (hv : ∀ d ∈ v, k.opens d = false) : k.liveStep (u ++ o :: v) c = u := by
  have hkept : (u ++ o :: v).rdropWhile (fun d => !k.opens d) = u ++ [o] := by
    induction v using List.reverseRecOn with
    | nil => simp [ho]
    | append_singleton v d ih =>
      have hd : k.opens d = false := hv d (by simp)
      rw [show u ++ o :: (v ++ [d]) = (u ++ o :: v) ++ [d] by simp, List.rdropWhile_concat_pos]
      · exact ih fun e he => hv e (by simp [he])
      · simp [hd]
  simp [liveStep, hc, hkept]

/-- Nothing is deleted from a word that closes no branch. -/
theorem live_eq_self {w : List α} (h : ∀ c ∈ w, k.closes c = false) : k.live w = w := by
  induction w using List.reverseRecOn with
  | nil => rfl
  | append_singleton w c ih =>
    rw [live_concat, ih fun d hd => h d (by simp [hd]), liveStep_of_not_closes (h c (by simp))]

/-- A word that opens a branch opens some branch last. -/
theorem exists_last_open {w : List α} (h : 0 < w.countP k.opens) :
    ∃ u o v, w = u ++ o :: v ∧ k.opens o ∧ ∀ d ∈ v, k.opens d = false := by
  induction w using List.reverseRecOn with
  | nil => simp at h
  | append_singleton w c ih =>
    cases hc : k.opens c with
    | true => exact ⟨w, c, [], by simp, hc, by simp⟩
    | false =>
      obtain ⟨u, o, v, rfl, ho, hv⟩ := ih (by simpa [List.countP_append, hc] using h)
      refine ⟨u, o, v ++ [c], by simp, ho, ?_⟩
      intro d hd
      rcases List.mem_append.mp hd with hd | hd
      · exact hv d hd
      · rw [List.mem_singleton.mp hd, hc]

/-- A word that closes nothing but what it opens leaves what stands before it alone, and
its live part has as many opening symbols as it has open branches. -/
theorem foldl_liveStep {w : List α} (h : ∀ u, u <+: w → 0 ≤ k.excess u) (before : List α) :
    w.foldl k.liveStep before = before ++ k.live w ∧
      ((k.live w).countP k.opens : ℤ) = k.excess w := by
  induction w using List.reverseRecOn with
  | nil => simp [excess]
  | append_singleton w c ih =>
    obtain ⟨hfold, hcount⟩ := ih fun u hu => h u (hu.trans (List.prefix_append w [c]))
    have hexcess := k.excess_append w [c]
    rw [List.foldl_concat, live_concat, hfold]
    cases hc : k.closes c with
    | false =>
      rw [liveStep_of_not_closes hc, liveStep_of_not_closes hc, List.append_assoc]
      refine ⟨rfl, ?_⟩
      rw [hexcess, ← hcount]
      simp [excess, List.countP_append, hc]
    | true =>
      have ho : k.opens c = false := by
        cases ho : k.opens c with
        | false => rfl
        | true => simp [k.closes_of_opens c ho] at hc
      have hclose : k.excess [c] = -1 := by simp [excess, hc, ho]
      have hopen : 0 < (k.live w).countP k.opens := by
        have := h (w ++ [c]) (List.prefix_refl _)
        omega
      -- The branch that `c` closes lies in the live part of `w`, not before it.
      obtain ⟨u, o, v, hlive, ho, hv⟩ := exists_last_open hopen
      rw [hlive, ← List.append_assoc, liveStep_of_closes hc ho hv, liveStep_of_closes hc ho hv]
      refine ⟨rfl, ?_⟩
      have hv' : v.countP k.opens = 0 := List.countP_eq_zero.mpr (by simpa using hv)
      rw [hlive, List.countP_append, List.countP_cons, hv', if_pos ho] at hcount
      push_cast at hcount
      omega

/-- In a well-bracketed word no branch is left open. -/
theorem WellBracketed.not_opens_of_mem_live {w : List α} (hw : k.WellBracketed w) :
    ∀ d ∈ k.live w, k.opens d = false := by
  have hcount := (foldl_liveStep hw.nonneg []).2
  rw [hw.balanced, Nat.cast_eq_zero, List.countP_eq_zero] at hcount
  simpa using hcount

/-- Deleting a matched group does not change the live part of a word. -/
theorem live_group {u v w : List α} {o c : α} (ho : k.opens o) (hc : k.closes c)
    (hw : k.WellBracketed w) : k.live (u ++ (o :: w ++ [c]) ++ v) = k.live (u ++ v) := by
  have hgroup : (o :: w ++ [c]).foldl k.liveStep (k.live u) = k.live u := by
    obtain ⟨hfold, hcount⟩ := foldl_liveStep hw.nonneg (k.live u ++ [o])
    rw [hw.balanced, Nat.cast_eq_zero, List.countP_eq_zero] at hcount
    rw [List.foldl_concat, List.foldl_cons, liveStep_of_not_closes (k.closes_of_opens o ho), hfold,
      List.append_assoc]
    exact liveStep_of_closes hc ho (by simpa using hcount)
  simp only [live, List.foldl_append] at hgroup ⊢
  rw [hgroup]

/-- The live part of a translated word is the live part for the translated marks, translated. -/
theorem live_map (k : Marks β) (f : α → β) (w : List α) :
    k.live (w.map f) = ((k.comap f).live w).map f := by
  have hdrop (u : List α) : (u.map f).rdropWhile (fun d => !k.opens d) =
      (u.rdropWhile fun d => !(k.comap f).opens d).map f := by
    simp only [List.rdropWhile, ← List.map_reverse, List.dropWhile_map]
    rfl
  induction w using List.reverseRecOn with
  | nil => rfl
  | append_singleton w c ih =>
    rw [List.map_append, List.map_singleton, live_concat, live_concat, ih]
    cases hc : k.closes (f c) with
    | false =>
      rw [liveStep_of_not_closes hc, liveStep_of_not_closes (k := k.comap f) hc]
      simp
    | true =>
      have hc' : (k.comap f).closes c = true := hc
      simp only [liveStep, hc, hc', hdrop, if_true, List.isEmpty_map]
      split <;> simp

end Marks

end BranchingTubes
