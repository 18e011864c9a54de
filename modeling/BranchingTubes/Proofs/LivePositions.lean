import BranchingTubes.Proofs.BranchIsolation
import Mathlib

/-!
# Where the live symbols stand

`Marks.liveAt` is the live part of a word in which every symbol carries its position in the
word, and `Marks.lastLive?` the position of the last live symbol of some kind.

What stands before a live symbol in the live part is the live part of what stands before it
in the word (`liveAt_take`).  So the run over the live part passes, at each symbol, through
the turtle that the run over the word had there (`exists_run_of_liveAt`), and a feature of the
turtle at the end of a word is what the last live symbol that changes it made of it
(`feature_at_lastLive`).  Which symbol that is can be told without computing the live part: it
is one after which branches are closed only if they were opened after it, and after which no
symbol of its kind is live (`lastLive?_append_cons`).
-/

set_option autoImplicit false

namespace BranchingTubes

namespace Marks

variable {α β : Type} (k : Marks α)

/-- The live part of a word, each symbol with its position in the word. -/
def liveAt (w : List α) : List (α × ℕ) := (k.comap Prod.fst).live w.zipIdx

/-- The position of the last symbol of some kind in the live part of a word. -/
def lastLive? (kind : α → Bool) (w : List α) : Option ℕ :=
  ((k.liveAt w).reverse.find? fun e => kind e.1).map Prod.snd

/-- Without their positions, the live symbols are the live part of the word. -/
theorem map_fst_liveAt (w : List α) : (k.liveAt w).map Prod.fst = k.live w := by
  unfold liveAt
  rw [← live_map, List.zipIdx_map_fst]

/-- One more symbol changes the live part as it would without positions. -/
theorem liveAt_concat (w : List α) (c : α) :
    k.liveAt (w ++ [c]) = (k.comap Prod.fst).liveStep (k.liveAt w) (c, w.length) := by
  unfold liveAt
  rw [List.zipIdx_append, List.zipIdx_singleton, live_concat, Nat.zero_add]

/-- The live positions of a translated word are those of the word for the translated marks. -/
theorem liveAt_map (k : Marks β) (f : α → β) (w : List α) :
    k.liveAt (w.map f) = ((k.comap f).liveAt w).map (Prod.map f id) := by
  unfold liveAt
  rw [List.zipIdx_map, live_map]
  rfl

/-- The last live symbol of a translated word is that of the word for the translated marks. -/
theorem lastLive?_map (k : Marks β) (f : α → β) (kind : β → Bool) (w : List α) :
    k.lastLive? kind (w.map f) = (k.comap f).lastLive? (kind ∘ f) w := by
  unfold lastLive?
  rw [liveAt_map, ← List.map_reverse, List.find?_map, Option.map_map]
  rfl

variable {k}

/-- A step adds its symbol or takes away the end of the live part. -/
theorem liveStep_cases (u : List α) (c : α) :
    k.liveStep u c = u ++ [c] ∨ k.liveStep u c <+: u := by
  unfold liveStep
  split
  · simp only
    split
    · exact .inl rfl
    · right
      exact (List.dropLast_prefix _).trans (List.rdropWhile_prefix _ u)
  · exact .inl rfl

/-- What stands before a live symbol in the live part is the live part of what stands before
it in the word. -/
theorem liveAt_take {w : List α} {us : List (α × ℕ)} {c : α} {j : ℕ}
    (h : us ++ [(c, j)] <+: k.liveAt w) : w[j]? = some c ∧ k.liveAt (w.take j) = us := by
  induction w using List.reverseRecOn with
  | nil => simp [liveAt] at h
  | append_singleton w d ih =>
    have hold (h : us ++ [(c, j)] <+: k.liveAt w) :
        (w ++ [d])[j]? = some c ∧ k.liveAt ((w ++ [d]).take j) = us := by
      obtain ⟨hc, hus⟩ := ih h
      obtain ⟨hj, -⟩ := List.getElem?_eq_some_iff.mp hc
      rw [List.getElem?_append_left hj, List.take_append_of_le_length hj.le]
      exact ⟨hc, hus⟩
    rw [liveAt_concat] at h
    rcases liveStep_cases (k := k.comap Prod.fst) (k.liveAt w) (d, w.length) with hstep | hstep
    · rw [hstep, List.prefix_concat_iff] at h
      rcases h with hlast | h
      · obtain ⟨rfl, hnew⟩ := List.append_inj' hlast rfl
        obtain ⟨rfl, rfl⟩ : c = d ∧ j = w.length := by simpa using hnew
        simp
      · exact hold h
    · exact hold (h.trans hstep)

/-- The last live symbol of a kind is live, and no live symbol of the kind comes after it. -/
theorem exists_of_lastLive? {kind : α → Bool} {w : List α} {j : ℕ}
    (h : k.lastLive? kind w = some j) :
    ∃ us c vs, k.liveAt w = us ++ (c, j) :: vs ∧ kind c ∧ ∀ e ∈ vs, kind e.1 = false := by
  unfold lastLive? at h
  obtain ⟨⟨c, j'⟩, hfind, rfl⟩ := Option.map_eq_some_iff.mp h
  obtain ⟨hc, after, before, hreverse, hafter⟩ := List.find?_eq_some_iff_append.mp hfind
  refine ⟨before.reverse, c, after.reverse, ?_, hc, ?_⟩
  · rw [← List.reverse_reverse (k.liveAt w), hreverse]
    simp
  · intro e he
    simpa using hafter e (List.mem_reverse.mp he)

/-- There is no last live symbol of a kind if no live symbol is of the kind. -/
theorem lastLive?_eq_none_iff {kind : α → Bool} {w : List α} :
    k.lastLive? kind w = none ↔ ∀ c ∈ k.live w, kind c = false := by
  unfold lastLive?
  rw [Option.map_eq_none_iff, List.find?_eq_none, ← map_fst_liveAt]
  simp

/-- What closes nothing but what it opens leaves the live part before it alone. -/
theorem liveAt_append {v : List α} (h : ∀ t, t <+: v → 0 ≤ k.excess t) (u : List α) :
    k.liveAt (u ++ v) = k.liveAt u ++ (k.liveAt v).map (Prod.map id (· + u.length)) := by
  have hshift : v.zipIdx u.length = v.zipIdx.map (Prod.map id (· + u.length)) := by
    rw [List.map_snd_add_zipIdx_eq_zipIdx, Nat.add_zero]
  have hlive : (k.comap Prod.fst).live (v.zipIdx u.length) =
      (k.liveAt v).map (Prod.map id (· + u.length)) := by
    rw [hshift, live_map]
    rfl
  have hnonneg : ∀ t, t <+: v.zipIdx u.length → 0 ≤ (k.comap Prod.fst).excess t := by
    intro t ht
    rw [← excess_map]
    apply h
    rw [← List.zipIdx_map_fst u.length v]
    exact ht.map Prod.fst
  rw [← hlive]
  unfold liveAt
  rw [List.zipIdx_append, Nat.zero_add, live, List.foldl_append]
  exact (foldl_liveStep hnonneg _).1

/-- A symbol that does not close is the last of its kind in the live part, if what follows it
closes nothing but what it opens and has no live symbol of this kind. -/
theorem lastLive?_append_cons {kind : α → Bool} {c : α} {v : List α} (hkind : kind c)
    (hclose : k.closes c = false) (hv : ∀ t, t <+: v → 0 ≤ k.excess t)
    (hlater : ∀ d ∈ k.live v, kind d = false) (u : List α) :
    k.lastLive? kind (u ++ c :: v) = some u.length := by
  have hword : u ++ c :: v = (u ++ [c]) ++ v := by simp
  have hnew : k.liveAt (u ++ [c]) = k.liveAt u ++ [(c, u.length)] := by
    rw [liveAt_concat]
    exact liveStep_of_not_closes hclose
  have hnone : ((k.liveAt v).map (Prod.map id (· + (u ++ [c]).length))).reverse.find?
      (fun e => kind e.1) = none := by
    rw [List.find?_eq_none]
    intro e he
    obtain ⟨later, hmem, rfl⟩ := List.mem_map.mp (List.mem_reverse.mp he)
    have hlive : later.1 ∈ k.live v := by
      rw [← map_fst_liveAt]
      exact List.mem_map_of_mem hmem
    simpa using hlater later.1 hlive
  unfold lastLive?
  rw [hword, liveAt_append hv, hnew, List.reverse_append, List.find?_append, hnone]
  simp [hkind]

end Marks

namespace Machine

variable {s : Setup} {index : ℕ} {m m' : Machine} {is : List Instruction} {i : Instruction}

/-- A feature of the turtle that none of the instructions changes is the same after a run. -/
theorem feature_of_run {β : Type} (f : Turtle → β)
    (hobey : ∀ i ∈ is, ∀ m : Machine, f (m.obey s i).turtle = f m.turtle)
    (h : run s index m is = .ok m') : f m'.turtle = f m.turtle := by
  revert hobey
  refine run_induction ?_ (fun is i mid _ _ ih => ?_) h
  · intro _
    rfl
  · intro hobey
    rw [hobey i (by simp)]
    apply ih
    intro j hj
    exact hobey j (by simp [hj])

/-- The run over the live part obeys a live instruction where the run over the list did, and
goes on to where that run ends. -/
theorem exists_run_of_liveAt {us vs : List (Instruction × ℕ)} {j : ℕ}
    (h : run s 0 (start s) is = .ok m)
    (hlive : Marks.instruction.liveAt is = us ++ (i, j) :: vs) :
    is[j]? = some i ∧ ∃ mid after m' : Machine, run s 0 (start s) (is.take j) = .ok mid ∧
      after.Shadows (mid.obey s i) ∧ run s 0 after (vs.map Prod.fst) = .ok m' ∧ m'.Shadows m := by
  obtain ⟨hi, hus⟩ : is[j]? = some i ∧ Marks.instruction.liveAt (is.take j) = us := by
    apply Marks.liveAt_take
    rw [hlive]
    exact ⟨vs, by simp⟩
  refine ⟨hi, ?_⟩
  obtain ⟨mid, hmid, -⟩ := run_append_ok_iff.mp ((List.take_append_drop j is).symm ▸ h)
  obtain ⟨-, here, hhere, hheremid⟩ := run_live hmid
  obtain ⟨-, m', hm', hshadow⟩ := run_live h
  have hword : Marks.instruction.live is =
      (Marks.instruction.live (is.take j) ++ [i]) ++ vs.map Prod.fst := by
    rw [← Marks.map_fst_liveAt, ← Marks.map_fst_liveAt, hlive, hus]
    simp
  rw [hword] at hm'
  obtain ⟨after, hafter, hrest⟩ := run_append_ok_iff.mp hm'
  obtain ⟨here', hhere', -, rfl⟩ := run_concat_ok_iff.mp hafter
  obtain rfl : here = here' := by simpa [hhere] using hhere'
  exact ⟨mid, here.obey s i, m', hmid, hheremid.obey s i, hrest, hshadow⟩

/-- A feature of the turtle that instructions of one kind change, and no others except those
that close a branch, is what the last live instruction of this kind made it, or what it was
at the start if there is none. -/
theorem feature_at_lastLive {β : Type} (f : Turtle → β) {kind : Instruction → Bool}
    (hobey : ∀ i, kind i = false → Marks.instruction.closes i = false →
      ∀ m : Machine, f (m.obey s i).turtle = f m.turtle)
    (h : run s 0 (start s) is = .ok m) :
    (Marks.instruction.lastLive? kind is = none → f m.turtle = f s.turtle) ∧
    ∀ j, Marks.instruction.lastLive? kind is = some j →
      ∃ i mid, is[j]? = some i ∧ kind i ∧ run s 0 (start s) (is.take j) = .ok mid ∧
        f m.turtle = f (mid.obey s i).turtle := by
  obtain ⟨hclosed, m', hm', hshadow⟩ := run_live h
  constructor
  · intro hnone
    rw [Marks.lastLive?_eq_none_iff] at hnone
    rw [← hshadow.turtle]
    apply feature_of_run f _ hm'
    intro i hi
    exact hobey i (hnone i hi) (hclosed i hi)
  · intro j hj
    obtain ⟨us, i, vs, hlive, hkind, hvs⟩ := Marks.exists_of_lastLive? hj
    obtain ⟨hi, mid, after, m', hmid, hafter, hrest, hshadow⟩ := exists_run_of_liveAt h hlive
    refine ⟨i, mid, hi, hkind, hmid, ?_⟩
    rw [← hshadow.turtle, ← hafter.turtle]
    apply feature_of_run f _ hrest
    intro k hk
    obtain ⟨e, he, rfl⟩ := List.mem_map.mp hk
    apply hobey _ (hvs e he)
    apply hclosed
    rw [← Marks.map_fst_liveAt, hlive]
    exact List.mem_map_of_mem (by simp [he])

end Machine

end BranchingTubes
