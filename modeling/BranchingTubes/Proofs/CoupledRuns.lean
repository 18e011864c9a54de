import BranchingTubes.Proofs.MachineSteps
import Mathlib

/-!
# Two runs side by side

Two machines may differ in their setups, in what they have drawn and in the instructions that they
are given, and still fail alike or end in machines that are related (`SameOutcome`).
`run_coupled_pair` is the induction for this: machines that are related refuse alike and stay
related.  If the instructions do even the same to every machine, the runs are equal (`run_congr`).

The relation that most pairs of runs keep is that they agree in a part of each turtle, live or
saved, and in a part of the mesh (`Agree`).  An instruction keeps it if the live turtles still
agree after it (`Agree.obey`).
-/

set_option autoImplicit false

namespace BranchingTubes

/-- Two outcomes are the same error, or they are two results that are related. -/
inductive SameOutcome {ε α : Type} (P : α → α → Prop) : Except ε α → Except ε α → Prop where
  | error (e : ε) : SameOutcome P (.error e) (.error e)
  | ok {a b : α} (related : P a b) : SameOutcome P (.ok a) (.ok b)

/-- Outcomes that agree in one way agree in any weaker way. -/
theorem SameOutcome.imp {ε α : Type} {P Q : α → α → Prop} {x y : Except ε α}
    (h : SameOutcome P x y) (himp : ∀ a b, P a b → Q a b) : SameOutcome Q x y := by
  cases h with
  | error e => exact .error e
  | ok related => exact .ok (himp _ _ related)

/-- Outcomes that agree still do so after both have been mapped. -/
theorem SameOutcome.map {ε α β : Type} {P : α → α → Prop} {Q : β → β → Prop} {f : α → β}
    {x y : Except ε α} (h : SameOutcome P x y) (hf : ∀ a b, P a b → Q (f a) (f b)) :
    SameOutcome Q (x.map f) (y.map f) := by
  cases h with
  | error e => exact .error e
  | ok related => exact .ok (hf _ _ related)

namespace Machine

variable {s s' : Setup} {m m' : Machine} {is is' : List Instruction} {i i' : Instruction}
  {index : ℕ}

/-- Machines that are related, given the instructions still to come to each, refuse the next ones
alike and stay related if they obey them; then two runs have the same outcome. -/
theorem run_coupled_pair {R : List Instruction → List Instruction → Machine → Machine → Prop}
    (refuse : ∀ index i i' rest rest' m m', R (i :: rest) (i' :: rest') m m' →
      m.refusal? s index i = m'.refusal? s' index i')
    (obey : ∀ index i i' rest rest' m m', R (i :: rest) (i' :: rest') m m' →
      m.refusal? s index i = none → R rest rest' (m.obey s i) (m'.obey s' i'))
    (hlength : is.length = is'.length) (h : R is is' m m') (index : ℕ) :
    SameOutcome (R [] []) (run s index m is) (run s' index m' is') := by
  induction is generalizing is' m m' index with
  | nil =>
    obtain rfl : is' = [] := List.length_eq_zero_iff.mp hlength.symm
    exact .ok h
  | cons i rest ih =>
    cases is' with
    | nil => cases hlength
    | cons i' rest' =>
      have hrefuse := refuse index i i' rest rest' m m' h
      simp only [run, step_eq]
      rw [← hrefuse]
      cases hcause : m.refusal? s index i with
      | some e => exact .error e
      | none =>
        exact ih (Nat.succ.inj hlength) (obey index i i' rest rest' m m' h hcause) (index + 1)

/-- Two runs over the same instructions. -/
theorem run_coupled {R : List Instruction → Machine → Machine → Prop}
    (refuse : ∀ index i rest m m', R (i :: rest) m m' →
      m.refusal? s index i = m'.refusal? s' index i)
    (obey : ∀ index i rest m m', R (i :: rest) m m' → m.refusal? s index i = none →
      R rest (m.obey s i) (m'.obey s' i))
    (h : R is m m') (index : ℕ) :
    SameOutcome (R []) (run s index m is) (run s' index m' is) := by
  refine (run_coupled_pair (R := fun is is' m m' => is = is' ∧ R is m m')
    ?_ ?_ rfl ⟨rfl, h⟩ index).imp fun _ _ hend => hend.2
  · rintro index i i' rest rest' m m' ⟨hsame, h⟩
    obtain ⟨rfl, rfl⟩ := List.cons.inj hsame
    exact refuse index i rest m m' h
  · rintro index i i' rest rest' m m' ⟨hsame, h⟩ hcause
    obtain ⟨rfl, rfl⟩ := List.cons.inj hsame
    exact ⟨rfl, obey index i rest m m' h hcause⟩

/-- Instructions that do the same to every machine make the same run. -/
theorem run_congr
    (h : List.Forall₂ (fun i i' => ∀ index m, step s index m i = step s' index m i') is is')
    (index : ℕ) (m : Machine) : run s index m is = run s' index m is' := by
  induction h generalizing index m with
  | nil => rfl
  | @cons i i' rest rest' hstep _ ih =>
    simp only [run, hstep]
    cases m.step s' index i' with
    | error e => rfl
    | ok next => exact ih (index + 1) next

/-- Machines with equally many saved turtles and the same limit refuse a command alike, if they do
so where they draw. -/
theorem refusal?_congr (hcommand : i.command = i'.command)
    (hsaved : m.saved.length = m'.saved.length)
    (hlimit : s.settings.depthLimit = s'.settings.depthLimit)
    (hdraw : i.command = .draw → m.refusal? s index i = m'.refusal? s' index i') :
    m.refusal? s index i = m'.refusal? s' index i' := by
  by_cases hc : i.command = .draw
  · exact hdraw hc
  unfold refusal?
  rw [← hcommand]
  cases hother : i.command with
  | draw => exact absurd hother hc
  | openBranch => simp only [hsaved, hlimit]
  | closeBranch => simp only [← List.length_eq_zero_iff, hsaved]
  | _ => rfl

/-- The live turtle after an instruction, unless that closes a branch. -/
def movedTurtle (s : Setup) (t : Turtle) (i : Instruction) : Turtle :=
  match i.command with
  | .draw => tipTurtle t i
  | .incline factor => t.pitch (s.parameters.inclination * factor)
  | .azimuth factor => t.azimuth (s.parameters.azimuth * factor)
  | .openBranch => t.enterBranch
  | .decayThickness => { t with thickness := t.thickness * s.parameters.thicknessDecay }
  | .decayLength => { t with length := t.length * s.parameters.lengthDecay }
  | .closeBranch => t
  | .ignore => t

/-- Two machines agree in a part of each turtle and in a part of the mesh. -/
structure Agree {α β : Type} (part : Turtle → α) (drawn : Mesh → β) (m m' : Machine) : Prop where
  turtle : part m.turtle = part m'.turtle
  saved : m.saved.map part = m'.saved.map part
  mesh : drawn m.mesh = drawn m'.mesh

namespace Agree

variable {α β : Type} {part : Turtle → α} {drawn : Mesh → β}

/-- Machines that agree have saved the same number of turtles. -/
theorem length_saved (h : Agree part drawn m m') : m.saved.length = m'.saved.length := by
  have hlength := congrArg List.length h.saved
  rwa [List.length_map, List.length_map] at hlength

/-- A command keeps the agreement, if the turtles still agree when they have moved and the meshes
when they have grown. -/
theorem obey (h : Agree part drawn m m') (hcommand : i.command = i'.command)
    (hmove : part (movedTurtle s m.turtle i) = part (movedTurtle s' m'.turtle i'))
    (hdraw : i.command = .draw → drawn (m.obey s i).mesh = drawn (m'.obey s' i').mesh) :
    Agree part drawn (m.obey s i) (m'.obey s' i') := by
  obtain ⟨hturtle, hsaved, hmesh⟩ := h
  unfold Machine.obey at hdraw ⊢
  unfold movedTurtle at hmove
  rw [← hcommand] at hmove hdraw ⊢
  cases hc : i.command with
  | draw =>
    rw [hc] at hmove hdraw
    exact ⟨hmove, hsaved, hdraw rfl⟩
  | openBranch =>
    rw [hc] at hmove
    refine ⟨hmove, ?_, hmesh⟩
    rw [List.map_cons, List.map_cons, hturtle, hsaved]
  | closeBranch =>
    -- The saved turtles are empty together.
    obtain ⟨turtle, saved, mesh⟩ := m
    obtain ⟨turtle', saved', mesh'⟩ := m'
    cases saved with
    | nil =>
      obtain rfl : saved' = [] := by simpa using hsaved.symm
      exact ⟨hturtle, rfl, hmesh⟩
    | cons t rest =>
      cases saved' with
      | nil => simp at hsaved
      | cons t' rest' =>
        simp only [List.map_cons, List.cons.injEq] at hsaved
        exact ⟨hsaved.1, hsaved.2, hmesh⟩
  | incline factor =>
    rw [hc] at hmove
    exact ⟨hmove, hsaved, hmesh⟩
  | azimuth factor =>
    rw [hc] at hmove
    exact ⟨hmove, hsaved, hmesh⟩
  | decayThickness =>
    rw [hc] at hmove
    exact ⟨hmove, hsaved, hmesh⟩
  | decayLength =>
    rw [hc] at hmove
    exact ⟨hmove, hsaved, hmesh⟩
  | ignore => exact ⟨hturtle, hsaved, hmesh⟩

end Agree

end Machine

end BranchingTubes
