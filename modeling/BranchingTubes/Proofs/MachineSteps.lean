import BranchingTubes.Proofs.BranchMarks
import Mathlib

/-!
# One step of the machine, and many

A step either refuses its instruction or has an effect.  `Machine.refusal?` says when and
why it refuses, from nothing but the number of saved turtles and the number of vertices;
`Machine.obey` is the effect.  `step_eq` puts the two together, and everything else here
is derived from it: a run over two lists is one run after the other
(`run_append_ok_iff`), a run that succeeds does not depend on the index it starts at
(`run_ok_reindex`), and the two numbers that decide about refusals are counts of the
commands obeyed so far (`saved_length_of_run`, `vertexCount_of_run`).
-/

set_option autoImplicit false

namespace BranchingTubes

/-- A computation that succeeds has a result. -/
theorem exists_ok {ε α : Type} {x : Except ε α} (h : x.isOk = true) : ∃ a, x = .ok a := by
  cases x with
  | ok a => exact ⟨a, rfl⟩
  | error e => cases h

namespace Machine

/-! ## Refusal and effect -/

/-- The error with which a machine refuses the instruction at an index, if it does. -/
def refusal? (s : Setup) (index : Nat) (m : Machine) (i : Instruction) :
    Option InterpretationError :=
  match i.command with
  | .draw =>
    let count := m.mesh.vertexCount + 2 * s.settings.sides.toNat
    if maxVertices < count then some (.tooManyVertices count) else none
  | .openBranch =>
    let limit := s.settings.depthLimit.toNat
    if limit ≤ m.saved.length then some (.tooDeep index limit) else none
  | .closeBranch => if m.saved = [] then some (.nothingToClose index) else none
  | _ => none

/-- The radius of the segment that a turtle draws. -/
def radius (t : Turtle) : Float32 := usableExtent (t.thickness / 2)

/-- The turtle at the far end of the segment that an instruction draws. -/
def tipTurtle (t : Turtle) (i : Instruction) : Turtle :=
  t.advance (usableExtent (i.segmentLength.getD t.length))

/-- The effect of an instruction that is not refused. -/
def obey (s : Setup) (m : Machine) (i : Instruction) : Machine :=
  match i.command with
  | .draw =>
    let tip := tipTurtle m.turtle i
    { m with
      turtle := tip
      mesh := m.mesh.addTube m.turtle tip (radius m.turtle) s.settings.sides.toNat }
  | .incline factor => { m with turtle := m.turtle.pitch (s.parameters.inclination * factor) }
  | .azimuth factor => { m with turtle := m.turtle.azimuth (s.parameters.azimuth * factor) }
  | .openBranch => { m with turtle := m.turtle.enterBranch, saved := m.turtle :: m.saved }
  | .closeBranch =>
    match m.saved with
    | [] => m
    | turtle :: saved => { m with turtle, saved }
  | .decayThickness =>
    { m with
      turtle := { m.turtle with thickness := m.turtle.thickness * s.parameters.thicknessDecay } }
  | .decayLength =>
    { m with turtle := { m.turtle with length := m.turtle.length * s.parameters.lengthDecay } }
  | .ignore => m

/-- A step is its refusal, or else its effect. -/
theorem step_eq (s : Setup) (index : Nat) (m : Machine) (i : Instruction) :
    m.step s index i =
      match m.refusal? s index i with
      | some e => .error e
      | none => .ok (m.obey s i) := by
  unfold step refusal? obey
  cases hc : i.command with
  | draw =>
    simp only [draw]
    split <;> rfl
  | openBranch =>
    simp only
    split <;> rfl
  | closeBranch =>
    cases hs : m.saved <;> simp
  | incline factor => rfl
  | azimuth factor => rfl
  | decayThickness => rfl
  | decayLength => rfl
  | ignore => rfl

/-- A step succeeds if nothing refuses the instruction, and then the instruction is obeyed. -/
theorem step_eq_ok_iff {s : Setup} {index : Nat} {m m' : Machine} {i : Instruction} :
    m.step s index i = .ok m' ↔ m.refusal? s index i = none ∧ m.obey s i = m' := by
  rw [step_eq]
  cases m.refusal? s index i <;> simp

/-- A step fails with the reason for which the instruction is refused. -/
theorem step_eq_error_iff {s : Setup} {index : Nat} {m : Machine} {i : Instruction}
    {e : InterpretationError} :
    m.step s index i = .error e ↔ m.refusal? s index i = some e := by
  rw [step_eq]
  cases m.refusal? s index i <;> simp

/-- An instruction is not refused when the vertices of a drawn tube can be indexed, a
branch to be opened is within the depth limit, and a branch to be closed is open. -/
theorem refusal?_eq_none_iff {s : Setup} {index : Nat} {m : Machine} {i : Instruction} :
    m.refusal? s index i = none ↔
      (i.command = .draw → m.mesh.vertexCount + 2 * s.settings.sides.toNat ≤ maxVertices) ∧
      (i.command = .openBranch → m.saved.length < s.settings.depthLimit.toNat) ∧
      (i.command = .closeBranch → m.saved ≠ []) := by
  unfold refusal?
  cases i.command <;> simp

/-! ## Runs -/

/-- A run over two lists is a run over the first and then, from the indices after it, over the
second. -/
theorem run_append (s : Setup) (index : Nat) (m : Machine) (xs ys : List Instruction) :
    run s index m (xs ++ ys) =
      (run s index m xs).bind fun mid => run s (index + xs.length) mid ys := by
  induction xs generalizing index m with
  | nil => rfl
  | cons x xs ih =>
    simp only [List.cons_append, run]
    cases m.step s index x with
    | error e => rfl
    | ok next =>
      simp only [ih]
      rw [List.length_cons, show index + 1 + xs.length = index + (xs.length + 1) by omega]

/-- A run over one instruction is a step. -/
theorem run_singleton (s : Setup) (index : Nat) (m : Machine) (i : Instruction) :
    run s index m [i] = m.step s index i := by
  simp only [run]
  cases m.step s index i <;> rfl

/-- A run that succeeds gives the same machine wherever its first instruction stands. -/
theorem run_ok_reindex {s : Setup} {index : Nat} {m m' : Machine} {is : List Instruction}
    (h : run s index m is = .ok m') (other : Nat) : run s other m is = .ok m' := by
  induction is generalizing index m other with
  | nil => exact h
  | cons i is ih =>
    simp only [run] at h ⊢
    cases hstep : m.step s index i with
    | error e => simp [hstep] at h
    | ok next =>
      have hother : m.step s other i = .ok next := by
        rw [step_eq_ok_iff, refusal?_eq_none_iff] at hstep ⊢
        exact hstep
      rw [hother]
      rw [hstep] at h
      exact ih h (other + 1)

/-- A run over two lists succeeds if it does over the one and from there over the other. -/
theorem run_append_ok_iff {s : Setup} {index : Nat} {m m' : Machine} {xs ys : List Instruction} :
    run s index m (xs ++ ys) = .ok m' ↔
      ∃ mid, run s index m xs = .ok mid ∧ run s index mid ys = .ok m' := by
  rw [run_append]
  cases hx : run s index m xs with
  | error e => simp [Except.bind]
  | ok mid =>
    simp only [Except.bind, Except.ok.injEq, exists_eq_left']
    exact ⟨fun h => run_ok_reindex h _, fun h => run_ok_reindex h _⟩

/-- A run over a list and one more instruction succeeds if the run does and nothing refuses the
instruction. -/
theorem run_concat_ok_iff {s : Setup} {index : Nat} {m m' : Machine} {is : List Instruction}
    {i : Instruction} :
    run s index m (is ++ [i]) = .ok m' ↔
      ∃ mid, run s index m is = .ok mid ∧ mid.refusal? s index i = none ∧ mid.obey s i = m' := by
  simp only [run_append_ok_iff, run_singleton, step_eq_ok_iff]

/-- What holds at the start of a run, and is kept by each instruction that is not refused,
holds at the end. -/
@[elab_as_elim]
theorem run_induction {s : Setup} {index : Nat} {m : Machine}
    {motive : List Instruction → Machine → Prop} (nil : motive [] m)
    (concat : ∀ is i mid, run s index m is = .ok mid → mid.refusal? s index i = none →
      motive is mid → motive (is ++ [i]) (mid.obey s i))
    {is : List Instruction} {m' : Machine} (h : run s index m is = .ok m') : motive is m' := by
  induction is using List.reverseRecOn generalizing m' with
  | nil =>
    obtain rfl : m = m' := by simpa [run] using h
    exact nil
  | append_singleton is i ih =>
    obtain ⟨mid, hmid, hnone, rfl⟩ := run_concat_ok_iff.mp h
    exact concat is i mid hmid hnone (ih hmid)

/-! ## What the refusals depend on -/

/-- An instruction that is not refused changes the number of saved turtles by its excess. -/
theorem saved_length_obey {s : Setup} {index : Nat} {m : Machine} {i : Instruction}
    (h : m.refusal? s index i = none) :
    ((m.obey s i).saved.length : ℤ) = m.saved.length + Marks.instruction.excess [i] := by
  have hclose := (refusal?_eq_none_iff.mp h).2.2
  simp only [Marks.excess, Marks.instruction, Marks.command, Marks.comap, List.countP_singleton]
  unfold obey
  cases hc : i.command with
  | closeBranch =>
    cases hs : m.saved with
    | nil => exact absurd hs (hclose hc)
    | cons t rest => simp [hc]
  | _ => simp [hc]

/-- An instruction adds two vertices for each side if it draws, and none if it does not. -/
theorem vertexCount_obey (s : Setup) (m : Machine) (i : Instruction) :
    (m.obey s i).mesh.vertexCount =
      m.mesh.vertexCount + 2 * s.settings.sides.toNat * [i].countP Marks.instruction.draws := by
  simp only [Marks.instruction, Marks.command, Marks.comap, List.countP_singleton]
  unfold obey
  cases hc : i.command with
  | closeBranch => cases m.saved <;> simp [hc]
  | _ => simp [hc]

/-- A run saves one turtle for each branch it opens and gives one back for each it closes. -/
theorem saved_length_of_run {s : Setup} {index : Nat} {m m' : Machine} {is : List Instruction}
    (h : run s index m is = .ok m') :
    (m'.saved.length : ℤ) = m.saved.length + Marks.instruction.excess is := by
  refine run_induction ?_ (fun is i mid _ hnone ih => ?_) h
  · simp
  · rw [saved_length_obey hnone, ih, Marks.excess_append]
    ring

/-- A run adds the vertices of one tube for each segment it draws. -/
theorem vertexCount_of_run {s : Setup} {index : Nat} {m m' : Machine} {is : List Instruction}
    (h : run s index m is = .ok m') :
    m'.mesh.vertexCount = m.mesh.vertexCount +
      2 * s.settings.sides.toNat * is.countP Marks.instruction.draws := by
  refine run_induction ?_ (fun is i mid _ _ ih => ?_) h
  · simp
  · rw [vertexCount_obey, ih, List.countP_append]
    ring

/-- A run from the start draws two vertices for each side and each instruction that draws. -/
theorem vertexCount_of_start {s : Setup} {m : Machine} {is : List Instruction}
    (h : run s 0 (start s) is = .ok m) :
    m.mesh.vertexCount = 2 * s.settings.sides.toNat * is.countP Marks.instruction.draws := by
  simpa [start, Mesh.empty, Mesh.vertexCount] using vertexCount_of_run h

end Machine

namespace Setup

/-- An interpretation succeeds if the setup has no fault and the run succeeds. -/
theorem interpret_eq_ok_iff {s : Setup} {is : List Instruction} {r : Interpretation} :
    s.interpret is = .ok r ↔
      s.fault? = none ∧ ∃ m, Machine.run s 0 (.start s) is = .ok m ∧ m.result = r := by
  unfold interpret
  cases s.fault? with
  | some e => simp
  | none => cases Machine.run s 0 (.start s) is <;> simp [Except.map]

/-- The mesh of a text is that of its interpretation. -/
theorem meshOfText_eq_ok_iff {s : Setup} {word : String} {mesh : Mesh} :
    s.meshOfText word = .ok mesh ↔ ∃ r, s.interpretText word = .ok r ∧ r.mesh = mesh := by
  unfold meshOfText
  cases s.interpretText word <;> simp [Except.map]

/-- The mesh of modules is that of their interpretation. -/
theorem meshOfModules_eq_ok_iff {s : Setup} {commands : CommandMap} {d : Derivation} {mesh : Mesh} :
    s.meshOfModules commands d = .ok mesh ↔
      ∃ r, s.interpretModules commands d = .ok r ∧ r.mesh = mesh := by
  unfold meshOfModules
  cases s.interpretModules commands d <;> simp [Except.map]

/-- Whatever is interpreted successfully has tubes of at least three sides. -/
theorem three_le_sides {s : Setup} {is : List Instruction} {r : Interpretation}
    (h : s.interpret is = .ok r) : 3 ≤ s.settings.sides.toNat := by
  have hfault := (interpret_eq_ok_iff.mp h).1
  by_contra hfew
  simp [fault?, not_le.mp hfew] at hfault

/-- What holds of every interpretation of instructions and the number of segments that they
draw holds of words and of the modules of a derivation. -/
theorem text_and_modules {s : Setup} {P : ℕ → Interpretation → Prop}
    (h : ∀ is r, s.interpret is = .ok r → P (is.countP Marks.instruction.draws) r) :
    (∀ (word : String) (r : Interpretation), s.interpretText word = .ok r →
      P (word.toList.count 'F') r) ∧
    ∀ (commands : CommandMap) (d : Derivation) (r : Interpretation),
      s.interpretModules commands d = .ok r →
      P (d.modules.toList.countP fun m => commands.get m.symbol == .draw) r := by
  refine ⟨fun word r hr => ?_, fun commands d r hr => ?_⟩
  · rw [← Marks.countP_draws_text]
    exact h _ r hr
  · rw [← Marks.countP_draws_modules]
    exact h _ r hr

/-- The standard parameters with the standard settings. -/
def standard : Setup := ⟨.standard, .standard⟩

/-- An interpretation that succeeds has a result. -/
theorem exists_result {s : Setup} {is : List Instruction} (h : (s.interpret is).isOk = true) :
    ∃ r, s.interpret is = .ok r :=
  exists_ok h

end Setup

end BranchingTubes
