import BranchingTubes.Proofs.DecayedPen
import BranchingTubes.Proofs.InterpretationOutcome
import Mathlib

/-!
# What a quiet block of symbols does

A block of symbols is quiet if it neither draws nor opens or closes a branch.  It is obeyed
whatever the machine, and all it does is done to the live turtle: turns act on the rotation in
their order, and the decays multiply thickness and length, which nothing else in the block reads
(`run_of_quiet`).  So a quiet block may be exchanged for another one with the same turns and
equally many decays of each kind, wherever the decays and the symbols without a meaning stand
(`interpretText_exchange`).

The two blocks need not be equally long.  What comes after them is then read at other indices,
and an error found there names another index; it is the same error otherwise (`run_reindex`).
-/

set_option autoImplicit false

namespace BranchingTubes

/-! ## Indices that move -/

/-- The index of a symbol when those from one index on are moved to start at another. -/
def movedIndex (first first' index : ℕ) : ℕ :=
  if index < first then index else index - first + first'

/-- An error when the symbols from one index on are moved to start at another. -/
def InterpretationError.reindex (first first' : ℕ) : InterpretationError → InterpretationError
  | nothingToClose index => nothingToClose (movedIndex first first' index)
  | tooDeep index limit => tooDeep (movedIndex first first' index) limit
  | other => other

/-- An index that is so far from the first one is as far from the other one. -/
theorem movedIndex_add (first first' k : ℕ) : movedIndex first first' (first + k) = first' + k := by
  unfold movedIndex
  rw [if_neg (by omega)]
  omega

/-- A fault of the setup is reported without an index. -/
theorem Setup.Fault.reindex {s : Setup} {e : InterpretationError} (h : s.Fault e)
    (first first' : ℕ) : e.reindex first first' = e := by
  cases h <;> rfl

namespace Machine

variable {s : Setup} {index first first' : ℕ} {m : Machine} {is : List Instruction}
  {i : Instruction} {e : InterpretationError}

/-- An instruction that is moved is refused for the same cause. -/
theorem refusal?_movedIndex (s : Setup) (m : Machine) (i : Instruction) (first first' index : ℕ) :
    m.refusal? s (movedIndex first first' index) i =
      (m.refusal? s index i).map (.reindex first first') := by
  unfold refusal?
  cases i.command with
  | draw =>
    dsimp only
    split <;> rfl
  | openBranch =>
    dsimp only
    split <;> rfl
  | closeBranch =>
    dsimp only
    split <;> rfl
  | _ => rfl

/-- What is refused before the block is refused at the same index. -/
theorem reindex_of_refusal? (h : m.refusal? s index i = some e) (hlt : index < first) :
    e.reindex first first' = e := by
  have hmoved := refusal?_movedIndex s m i first first' index
  rw [show movedIndex first first' index = index from if_pos hlt, h] at hmoved
  exact (Option.some.inj hmoved).symm

/-- A run that starts at another index ends alike, up to the index of its error. -/
theorem run_reindex (s : Setup) (m : Machine) (is : List Instruction) (first first' k : ℕ) :
    run s (first' + k) m is = (run s (first + k) m is).mapError (.reindex first first') := by
  induction is generalizing m k with
  | nil => rfl
  | cons i rest ih =>
    have hmoved := refusal?_movedIndex s m i first first' (first + k)
    rw [movedIndex_add] at hmoved
    simp only [run, step_eq]
    rw [hmoved]
    cases m.refusal? s (first + k) i with
    | some e => rfl
    | none => exact ih (m.obey s i) (k + 1)

/-- The error of a run names an instruction of the run, if it names one. -/
theorem reindex_of_run_error (h : run s index m is = .error e) (hle : index + is.length ≤ first) :
    e.reindex first first' = e := by
  induction is generalizing m index with
  | nil => cases h
  | cons i rest ih =>
    rw [List.length_cons] at hle
    simp only [run, step_eq] at h
    cases hcause : m.refusal? s index i with
    | some cause =>
      rw [hcause] at h
      obtain rfl := Except.error.inj h
      exact reindex_of_refusal? hcause (by omega)
    | none =>
      rw [hcause] at h
      exact ih h (by omega)

end Machine

/-! ## Turns and decays -/

namespace Command

/-- A command neither draws nor opens or closes a branch. -/
def quiet : Command → Bool
  | draw => false
  | openBranch => false
  | closeBranch => false
  | _ => true

/-- Whether a command turns the turtle. -/
def turns : Command → Bool
  | incline _ => true
  | azimuth _ => true
  | _ => false

/-- A symbol that neither draws nor opens or closes a branch is quiet. -/
theorem quiet_ofSymbol {c : Char} (h : c ≠ 'F' ∧ c ≠ '[' ∧ c ≠ ']') : (ofSymbol c).quiet := by
  unfold ofSymbol
  split <;> simp_all [quiet]

/-- Four symbols turn the turtle. -/
theorem turns_ofSymbol (c : Char) :
    (ofSymbol c).turns = decide (c ∈ ['+', '-', '>', '<']) := by
  unfold ofSymbol
  split <;> simp_all [turns]

end Command

/-- The rotation after an instruction, for a turtle with a given branch axis. -/
def Setup.turned (s : Setup) (axis : Vec3) (q : Rotation) (i : Instruction) : Rotation :=
  match i.command with
  | .incline factor =>
    (q * .fromAxisAngle .unitX (s.parameters.inclination * factor)).normalize
  | .azimuth factor => (.fromAxisAngle axis (s.parameters.azimuth * factor) * q).normalize
  | _ => q

/-- A turtle after some turns and so many decays of its thickness and of its length. -/
def Turtle.turnedAndDecayed (s : Setup) (t : Turtle) (turns : List Instruction)
    (thinner shorter : ℕ) : Turtle :=
  { t with
    rotation := turns.foldl (s.turned t.branchAxis) t.rotation
    thickness := decayed s.parameters.thicknessDecay thinner t.thickness
    length := decayed s.parameters.lengthDecay shorter t.length }

/-- A quiet block is never refused; it turns the live turtle by its turns, in their order, and
lets it decay as often as it says, and does nothing else. -/
theorem Machine.run_of_quiet {is : List Instruction} (h : ∀ i ∈ is, i.command.quiet) (s : Setup)
    (index : ℕ) (m : Machine) :
    run s index m is =
      .ok { m with
        turtle := m.turtle.turnedAndDecayed s (is.filter fun i => i.command.turns)
          (is.countP fun i => i.command == .decayThickness)
          (is.countP fun i => i.command == .decayLength) } := by
  induction is generalizing index m with
  | nil => rfl
  | cons i rest ih =>
    obtain ⟨hi, hrest⟩ := List.forall_mem_cons.mp h
    have hnext := ih hrest
    simp only [run, step]
    rw [List.filter_cons, List.countP_cons, List.countP_cons]
    cases hc : i.command with
    | draw => simp [Command.quiet, hc] at hi
    | openBranch => simp [Command.quiet, hc] at hi
    | closeBranch => simp [Command.quiet, hc] at hi
    | incline factor =>
      simp [hnext, Command.turns, hc, Turtle.turnedAndDecayed, Turtle.pitch, Setup.turned]
    | azimuth factor =>
      simp [hnext, Command.turns, hc, Turtle.turnedAndDecayed, Turtle.azimuth, Setup.turned]
    | decayThickness => simp [hnext, Command.turns, Turtle.turnedAndDecayed, decayed]
    | decayLength => simp [hnext, Command.turns, Turtle.turnedAndDecayed, decayed]
    | ignore => simp [hnext, Command.turns]

/-! ## Blocks of symbols -/

/-- A word neither draws nor opens or closes a branch. -/
def Quiet (word : String) : Prop := ∀ c ∈ word.toList, c ≠ 'F' ∧ c ≠ '[' ∧ c ≠ ']'

-- Deciding goes through the word; the instance that would be found goes through all characters.
instance (word : String) : Decidable (Quiet word) :=
  List.decidableBAll (fun c => c ≠ 'F' ∧ c ≠ '[' ∧ c ≠ ']') word.toList

/-- The symbols of a word that turn. -/
def turnsOf (word : String) : List Char :=
  word.toList.filter fun c => c ∈ ['+', '-', '>', '<']

/-- Quiet words with the same turns in the same order and equally many decays of each kind. -/
structure Exchangeable (w w' : String) : Prop where
  quiet : Quiet w
  quiet' : Quiet w'
  turns : turnsOf w = turnsOf w'
  thickness : w.toList.count '#' = w'.toList.count '#'
  length : w.toList.count '$' = w'.toList.count '$'

namespace Setup

/-- The turning instructions of a word are those of its turning symbols. -/
theorem filter_turns_text (w : List Char) :
    (w.map symbolInstruction).filter (fun i => i.command.turns) =
      (w.filter fun c => c ∈ ['+', '-', '>', '<']).map symbolInstruction := by
  rw [List.filter_map]
  congr 2
  funext c
  exact Command.turns_ofSymbol c

/-- A run over quiet symbols does not fail, and changes nothing but the turtle, by its turns and its
decays. -/
theorem run_of_quiet_text {w : String} (h : Quiet w) (s : Setup) (index : ℕ) (m : Machine) :
    Machine.run s index m (w.toList.map symbolInstruction) =
      .ok { m with
        turtle := m.turtle.turnedAndDecayed s ((turnsOf w).map symbolInstruction)
          (w.toList.count '#') (w.toList.count '$') } := by
  have hquiet : ∀ i ∈ w.toList.map symbolInstruction, i.command.quiet := by
    intro i hi
    obtain ⟨c, hc, rfl⟩ := List.mem_map.mp hi
    exact Command.quiet_ofSymbol (h c hc)
  rw [Machine.run_of_quiet hquiet, filter_turns_text,
    countP_command_text ofSymbol_beq_decayThickness, countP_command_text ofSymbol_beq_decayLength]
  rfl

/-- **Quiet blocks may be exchanged.**  Between two words, a quiet block may be replaced by any
other with the same turns and equally many decays of each kind.  The interpretation is the same,
or it fails with the same error; if this names a symbol of the second word, its index moves with
the word. -/
theorem interpretText_exchange {w w' : String} (h : Exchangeable w w') (s : Setup) (u v : String) :
    s.interpretText (u ++ w' ++ v) =
      (s.interpretText (u ++ w ++ v)).mapError
        (.reindex (u ++ w).length (u ++ w').length) := by
  have hsplit (block : String) : (u ++ block ++ v).toList.map symbolInstruction =
      u.toList.map symbolInstruction ++
        (block.toList.map symbolInstruction ++ v.toList.map symbolInstruction) := by
    simp
  unfold interpretText interpret
  rcases fault_or_sound s with ⟨e, hfault⟩ | hsound
  · rw [fault?_of_fault hfault]
    exact congrArg Except.error (hfault.reindex _ _).symm
  · rw [fault?_of_sound hsound]
    dsimp only
    rw [hsplit, hsplit, Machine.run_append, Machine.run_append]
    cases hu : Machine.run s 0 (.start s) (u.toList.map symbolInstruction) with
    | error e =>
      have hsame : e.reindex (u ++ w).length (u ++ w').length = e := by
        apply Machine.reindex_of_run_error hu
        simp [String.length_toList]
      exact congrArg Except.error hsame.symm
    | ok m =>
      -- Both blocks leave the same machine, and what follows starts at different indices.
      simp only [Except.bind]
      rw [Machine.run_append, Machine.run_append, run_of_quiet_text h.quiet,
        run_of_quiet_text h.quiet', h.turns, h.thickness, h.length]
      simp only [Except.bind]
      have hlater := Machine.run_reindex s
        { m with
          turtle := m.turtle.turnedAndDecayed s ((turnsOf w').map symbolInstruction)
            (w'.toList.count '#') (w'.toList.count '$') }
        (v.toList.map symbolInstruction) (u ++ w).length (u ++ w').length 0
      have hlength (block : String) : 0 + (u.toList.map symbolInstruction).length +
          (block.toList.map symbolInstruction).length = (u ++ block).length + 0 := by
        simp [String.length_toList]
      rw [hlength, hlength, hlater]
      cases Machine.run s ((u ++ w).length + 0) _ (v.toList.map symbolInstruction) <;> rfl

/-- Two blocks in an open branch, the longer one with symbols that mean nothing.  What follows
closes the branch, or closes it twice. -/
theorem interpretText_exchange_in_branch :
    let w := "é#+x$>"
    let w' := "+$>#"
    Exchangeable w w' ∧
      standard.interpretText ("F[" ++ w' ++ "F]F") = standard.interpretText ("F[" ++ w ++ "F]F") ∧
      (standard.interpretText ("F[" ++ w ++ "F]F")).isOk ∧
      standard.interpretText ("F[" ++ w ++ "F]]") = .error (.nothingToClose 10) ∧
      standard.interpretText ("F[" ++ w' ++ "F]]") = .error (.nothingToClose 8) := by
  intro w w'
  have hexchangeable : Exchangeable w w' :=
    ⟨by decide +kernel, by decide +kernel, by decide +kernel, by decide +kernel, by decide +kernel⟩
  obtain ⟨r, hr⟩ : ∃ r, standard.interpretText ("F[" ++ w ++ "F]F") = .ok r :=
    exists_result (by decide +kernel)
  have herror : standard.interpretText ("F[" ++ w ++ "F]]") = .error (.nothingToClose 10) := by
    decide +kernel
  refine ⟨hexchangeable, ?_, ?_, herror, ?_⟩
  · rw [interpretText_exchange hexchangeable, hr]
    rfl
  · rw [hr]
    rfl
  · rw [interpretText_exchange hexchangeable, herror]
    decide +kernel

end Setup

end BranchingTubes
