import BranchingTubes.Proofs.NumberedWords
import Mathlib

/-!
# Command maps after a history of changes

A command map starts empty and is changed in three ways: it is replaced as a whole, one number is
assigned a command, or the alphabet is registered by the numbers that it has in a table.  In what
order these come, and how far the array has grown when they do, leaves no trace but this: the last
change that writes a number gives the number its command, and a number that no change writes is
ignored (`meshOfModules_changed`).

`MapChange.Writes` says which numbers a change writes, and `MapChange.written?` computes it.  A
change does to what is read from the map just that (`get_apply`), so the changes after the last
write are read through (`get_changed_of_untouched`).
-/

set_option autoImplicit false

namespace BranchingTubes

/-- A way to change a command map. -/
inductive MapChange where
  /-- Give the numbers the commands of a list in order, in place of all they had. -/
  | replace (commands : List Command)
  | assign (number : UInt16) (command : Command)
  /-- Give the symbols of the alphabet that a table knows their commands. -/
  | register (table : SymbolTable)

namespace MapChange

/-- What a change makes of a map. -/
def apply : MapChange → CommandMap → CommandMap
  | replace commands, _ => .ofList commands
  | assign number command, m => m.set number command
  | register table, m => m.addAlphabet table

/-- A change writes a command to a number. -/
inductive Writes : MapChange → UInt16 → Command → Prop where
  | covered {commands : List Command} {number : UInt16} {command : Command} :
    commands[number.toNat]? = some command → Writes (replace commands) number command
  /-- A list that replaces the map also writes the numbers beyond its end. -/
  | beyond {commands : List Command} {number : UInt16} :
    commands.length ≤ number.toNat → Writes (replace commands) number .ignore
  | assigned (number : UInt16) (command : Command) : Writes (assign number command) number command
  | registered {table : SymbolTable} {symbol : Char} {number : UInt16} {command : Command} :
    (symbol, command) ∈ Command.alphabet →
      table.resolve? (String.singleton symbol) = some number →
      Writes (register table) number command

/-- A change writes some command to a number. -/
def Touches (change : MapChange) (number : UInt16) : Prop :=
  ∃ command, change.Writes number command

/-- The command that a change writes to a number. -/
def written? : MapChange → UInt16 → Option Command
  | replace commands, k => some (commands[k.toNat]?.getD .ignore)
  | assign number command, k => if k = number then some command else none
  | register table, k => (CommandMap.entryOf? table Command.alphabet k).map Prod.snd

end MapChange

/-! ## What one change writes -/

namespace MapChange

variable {change : MapChange} {changes : List MapChange} {k : UInt16} {command : Command}

/-- A change writes the command that it can be asked for. -/
theorem written?_eq_some_iff : change.written? k = some command ↔ change.Writes k command := by
  cases change with
  | replace commands =>
    rw [written?, Option.some_inj]
    constructor
    · intro h
      by_cases hk : k.toNat < commands.length
      · refine .covered ?_
        rw [← h, List.getElem?_eq_getElem hk, Option.getD_some]
      · rw [List.getElem?_eq_none (not_lt.mp hk), Option.getD_none] at h
        exact h ▸ .beyond (not_lt.mp hk)
    · intro h
      cases h with
      | covered hcommand => rw [hcommand, Option.getD_some]
      | beyond hbeyond => rw [List.getElem?_eq_none hbeyond, Option.getD_none]
  | assign number given =>
    rw [written?]
    constructor
    · intro h
      split at h
      next hk =>
        rw [hk, ← Option.some_inj.mp h]
        exact .assigned number given
      next => simp at h
    · rintro ⟨⟩
      rw [if_pos rfl]
  | register table =>
    rw [written?, Option.map_eq_some_iff]
    constructor
    · rintro ⟨⟨symbol, given⟩, hfound, rfl⟩
      obtain ⟨hentry, hnumber⟩ := (CommandMap.entryOf?_eq_some_iff Command.nodup_alphabet).mp hfound
      exact .registered hentry hnumber
    · intro h
      cases h with
      | registered hentry hnumber =>
        have hfound :=
          (CommandMap.entryOf?_eq_some_iff Command.nodup_alphabet).mpr ⟨hentry, hnumber⟩
        exact ⟨_, hfound, rfl⟩

/-- A change touches a number if it has a command to write there. -/
theorem touches_iff_isSome : change.Touches k ↔ (change.written? k).isSome := by
  simp only [Touches, Option.isSome_iff_exists, written?_eq_some_iff]

instance (change : MapChange) (k : UInt16) : Decidable (change.Touches k) :=
  decidable_of_iff _ touches_iff_isSome.symm

/-- A change is an update of the function that the map stands for. -/
theorem get_apply (change : MapChange) (m : CommandMap) (k : UInt16) :
    (change.apply m).get k = (change.written? k).getD (m.get k) := by
  cases change with
  | replace commands =>
    simp only [apply, written?, CommandMap.ofList, CommandMap.get, Array.getD_eq_getD_getElem?,
      List.getElem?_toArray, Option.getD_some]
  | assign number given =>
    rw [apply, written?, CommandMap.get_set]
    split <;> rfl
  | register table => exact CommandMap.get_addAlphabet m table k

/-- After a change, a number that was written has the command written. -/
theorem get_apply_of_writes (h : change.Writes k command) (m : CommandMap) :
    (change.apply m).get k = command := by
  rw [get_apply, written?_eq_some_iff.mpr h, Option.getD_some]

/-- After a change, a number that was not touched has the command it had. -/
theorem get_apply_of_not_touches (h : ¬ change.Touches k) (m : CommandMap) :
    (change.apply m).get k = m.get k := by
  rw [touches_iff_isSome, Option.not_isSome_iff_eq_none] at h
  rw [get_apply, h, Option.getD_none]

end MapChange

/-! ## What a history of changes writes -/

/-- The command map after changes, the first of them made first. -/
def CommandMap.changed (m : CommandMap) (changes : List MapChange) : CommandMap :=
  changes.foldl (fun m change => change.apply m) m

/-- A history of changes gives a number a command: the last change that writes the number writes
this one, or none writes the number and it is ignored. -/
inductive GivenLast (history : List MapChange) (number : UInt16) : Command → Prop where
  | written {earlier later : List MapChange} {change : MapChange} {command : Command} :
    history = earlier ++ change :: later → change.Writes number command →
      (∀ next ∈ later, ¬ next.Touches number) → GivenLast history number command
  | never : (∀ change ∈ history, ¬ change.Touches number) → GivenLast history number .ignore

section History

variable {change : MapChange} {changes history : List MapChange} {k : UInt16} {command : Command}

/-- What was given last stays so when a change does not touch it. -/
theorem GivenLast.concat (h : GivenLast history k command) (hkept : ¬ change.Touches k) :
    GivenLast (history ++ [change]) k command := by
  cases h with
  | @written earlier later _ _ hsplit hwrites hlater =>
    refine .written (?_ : _ = earlier ++ _ :: (later ++ [change])) hwrites ?_
    · rw [hsplit, List.append_assoc, List.cons_append]
    · rw [List.forall_mem_append, List.forall_mem_singleton]
      exact ⟨hlater, hkept⟩
  | never hnever =>
    refine .never ?_
    rw [List.forall_mem_append, List.forall_mem_singleton]
    exact ⟨hnever, hkept⟩

namespace CommandMap

/-- The last change is applied after all the others. -/
theorem changed_concat (m : CommandMap) (changes : List MapChange) (change : MapChange) :
    m.changed (changes ++ [change]) = change.apply (m.changed changes) :=
  List.foldl_append

/-- Changes that do not write a number are not seen at that number. -/
theorem get_changed_of_untouched (h : ∀ change ∈ changes, ¬ change.Touches k) (m : CommandMap) :
    (m.changed changes).get k = m.get k := by
  induction changes generalizing m with
  | nil => rfl
  | cons change rest ih =>
    obtain ⟨hfirst, hrest⟩ := List.forall_mem_cons.mp h
    calc ((change.apply m).changed rest).get k = (change.apply m).get k := ih hrest _
      _ = m.get k := MapChange.get_apply_of_not_touches hfirst m

/-- In every history, the command that a number has in the end was given last. -/
theorem givenLast_get (history : List MapChange) (k : UInt16) :
    GivenLast history k ((empty.changed history).get k) := by
  induction history using List.reverseRecOn with
  | nil => exact .never (List.forall_mem_nil _)
  | append_singleton history change ih =>
    rw [changed_concat]
    by_cases htouch : change.Touches k
    · obtain ⟨command, hwrites⟩ := htouch
      rw [MapChange.get_apply_of_writes hwrites]
      exact .written rfl hwrites (List.forall_mem_nil _)
    · rw [MapChange.get_apply_of_not_touches htouch]
      exact ih.concat htouch

/-- A number has in the end the command that was given last, so only one can have been. -/
theorem get_of_givenLast (h : GivenLast history k command) :
    (empty.changed history).get k = command := by
  cases h with
  | @written earlier later change _ hsplit hwrites hlater =>
    -- Only the changes up to the write matter, and the write hides those before it.
    calc (empty.changed history).get k
        = ((change.apply (empty.changed earlier)).changed later).get k := by
          rw [hsplit, changed, List.foldl_append]
          rfl
      _ = (change.apply (empty.changed earlier)).get k := get_changed_of_untouched hlater _
      _ = command := MapChange.get_apply_of_writes hwrites _
  | never hnever => exact get_changed_of_untouched hnever empty

/-- What a number has in the end and what was given last are the same. -/
theorem givenLast_iff : GivenLast history k command ↔ (empty.changed history).get k = command :=
  ⟨get_of_givenLast, fun h => h ▸ givenLast_get history k⟩

end CommandMap

end History

/-! ## What the turtle obeys -/

namespace Setup

/-- A derivation is interpreted by the commands of its own numbers. -/
theorem meshOfModules_congr {commands commands' : CommandMap} {d : Derivation}
    (h : ∀ m ∈ d.modules.toList, commands.get m.symbol = commands'.get m.symbol) (s : Setup) :
    s.meshOfModules commands d = s.meshOfModules commands' d := by
  have hsame : d.modules.toList.map (SymbolModule.instruction commands) =
      d.modules.toList.map (SymbolModule.instruction commands') := by
    refine List.map_congr_left fun m hm => ?_
    rw [SymbolModule.instruction, SymbolModule.instruction, h m hm]
  rw [meshOfModules, meshOfModules, interpretModules, interpretModules, hsame]

/-- **The last write counts.**  After any changes of an empty map each number has one command,
which is the one that the last change to write the number wrote, and `ignore` if there is none.
Every derivation is interpreted by these commands, to the same mesh or the same error; and one
change more, however far the array grows over it, is not seen by a derivation none of whose
numbers it writes. -/
theorem meshOfModules_changed (history : List MapChange) :
    ∃ commandOf : UInt16 → Command,
      (∀ number command, GivenLast history number command ↔ commandOf number = command) ∧
      (∀ (s : Setup) (d : Derivation),
        s.meshOfModules (CommandMap.empty.changed history) d =
          (s.interpret (d.modules.toList.map fun m =>
            ⟨commandOf m.symbol, m.parameters.head?.map narrow⟩)).map Interpretation.mesh) ∧
      ∀ (change : MapChange) (d : Derivation), (∀ m ∈ d.modules.toList, ¬ change.Touches m.symbol) →
        ∀ s : Setup, s.meshOfModules (CommandMap.empty.changed (history ++ [change])) d =
          s.meshOfModules (CommandMap.empty.changed history) d := by
  refine ⟨(CommandMap.empty.changed history).get, fun number command => CommandMap.givenLast_iff,
    fun s d => rfl, fun change d hkept s => ?_⟩
  refine meshOfModules_congr (fun m hm => ?_) s
  rw [CommandMap.changed_concat, MapChange.get_apply_of_not_touches (hkept m hm)]

/-- A map that is replaced, grown over four numbers and registered with two tables.  Of what was
written before the replacement nothing is left: the number 6 is ignored. -/
theorem meshOfModules_changed_regrown :
    let history : List MapChange :=
      [.assign 6 .closeBranch, .replace [.draw, .ignore, .decayLength], .assign 7 .draw,
        .register ⟨["+", "x", "F"], 64, by decide, by decide⟩,
        .register ⟨["x", "[", "leaf", "]", "F"], 64, by decide, by decide⟩,
        .assign 5 (.incline (-1))]
    let later : MapChange := .assign 40000 .closeBranch
    let d : Derivation := ⟨([7, 1, 0, 2, 6, 3, 5, 4, 9].map (⟨·, 0.5, []⟩)).toArray, 9⟩
    (∀ m ∈ d.modules.toList, ¬ later.Touches m.symbol) ∧
      standard.meshOfModules (CommandMap.empty.changed (history ++ [later])) d =
        standard.meshOfText "F[+Fx]-Fx" ∧
      (standard.meshOfText "F[+Fx]-Fx").isOk := by
  intro history later d
  have hkept : ∀ m ∈ d.modules.toList, ¬ later.Touches m.symbol := by decide +kernel
  obtain ⟨-, -, -, hsame⟩ := meshOfModules_changed history
  have hcommands : d.modules.toList.map
      (SymbolModule.instruction (CommandMap.empty.changed history)) =
        "F[+Fx]-Fx".toList.map symbolInstruction := by decide +kernel
  refine ⟨hkept, ?_, by decide +kernel⟩
  rw [hsame later d hkept standard, meshOfModules, interpretModules, hcommands]
  rfl

end Setup

end BranchingTubes
