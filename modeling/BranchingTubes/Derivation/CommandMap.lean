import BranchingTubes.Derivation.SymbolTable
import BranchingTubes.Turtle.Command

/-!
# Commands of numbered symbols

A command map gives every 16-bit number a command; numbers it says nothing about are
ignored.  It is stored as an array that grows when a number beyond its end is set.
-/

set_option autoImplicit false

namespace BranchingTubes

/-- The commands of the numbers `0, 1, …` up to some number. -/
structure CommandMap where
  commands : Array Command
  deriving DecidableEq, Inhabited

namespace CommandMap

/-- The map that ignores every number. -/
def empty : CommandMap := ⟨#[]⟩

/-- The map that gives the numbers the commands of a list in order. -/
def ofList (commands : List Command) : CommandMap := ⟨commands.toArray⟩

/-- The command of a number; numbers beyond the array are ignored. -/
def get (m : CommandMap) (number : UInt16) : Command := m.commands.getD number.toNat .ignore

/-- Gives a number a command; the numbers the array has to grow over stay ignored. -/
def set (m : CommandMap) (number : UInt16) (command : Command) : CommandMap :=
  let missing := number.toNat + 1 - m.commands.size
  ⟨(m.commands ++ Array.replicate missing Command.ignore).setIfInBounds number.toNat command⟩

/-- Gives the symbols of the drawing alphabet that a table knows their commands. -/
def addAlphabet (m : CommandMap) (t : SymbolTable) : CommandMap :=
  Command.alphabet.foldl
    (fun m entry =>
      match t.resolve? (String.singleton entry.1) with
      | some number => m.set number entry.2
      | none => m)
    m

end CommandMap

end BranchingTubes
