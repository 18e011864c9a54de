import BranchingTubes.Derivation.CommandMap
import BranchingTubes.Interpretation.Machine
import BranchingTubes.Number.Decimal

/-!
# Parametric modules

A derivation is a bounded sequence of modules: a numbered symbol with an age and some
double-precision parameters.  Interpreted through a command map, a module's first
parameter, rounded to single precision, replaces the length of the segment it draws; the
age and the other parameters mean nothing to the turtle.
-/

set_option autoImplicit false

namespace BranchingTubes

/-- Why a module was not added. -/
inductive DerivationError where
  /-- The age or a parameter is a NaN or infinite. -/
  | nonFiniteNumber
  /-- The derivation holds as many modules as it may. -/
  | full
  deriving DecidableEq

/-- The text of the error. -/
def DerivationError.message : DerivationError → String
  | nonFiniteNumber => "Non-finite numeric value detected (NaN/Inf)"
  | full => "State capacity overflow"

/-- A numbered symbol with an age and parameters. -/
structure SymbolModule where
  symbol : UInt16
  age : Float
  parameters : List Float
  deriving DecidableEq

namespace SymbolModule

/-- Whether the age and all parameters are finite. -/
def isFinite (m : SymbolModule) : Bool := m.age.isFinite && m.parameters.all Float.isFinite

/-- What a module tells the turtle. -/
def instruction (commands : CommandMap) (m : SymbolModule) : Instruction :=
  ⟨commands.get m.symbol, m.parameters.head?.map narrow⟩

end SymbolModule

/-- A bounded sequence of modules. -/
structure Derivation where
  modules : Array SymbolModule
  /-- How many modules there may be. -/
  capacity : Nat

namespace Derivation

/-- A derivation without modules, with room for so many. -/
def empty (capacity : Nat) : Derivation := ⟨#[], capacity⟩

/-- Adds a module at the end.  Numbers are checked before the capacity. -/
def push (d : Derivation) (m : SymbolModule) : Except DerivationError Derivation :=
  if !m.isFinite then .error .nonFiniteNumber
  else if d.capacity ≤ d.modules.size then .error .full
  else .ok { d with modules := d.modules.push m }

/-- Takes all modules out and keeps the capacity. -/
def clear (d : Derivation) : Derivation := { d with modules := #[] }

end Derivation

namespace Setup

/-- Interprets the modules of a derivation through a command map. -/
def interpretModules (s : Setup) (commands : CommandMap) (d : Derivation) :
    Except InterpretationError Interpretation :=
  s.interpret (d.modules.toList.map (SymbolModule.instruction commands))

/-- Only the mesh of the interpretation; branches left open are no error. -/
def meshOfModules (s : Setup) (commands : CommandMap) (d : Derivation) :
    Except InterpretationError Mesh :=
  (s.interpretModules commands d).map Interpretation.mesh

end Setup

end BranchingTubes
