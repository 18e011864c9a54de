import BranchingTubes.Derivation.Modules
import Mathlib

/-!
# Symbols that open, close and draw

`Marks` says which symbols of an alphabet open a branch, close one, or draw.  The drawing
alphabet and the commands have marks of their own, and an instruction or a symbol is
marked as the command it stands for (`Marks.comap`, `text_eq_comap`).  `Marks.excess`
counts the branches that a word leaves open.
-/

set_option autoImplicit false

namespace BranchingTubes

/-- Which symbols of an alphabet open a branch, close one, or draw. -/
structure Marks (α : Type) where
  opens : α → Bool
  closes : α → Bool
  draws : α → Bool
  /-- No symbol both opens and closes. -/
  closes_of_opens : ∀ c, opens c = true → closes c = false

namespace Marks

/-- The marks of the drawing alphabet. -/
def text : Marks Char where
  opens c := c == '['
  closes c := c == ']'
  draws c := c == 'F'
  closes_of_opens c h := by simp_all

/-- The marks of the commands. -/
def command : Marks Command where
  opens c := c == .openBranch
  closes c := c == .closeBranch
  draws c := c == .draw
  closes_of_opens c h := by simp_all

variable {α β : Type}

/-- The marks of symbols that stand for others. -/
def comap (k : Marks β) (f : α → β) : Marks α where
  opens := k.opens ∘ f
  closes := k.closes ∘ f
  draws := k.draws ∘ f
  closes_of_opens c := k.closes_of_opens (f c)

/-- The marks of the instructions are those of their commands. -/
def instruction : Marks Instruction := command.comap Instruction.command

/-- A symbol of the drawing alphabet opens, closes or draws as its instruction does. -/
theorem text_eq_comap : text = instruction.comap Setup.symbolInstruction := by
  have opens (c : Char) : (c == '[') = (Command.ofSymbol c == .openBranch) := by
    unfold Command.ofSymbol
    split <;> simp_all
  have closes (c : Char) : (c == ']') = (Command.ofSymbol c == .closeBranch) := by
    unfold Command.ofSymbol
    split <;> simp_all
  have draws (c : Char) : (c == 'F') = (Command.ofSymbol c == .draw) := by
    unfold Command.ofSymbol
    split <;> simp_all
  simp only [text, instruction, command, comap, mk.injEq]
  exact ⟨funext opens, funext closes, funext draws⟩

/-- An instruction opens a branch if that is its command. -/
theorem instruction_opens_iff {i : Instruction} :
    instruction.opens i = true ↔ i.command = .openBranch := by
  simp [instruction, command, comap]

/-- An instruction closes a branch if that is its command. -/
theorem instruction_closes_iff {i : Instruction} :
    instruction.closes i = true ↔ i.command = .closeBranch := by
  simp [instruction, command, comap]

/-- An instruction draws if that is its command. -/
theorem instruction_draws_iff {i : Instruction} :
    instruction.draws i = true ↔ i.command = .draw := by
  simp [instruction, command, comap]

/-- A word has as many drawing instructions as it has the symbol that draws. -/
theorem countP_draws_text (w : List Char) :
    (w.map Setup.symbolInstruction).countP instruction.draws = w.count 'F' := by
  have h : text.draws = instruction.draws ∘ Setup.symbolInstruction :=
    congrArg draws text_eq_comap
  rw [List.countP_map, ← h]
  rfl

/-- A word has as many opening instructions as it has the symbol that opens a branch. -/
theorem countP_opens_text (w : List Char) :
    (w.map Setup.symbolInstruction).countP instruction.opens = w.count '[' := by
  have h : text.opens = instruction.opens ∘ Setup.symbolInstruction :=
    congrArg opens text_eq_comap
  rw [List.countP_map, ← h]
  rfl

/-- Modules have as many drawing instructions as there are modules whose symbol is given the command
to draw. -/
theorem countP_draws_modules (commands : CommandMap) (modules : List SymbolModule) :
    (modules.map (SymbolModule.instruction commands)).countP instruction.draws =
      modules.countP fun m => commands.get m.symbol == .draw := by
  rw [List.countP_map]
  rfl

variable (k : Marks α)

/-- How many more symbols of a word open than close. -/
def excess (w : List α) : ℤ := (w.countP k.opens : ℤ) - w.countP k.closes

/-- Nothing is opened by the empty word. -/
@[simp] theorem excess_nil : k.excess [] = 0 := rfl

/-- The excess of a word is the sum of the excesses of its parts. -/
theorem excess_append (u v : List α) : k.excess (u ++ v) = k.excess u + k.excess v := by
  simp only [excess, List.countP_append, Nat.cast_add]
  ring

/-- The excess of a word is that of its first symbol and that of the rest together. -/
theorem excess_cons (c : α) (w : List α) : k.excess (c :: w) = k.excess [c] + k.excess w :=
  k.excess_append [c] w

variable {k} in

/-- A symbol that closes a branch does not open one. -/
theorem opens_of_closes {c : α} (h : k.closes c) : k.opens c = false := by
  cases ho : k.opens c with
  | false => rfl
  | true => simp [k.closes_of_opens c ho] at h

variable {k} in

/-- A symbol that opens a branch adds one to the excess. -/
theorem excess_of_opens {c : α} (h : k.opens c) : k.excess [c] = 1 := by
  simp [excess, h, k.closes_of_opens c h]

variable {k} in

/-- A symbol that closes a branch takes one from the excess. -/
theorem excess_of_closes {c : α} (h : k.closes c) : k.excess [c] = -1 := by
  simp [excess, h, opens_of_closes h]

/-- The excess of a translated word is the excess that the word has for the translated marks. -/
theorem excess_map (k : Marks β) (f : α → β) (w : List α) :
    k.excess (w.map f) = (k.comap f).excess w := by
  simp only [excess, List.countP_map]
  rfl

end Marks

end BranchingTubes
