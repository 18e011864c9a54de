/-!
# Drawing commands and the drawing alphabet

Nine symbols have a meaning to the turtle; every other character is ignored.
`Command.alphabet` lists them, `Command.ofSymbol` reads one.
-/

set_option autoImplicit false

namespace BranchingTubes

/-- What the turtle is told to do. -/
inductive Command where
  /-- Draw a segment and advance along it. -/
  | draw
  /-- Pitch by the inclination step times a factor. -/
  | incline (factor : Float32)
  /-- Turn around the branch axis by the azimuth step times a factor. -/
  | azimuth (factor : Float32)
  /-- Save the turtle and open a branch. -/
  | openBranch
  /-- Close the branch and return to the saved turtle. -/
  | closeBranch
  /-- Multiply the thickness by its decay. -/
  | decayThickness
  /-- Multiply the length by its decay. -/
  | decayLength
  | ignore
  deriving DecidableEq, Inhabited

namespace Command

/-- The drawing alphabet with its commands. -/
def alphabet : List (Char × Command) :=
  [('F', .draw), ('+', .incline 1), ('-', .incline (-1)), ('>', .azimuth 1), ('<', .azimuth (-1)),
    ('[', .openBranch), (']', .closeBranch), ('#', .decayThickness), ('$', .decayLength)]

/-- The command of a symbol of the drawing alphabet; any other symbol is ignored. -/
def ofSymbol : Char → Command
  | 'F' => .draw
  | '+' => .incline 1
  | '-' => .incline (-1)
  | '>' => .azimuth 1
  | '<' => .azimuth (-1)
  | '[' => .openBranch
  | ']' => .closeBranch
  | '#' => .decayThickness
  | '$' => .decayLength
  | _ => .ignore

end Command

end BranchingTubes
