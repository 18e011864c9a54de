import BranchingTubes.Growth.Parameters
import BranchingTubes.Number.Shortest
import BranchingTubes.Rules.Rule

/-!
# Growing words

A grammar has a start word, a rule and growth parameters.  `Grammar.grow` applies the
rule a number of times to the whole word.  The other entry points add a check of the
count (`growOfInt`), a cap on the length of every generation but the start word
(`growWithin`), and the list of all generations (`generations`).
-/

set_option autoImplicit false

namespace BranchingTubes

/-- What a checked number of passes or a cap refuses. -/
inductive GrowthError where
  /-- The number of passes is below zero. -/
  | negativePasses (count : Int)
  /-- The number of passes does not fit into 32 bits. -/
  | tooManyPasses (count : Int)
  /-- A pass, counted from one, gave a word longer than the cap. -/
  | tooLong (pass length limit : Nat)
  | rule (cause : RuleError)
  deriving DecidableEq

/-- The greatest number of passes that fits into 32 bits. -/
def maxPasses : Int := UInt32.size - 1

/-- A start word, a rule and the parameters of the drawing. -/
structure Grammar where
  start : String
  rule : Rule
  parameters : Parameters

/-- A word after a number of passes, the first of them having the given number, unless
one makes a word of more bytes than the limit. -/
def Rule.iterateWithin (rule : Rule) (limit : Nat) :
    Nat → Nat → String → Except GrowthError String
  | _, 0, word => .ok word
  | pass, n + 1, word =>
    match rule word with
    | .error e => .error (.rule e)
    | .ok next =>
      if limit < next.utf8ByteSize then .error (.tooLong pass next.utf8ByteSize limit)
      else rule.iterateWithin limit (pass + 1) n next

namespace Grammar

/-- The word after so many passes over the start. -/
def grow (g : Grammar) (passes : Nat) : Except RuleError String := g.rule.iterate passes g.start

/-- Growth for a count that may be out of range. -/
def growOfInt (g : Grammar) (passes : Int) : Except GrowthError String :=
  if passes < 0 then .error (.negativePasses passes)
  else if maxPasses < passes then .error (.tooManyPasses passes)
  else (g.grow passes.toNat).mapError .rule

/-- Growth that stops at the first generation longer than a number of bytes. -/
def growWithin (g : Grammar) (passes limit : Nat) : Except GrowthError String :=
  g.rule.iterateWithin limit 1 passes g.start

/-- The start word and the words after each pass. -/
def generations (g : Grammar) (passes : Nat) : Except RuleError (List String) :=
  g.rule.orbit passes g.start

/-- How a character stands in a quoted text. -/
def quoteChar : Char → List Char
  | '"' => ['\\', '"']
  | '\\' => ['\\', '\\']
  | '\n' => ['\\', 'n']
  | '\t' => ['\\', 't']
  | c => [c]

/-- A text in double quotes; quotes, backslashes, line ends and tabs are escaped. -/
def quote (text : String) : String :=
  "\"" ++ String.ofList (text.toList.flatMap quoteChar) ++ "\""

/-- A one-line description: the start word and the parameters; the rule is left out. -/
def describe (g : Grammar) : String :=
  let field (entry : String × Float32) : String :=
    entry.1 ++ ": " ++ NumberLayout.diagnostic.render entry.2
  "GrowthGrammar \x7b axiom: " ++ quote g.start ++ ", params: GrowthParams \x7b " ++
    ", ".intercalate (g.parameters.entries.map field) ++ " \x7d, .. \x7d"

end Grammar

namespace GrowthError

/-- The text of an error; a failure of the rule itself has none. -/
def message? : GrowthError → Option String
  | negativePasses count => some s!"iteration count must be non-negative, got {count}"
  | tooManyPasses count => some s!"iteration count {count} exceeds u32::MAX"
  | tooLong pass length limit =>
    some s!"growth exceeded {limit} symbols at iteration {pass} (length {length})"
  | rule _ => none

end GrowthError

end BranchingTubes
