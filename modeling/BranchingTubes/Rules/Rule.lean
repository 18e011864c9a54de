/-!
# Growth rules

A rule turns a whole word into its successor in one pass.  Any function of this type is
a rule; the modules beside this one define three kinds.  A rule may fail, and then it
fails for a cause that does not lie in the word.
-/

set_option autoImplicit false

namespace BranchingTubes

/-- Why a rule gives no word. -/
inductive RuleError where
  /-- The weights of the alternatives sum to infinity. -/
  | infiniteWeight
  deriving DecidableEq

/-- One pass over a word. -/
abbrev Rule := String → Except RuleError String

/-- A word after a number of passes. -/
def Rule.iterate (rule : Rule) : Nat → Rule
  | 0, word => .ok word
  | n + 1, word =>
    match rule word with
    | .error e => .error e
    | .ok next => rule.iterate n next

/-- The words after zero, one, … passes. -/
def Rule.orbit (rule : Rule) : Nat → String → Except RuleError (List String)
  | 0, word => .ok [word]
  | n + 1, word =>
    match rule word with
    | .error e => .error e
    | .ok next => (rule.orbit n next).map (word :: ·)

end BranchingTubes
