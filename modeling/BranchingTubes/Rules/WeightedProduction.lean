import BranchingTubes.Random.Keystream
import BranchingTubes.Rules.Lottery

/-!
# Productions chosen at random

One symbol has several successors with relative weights.  Each pass replaces occurrence
number `i` of the symbol by the alternative that the word `i` of the keystream draws, so
the choices depend on the seed and the weights and not on the text around them.  If no
weight counts, the word is left as it is; if the weights sum to infinity, the pass fails
whatever the word.
-/

set_option autoImplicit false

namespace BranchingTubes

/-- A symbol with weighted successors. -/
structure WeightedProduction where
  symbol : Char
  /-- The successors with their relative weights. -/
  alternatives : List (String × Float32)
  seed : UInt64
  deriving DecidableEq, Inhabited

/-- Replaces each occurrence of a symbol by a word that depends on its number, the first
one having the given number. -/
def replaceNumbered (symbol : Char) (successor : Nat → List Char) :
    Nat → List Char → List Char
  | _, [] => []
  | i, c :: rest =>
    if c = symbol then successor i ++ replaceNumbered symbol successor (i + 1) rest
    else c :: replaceNumbered symbol successor i rest

namespace WeightedProduction

/-- The lottery of the weights; none if no weight counts. -/
def lottery (p : WeightedProduction) : Except RuleError (Option Lottery) :=
  Lottery.ofWeights (p.alternatives.map Prod.snd)

/-- The alternative that a lottery draws for an occurrence. -/
def pick (p : WeightedProduction) (l : Lottery) (i : Nat) : Nat :=
  l.ticket ((Keystream.ofSeed p.seed).word i)

/-- The text of an alternative, given by its number.  No lottery that is made draws a number out of
range (`WeightedProduction.pick_lt`), so the empty text is never put in for want of an
alternative. -/
def successor (p : WeightedProduction) (alternative : Nat) : List Char :=
  match p.alternatives[alternative]? with
  | some (word, _) => word.toList
  | none => []

/-- The word with each occurrence of the symbol replaced by an alternative that is drawn for it. -/
def apply (p : WeightedProduction) (word : String) : Except RuleError String :=
  match p.lottery with
  | .error e => .error e
  | .ok none => .ok word
  | .ok (some l) =>
    .ok (String.ofList
      (replaceNumbered p.symbol (fun i => p.successor (p.pick l i)) 0 word.toList))

/-- A weighted production as a rule. -/
def rule (p : WeightedProduction) : Rule := p.apply

end WeightedProduction

end BranchingTubes
