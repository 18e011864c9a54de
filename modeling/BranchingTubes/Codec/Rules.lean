import BranchingTubes.Json.Value
import BranchingTubes.Rules.Productions
import BranchingTubes.Rules.Replacement
import BranchingTubes.Rules.WeightedProduction

/-!
# Growth rules as JSON

All three kinds of rules are records.  Productions are an object from symbols to
successors; a weighted alternative is an array of a word and a number.
-/

set_option autoImplicit false

namespace BranchingTubes

namespace Replacement

/-- The fields of a replacement, as they are written. -/
def fieldNames : List String := ["from", "to"]

/-- An object of the pattern and its successor. -/
def toJson (r : Replacement) : Json :=
  .object (fieldNames.zip [.text r.pattern, .text r.successor])

/-- Both fields are texts. -/
def ofJson? (j : Json) : Option Replacement :=
  match j.fields? fieldNames with
  | some [pattern, successor] => return ⟨← pattern.text?, ← successor.text?⟩
  | _ => none

end Replacement

namespace Productions

/-- The one field of productions. -/
def fieldNames : List String := ["productions"]

/-- An object in an object, with the symbols as names in ascending order. -/
def toJson (p : Productions) : Json :=
  .object (fieldNames.zip
    [.object (p.entries.map fun entry => (String.singleton entry.1, .text entry.2))])

/-- Reads one production: a name of one character and a text. -/
def production? (field : String × Json) : Option (Char × String) :=
  return (← (Json.text field.1).char?, ← field.2.text?)

/-- Of two productions for one symbol the later one is kept. -/
def ofJson? (j : Json) : Option Productions :=
  match j.fields? fieldNames with
  | some [.object fields] => (fields.mapM production?).map ofList
  | _ => none

end Productions

namespace WeightedProduction

/-- The fields of a weighted production, as they are written. -/
def fieldNames : List String := ["symbol", "alternatives", "seed"]

/-- An object of the symbol, the pairs of successors and weights, and the seed. -/
def toJson (single : Float32 → Json) (p : WeightedProduction) : Json :=
  .object (fieldNames.zip [
    .ofChar p.symbol,
    .array (p.alternatives.map fun a => .array [.text a.1, single a.2]),
    .ofNat p.seed.toNat])

/-- A pair of a successor and its weight. -/
def alternative? : Json → Option (String × Float32)
  | .array [successor, weight] => return (← successor.text?, ← weight.single?)
  | _ => none

/-- The symbol is a text of one character, and the seed has to fit into 64 bits. -/
def ofJson? (j : Json) : Option WeightedProduction :=
  match j.fields? fieldNames with
  | some [symbol, alternatives, seed] =>
    return ⟨← symbol.char?, ← alternatives.list? alternative?, ← seed.word64?⟩
  | _ => none

end WeightedProduction

end BranchingTubes
