import BranchingTubes.Rules.Rule

/-!
# Literal replacement

`segments` cuts a word at the leftmost non-overlapping occurrences of a pattern; putting
the pattern back between the segments gives the word, and putting another word there is
the replacement.  Inserted text is not looked at again in the same pass.
-/

set_option autoImplicit false

namespace BranchingTubes

/-- Puts a symbol in front of the first segment. -/
def extendFirst (c : Char) : List (List Char) → List (List Char)
  | [] => [[c]]
  | segment :: rest => (c :: segment) :: rest

/-- The segments of a word between the occurrences of a pattern, the first `skip`
symbols being the rest of an occurrence. -/
def segmentsFrom (pattern : List Char) : Nat → List Char → List (List Char)
  | _, [] => [[]]
  | skip + 1, _ :: rest => segmentsFrom pattern skip rest
  | 0, c :: rest =>
    if pattern.isPrefixOf (c :: rest) then [] :: segmentsFrom pattern (pattern.length - 1) rest
    else extendFirst c (segmentsFrom pattern 0 rest)

/-- The segments of a word between the occurrences of a pattern. -/
def segments (pattern word : List Char) : List (List Char) := segmentsFrom pattern 0 word

/-- A pattern and what replaces it. -/
structure Replacement where
  /-- The word looked for; the empty word is never found. -/
  pattern : String
  successor : String
  deriving DecidableEq, Inhabited

/-- The word with each occurrence of the pattern replaced, from left to right; an empty pattern
occurs nowhere. -/
def Replacement.apply (r : Replacement) (word : String) : String :=
  if r.pattern.isEmpty then word
  else String.ofList (r.successor.toList.intercalate (segments r.pattern.toList word.toList))

/-- A replacement as a rule, which never fails. -/
def Replacement.rule (r : Replacement) : Rule := fun word => .ok (r.apply word)

end BranchingTubes
