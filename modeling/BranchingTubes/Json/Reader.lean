import BranchingTubes.Json.Value

/-!
# Reading JSON text

`Json.read?` reads a text that holds one JSON value and nothing else but blanks.  A
later field of an object takes the place of an earlier one of the same name.  The
readers take a word of characters and return a value with the characters after it; the
nesting is bounded by a number that `read?` takes from the length of the text, of which
every level uses up at most two.
-/

set_option autoImplicit false

namespace BranchingTubes

namespace Json

/-- Whether a character may stand between the parts of a text. -/
def isBlank (c : Char) : Bool := c = ' ' || c = '\n' || c = '\r' || c = '\t'

/-- The characters from the first one on that is not blank. -/
def skipBlanks (cs : List Char) : List Char := cs.dropWhile isBlank

/-- The value of a hexadecimal digit of either case. -/
def hexDigit? (c : Char) : Option Nat :=
  if '0' ≤ c ∧ c ≤ '9' then some (c.toNat - '0'.toNat)
  else if 'a' ≤ c ∧ c ≤ 'f' then some (c.toNat - 'a'.toNat + 10)
  else if 'A' ≤ c ∧ c ≤ 'F' then some (c.toNat - 'A'.toNat + 10)
  else none

/-- The number that hexadecimal digits spell, the first one weighing most. -/
def hex? (digits : List Char) : Option Nat :=
  digits.foldl (fun sum c => return 16 * (← sum) + (← hexDigit? c)) (some 0)

/-- The character of a short escape. -/
def escaped? : Char → Option Char
  | '"' => some '"'
  | '\\' => some '\\'
  | '/' => some '/'
  | 'b' => some '\x08'
  | 'f' => some '\x0c'
  | 'n' => some '\n'
  | 'r' => some '\r'
  | 't' => some '\t'
  | _ => none

/-- The character of a pair of 16-bit units, the first of which is a high surrogate. -/
def surrogatePair? (high low : Nat) : Option Char :=
  if 0xdc00 ≤ low ∧ low < 0xe000 then
    some (Char.ofNat (0x10000 + (high - 0xd800) * 0x400 + (low - 0xdc00)))
  else none

/-- The characters up to the closing quote, and what follows it. -/
def readText : List Char → Option (List Char × List Char)
  | '"' :: rest => some ([], rest)
  | '\\' :: 'u' :: a :: b :: c :: d :: rest =>
    match hex? [a, b, c, d] with
    | none => none
    | some unit =>
      if 0xd800 ≤ unit ∧ unit < 0xdc00 then
        match rest with
        | '\\' :: 'u' :: e :: f :: g :: h :: rest =>
          match hex? [e, f, g, h] with
          | none => none
          | some low =>
            match surrogatePair? unit low, readText rest with
            | some c, some (cs, after) => some (c :: cs, after)
            | _, _ => none
        | _ => none
      else if 0xdc00 ≤ unit ∧ unit < 0xe000 then none
      else (readText rest).map fun (cs, after) => (Char.ofNat unit :: cs, after)
  | '\\' :: e :: rest =>
    match escaped? e, readText rest with
    | some c, some (cs, after) => some (c :: cs, after)
    | _, _ => none
  | c :: rest =>
    if c.toNat < 0x20 ∨ c = '\\' then none
    else (readText rest).map fun (cs, after) => (c :: cs, after)
  | [] => none

/-- The number that decimal digits spell, the first one weighing most. -/
def digitsValue (digits : List Char) : Nat :=
  digits.foldl (fun sum c => 10 * sum + (c.toNat - '0'.toNat)) 0

/-- The digits at the start of a word, and what follows them. -/
def spanDigits (cs : List Char) : List Char × List Char :=
  (cs.takeWhile Char.isDigit, cs.dropWhile Char.isDigit)

/-- The digits after a decimal point, if there is one. -/
def readFraction : List Char → Option (Option (List Char) × List Char)
  | '.' :: rest =>
    match spanDigits rest with
    | ([], _) => none
    | (digits, after) => some (some digits, after)
  | cs => some (none, cs)

/-- The exponent, if there is one. -/
def readExponent : List Char → Option (Option Int × List Char)
  | mark :: rest =>
    if mark = 'e' ∨ mark = 'E' then
      let (negative, rest) :=
        match rest with
        | '-' :: rest => (true, rest)
        | '+' :: rest => (false, rest)
        | rest => (false, rest)
      match spanDigits rest with
      | ([], _) => none
      | (digits, after) =>
        let size : Int := digitsValue digits
        some (some (if negative then -size else size), after)
    else some (none, mark :: rest)
  | [] => some (none, [])

/-- A number without its sign.  An integer of negative sign and value zero is the
decimal negative zero. -/
def readMagnitude (negative : Bool) (cs : List Char) : Option (Json × List Char) :=
  let (whole, rest) := spanDigits cs
  if whole = [] ∨ (whole.head? = some '0' ∧ whole ≠ ['0']) then none
  else
    match readFraction rest with
    | none => none
    | some (fraction, rest) =>
      match readExponent rest with
      | none => none
      | some (exponent, rest) =>
        let digits := digitsValue (whole ++ fraction.getD [])
        if fraction.isNone ∧ exponent.isNone ∧ ¬(negative ∧ digits = 0) then
          some (.integer (if negative then -digits else digits), rest)
        else
          let places : Int := (fraction.getD []).length
          some (.decimal ⟨negative, digits, exponent.getD 0 - places⟩, rest)

/-- Reads a number with its sign. -/
def readNumber : List Char → Option (Json × List Char)
  | '-' :: rest => readMagnitude true rest
  | cs => readMagnitude false cs

mutual

/-- A value, blanks before it being skipped. -/
def readValue : Nat → List Char → Option (Json × List Char)
  | 0, _ => none
  | depth + 1, cs =>
    match skipBlanks cs with
    | 'n' :: 'u' :: 'l' :: 'l' :: rest => some (.null, rest)
    | 't' :: 'r' :: 'u' :: 'e' :: rest => some (.bool true, rest)
    | 'f' :: 'a' :: 'l' :: 's' :: 'e' :: rest => some (.bool false, rest)
    | '"' :: rest => (readText rest).map fun (cs, rest) => (.text (String.ofList cs), rest)
    | '[' :: rest =>
      match skipBlanks rest with
      | ']' :: rest => some (.array [], rest)
      | rest => (readItems depth rest).map fun (items, rest) => (.array items, rest)
    | '\x7b' :: rest =>
      match skipBlanks rest with
      | '\x7d' :: rest => some (.object [], rest)
      | rest => (readFields depth [] rest).map fun (fields, rest) => (.object fields, rest)
    | rest => readNumber rest

/-- The items of an array up to its end. -/
def readItems : Nat → List Char → Option (List Json × List Char)
  | 0, _ => none
  | depth + 1, cs =>
    match readValue depth cs with
    | none => none
    | some (item, rest) =>
      match skipBlanks rest with
      | ',' :: rest => (readItems depth rest).map fun (items, rest) => (item :: items, rest)
      | ']' :: rest => some ([item], rest)
      | _ => none

/-- The fields of an object up to its end, on top of those read before. -/
def readFields :
    Nat → List (String × Json) → List Char → Option (List (String × Json) × List Char)
  | 0, _, _ => none
  | depth + 1, fields, cs =>
    match skipBlanks cs with
    | '"' :: rest =>
      match readText rest with
      | none => none
      | some (name, rest) =>
        match skipBlanks rest with
        | ':' :: rest =>
          match readValue depth rest with
          | none => none
          | some (value, rest) =>
            let fields := putField (String.ofList name) value fields
            match skipBlanks rest with
            | ',' :: rest => readFields depth fields rest
            | '\x7d' :: rest => some (fields, rest)
            | _ => none
        | _ => none
    | _ => none

end

/-- The value that a text holds. -/
def read? (text : String) : Option Json :=
  let cs := text.toList
  match readValue (2 * cs.length + 2) cs with
  | some (value, rest) => if skipBlanks rest = [] then some value else none
  | none => none

end Json

end BranchingTubes
