import BranchingTubes.Json.Value

/-!
# Writing JSON text

`Json.write` writes a value without blanks.  Characters other than the quote, the
backslash and the control characters stand for themselves.  A decimal is written as its
digits and its power of ten, so that it reads back as a decimal.
-/

set_option autoImplicit false

namespace BranchingTubes

namespace Json

/-- How a character is written inside quotes. -/
def escape (c : Char) : List Char :=
  if c = '"' ∨ c = '\\' then ['\\', c]
  else if c = '\n' then ['\\', 'n']
  else if c = '\r' then ['\\', 'r']
  else if c = '\t' then ['\\', 't']
  else if c.toNat < 0x20 then
    ['\\', 'u', '0', '0', Nat.digitChar (c.toNat / 16), Nat.digitChar (c.toNat % 16)]
  else [c]

/-- A text in quotes. -/
def quoted (s : String) : List Char := '"' :: s.toList.flatMap escape ++ ['"']

/-- The digits and the power of ten of a decimal. -/
def decimalText (d : Decimal) : List Char :=
  (if d.negative then ['-'] else []) ++ Nat.toDigits 10 d.digits ++
    'e' :: (toString d.exponent).toList

mutual

/-- The characters of a value. -/
def chars : Json → List Char
  | .null => "null".toList
  | .bool true => "true".toList
  | .bool false => "false".toList
  | .integer value => (toString value).toList
  | .decimal value => decimalText value
  | .text value => quoted value
  | .array items => '[' :: itemChars items ++ [']']
  | .object fields => '\x7b' :: fieldChars fields ++ ['\x7d']

/-- The characters of the items of an array, divided by commas. -/
def itemChars : List Json → List Char
  | [] => []
  | [item] => chars item
  | item :: rest => chars item ++ ',' :: itemChars rest

/-- The characters of the fields of an object, divided by commas. -/
def fieldChars : List (String × Json) → List Char
  | [] => []
  | [(name, value)] => quoted name ++ ':' :: chars value
  | (name, value) :: rest => quoted name ++ ':' :: chars value ++ ',' :: fieldChars rest

end

/-- The text of a value. -/
def write (j : Json) : String := String.ofList j.chars

end Json

end BranchingTubes
