import BranchingTubes.Number.Decimal

/-!
# JSON values

A number is an integer or a decimal, according to how it is written, because only the
first kind is accepted where an integer is asked for; a decimal keeps the sign of zero.
An object is a list of named values.

The rest of the module reads parts of a value: numbers, words, characters, lists, and
the fields of a record.  A record is written as an object that has all its fields, in
any order and possibly among others, or as an array of exactly its fields in their
order.
-/

set_option autoImplicit false

namespace BranchingTubes

/-- A JSON value. -/
inductive Json where
  | null
  | bool (value : Bool)
  /-- A number written without a point and without an exponent. -/
  | integer (value : Int)
  /-- Any other number. -/
  | decimal (value : Decimal)
  | text (value : String)
  | array (items : List Json)
  | object (fields : List (String × Json))

namespace Json

instance : Inhabited Json := ⟨.null⟩

/-- The values of the named fields, in the order of the names. -/
def fields? (names : List String) : Json → Option (List Json)
  | .object fields => names.mapM fun name => fields.lookup name
  | .array items => if items.length = names.length then some items else none
  | _ => none

/-- A list, each item read on its own. -/
def list? {α : Type} (item : Json → Option α) : Json → Option (List α)
  | .array items => items.mapM item
  | _ => none

/-- The value of a text. -/
def text? : Json → Option String
  | .text value => some value
  | _ => none

/-- A text of exactly one character. -/
def char? : Json → Option Char
  | .text value =>
    match value.toList with
    | [c] => some c
    | _ => none
  | _ => none

/-- A natural number below a bound, written as an integer. -/
def natBelow? (bound : Nat) : Json → Option Nat
  | .integer value => if 0 ≤ value ∧ value < bound then some value.toNat else none
  | _ => none

/-- A whole number that fits into 32 bits. -/
def word32? (j : Json) : Option UInt32 := (j.natBelow? UInt32.size).map UInt32.ofNat

/-- A whole number that fits into 64 bits. -/
def word64? (j : Json) : Option UInt64 := (j.natBelow? UInt64.size).map UInt64.ofNat

/-- A single-precision number.  An integer of at most 64 bits is rounded once; every
other number is first rounded to double precision. -/
def single? : Json → Option Float32
  | .integer value =>
    if Int64.minValue.toInt ≤ value ∧ value < UInt64.size then
      some (Decimal.ofInt value).toSingle
    else some (narrow (Decimal.ofInt value).toDouble)
  | .decimal value => some (narrow value.toDouble)
  | _ => none

/-- A finite single as the decimal equal to it, any other as null. -/
def ofSingle (x : Float32) : Json :=
  match Decimal.ofSingle? x with
  | some d => .decimal d
  | none => .null

/-- A text of one character. -/
def ofChar (c : Char) : Json := .text (String.singleton c)

/-- A natural number. -/
def ofNat (n : Nat) : Json := .integer n

/-- The fields with one value put under a name, in the place of an earlier one. -/
def putField (name : String) (value : Json) : List (String × Json) → List (String × Json)
  | [] => [(name, value)]
  | field :: rest =>
    if field.1 = name then (name, value) :: rest else field :: putField name value rest

end Json

end BranchingTubes
