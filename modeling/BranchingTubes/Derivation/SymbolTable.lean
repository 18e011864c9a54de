/-!
# Names and their numbers

A symbol table gives every name it has met a 16-bit number, counting from zero in the
order of first meeting.  It refuses new names when the numbers are used up or when the
names together would need more bytes than its budget.
-/

set_option autoImplicit false

namespace BranchingTubes

/-- Why a name was not numbered. -/
inductive SymbolTableError where
  | numbersUsedUp
  /-- The names would need more bytes than the budget. -/
  | budgetUsedUp
  deriving DecidableEq

/-- The text of the error. -/
def SymbolTableError.message : SymbolTableError → String
  | numbersUsedUp => "ID overflow"
  | budgetUsedUp => "Interner heap overflow"

/-- How many names a table can number. -/
def maxNames : Nat := 65535

/-- A table of numbered names. -/
structure SymbolTable where
  names : List String
  /-- How many bytes the names may take together. -/
  byteBudget : Nat
  /-- No name has two numbers. -/
  nodup : names.Nodup
  /-- Every number fits into 16 bits. -/
  fits : names.length ≤ maxNames

namespace SymbolTable

/-- A table without names, with a budget of bytes for them. -/
def empty (byteBudget : Nat) : SymbolTable := ⟨[], byteBudget, List.nodup_nil, Nat.zero_le _⟩

/-- The bytes that the names take together. -/
def bytes (t : SymbolTable) : Nat := t.names.foldl (fun sum name => sum + name.utf8ByteSize) 0

/-- The number of a name. -/
def resolve? (t : SymbolTable) (name : String) : Option UInt16 :=
  if name ∈ t.names then some (UInt16.ofNat (t.names.idxOf name)) else none

/-- The table with a name in it, and the number of the name. -/
def intern (t : SymbolTable) (name : String) : Except SymbolTableError (SymbolTable × UInt16) :=
  if known : name ∈ t.names then .ok (t, UInt16.ofNat (t.names.idxOf name))
  else if room : t.names.length < maxNames then
    if t.byteBudget < t.bytes + name.utf8ByteSize then .error .budgetUsedUp
    else
      let names := t.names ++ [name]
      have nodup : names.Nodup :=
        List.nodup_append.2 ⟨t.nodup, List.pairwise_singleton .., fun a ha b hb same =>
          known (List.mem_singleton.1 hb ▸ same ▸ ha)⟩
      have fits : names.length ≤ maxNames := by
        simpa only [names, List.length_append, List.length_singleton] using Nat.succ_le_of_lt room
      .ok (⟨names, t.byteBudget, nodup, fits⟩, UInt16.ofNat t.names.length)
  else .error .numbersUsedUp

end SymbolTable

end BranchingTubes
