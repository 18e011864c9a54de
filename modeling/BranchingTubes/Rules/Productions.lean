import BranchingTubes.Rules.Rule

/-!
# Simultaneous productions

A set of productions gives some symbols a successor word.  One pass replaces every
symbol that has a successor and keeps the others, so it is the substitution determined
by the symbols alone.  The entries are kept in ascending order of their symbols, without
repetition; sets that give every symbol the same successor are therefore equal.
-/

set_option autoImplicit false

namespace BranchingTubes

/-- The list of entries with one entry put in its place, instead of an old one for the
same symbol. -/
def putEntry (symbol : Char) (successor : String) : List (Char × String) → List (Char × String)
  | [] => [(symbol, successor)]
  | entry :: rest =>
    if symbol < entry.1 then (symbol, successor) :: entry :: rest
    else if symbol = entry.1 then (symbol, successor) :: rest
    else entry :: putEntry symbol successor rest

/-- An entry of the new list is the one put there or an old one. -/
theorem mem_putEntry {symbol : Char} {successor : String} {entries : List (Char × String)}
    {e : Char × String} (h : e ∈ putEntry symbol successor entries) :
    e = (symbol, successor) ∨ e ∈ entries := by
  induction entries with
  | nil => simpa [putEntry] using h
  | cons entry rest ih =>
    simp only [putEntry] at h
    split at h
    · simpa using h
    · split at h
      · rcases List.mem_cons.1 h with h | h
        · exact .inl h
        · exact .inr (List.mem_cons_of_mem _ h)
      · rcases List.mem_cons.1 h with h | h
        · exact .inr (h ▸ List.mem_cons_self)
        · exact (ih h).imp_right (List.mem_cons_of_mem _)

/-- Entries in strictly ascending order of their symbols. -/
def Ascending (entries : List (Char × String)) : Prop :=
  entries.Pairwise fun a b => a.1 < b.1

/-- Putting an entry in its place keeps the order. -/
theorem Ascending.putEntry {symbol : Char} {successor : String} {entries : List (Char × String)}
    (h : Ascending entries) : Ascending (putEntry symbol successor entries) := by
  induction entries with
  | nil => exact List.pairwise_singleton ..
  | cons entry rest ih =>
    obtain ⟨first, tail⟩ := List.pairwise_cons.1 h
    simp only [BranchingTubes.putEntry]
    split
    · next below =>
      refine List.pairwise_cons.2 ⟨fun e he => ?_, h⟩
      rcases List.mem_cons.1 he with rfl | he
      · exact below
      · exact Char.lt_trans below (first e he)
    · next notBelow =>
      split
      · next same => exact List.pairwise_cons.2 ⟨fun e he => same ▸ first e he, tail⟩
      · next other =>
        refine List.pairwise_cons.2 ⟨fun e he => ?_, ih tail⟩
        rcases mem_putEntry he with rfl | he
        · exact Std.lt_of_le_of_ne (Char.not_lt.1 notBelow) fun same => other same.symm
        · exact first e he

/-- Successor words for some symbols. -/
structure Productions where
  /-- The symbols that have a successor, in ascending order. -/
  entries : List (Char × String)
  /-- The order is strict, so no symbol occurs twice. -/
  ascending : Ascending entries
  deriving DecidableEq

namespace Productions

/-- The productions that leave every symbol as it is. -/
def empty : Productions := ⟨[], List.Pairwise.nil⟩

instance : Inhabited Productions := ⟨empty⟩

/-- Gives a symbol a successor, instead of an earlier one. -/
def insert (p : Productions) (symbol : Char) (successor : String) : Productions :=
  ⟨putEntry symbol successor p.entries, p.ascending.putEntry⟩

/-- The successor of a symbol, if it has one. -/
def successor? (p : Productions) (symbol : Char) : Option String := p.entries.lookup symbol

/-- How many symbols have a successor. -/
def size (p : Productions) : Nat := p.entries.length

/-- Whether no symbol has a successor. -/
def isEmpty (p : Productions) : Bool := p.entries.isEmpty

/-- What one pass makes of a symbol. -/
def expand (p : Productions) (symbol : Char) : List Char :=
  match p.successor? symbol with
  | some successor => successor.toList
  | none => [symbol]

/-- The word after one pass, all symbols at once. -/
def apply (p : Productions) (word : String) : String := String.ofList (word.toList.flatMap p.expand)

/-- Productions as a rule, which never fails. -/
def rule (p : Productions) : Rule := fun word => .ok (p.apply word)

/-- The productions of a list of symbols and successors; later ones win. -/
def ofList (productions : List (Char × String)) : Productions :=
  productions.foldl (fun p entry => p.insert entry.1 entry.2) empty

end Productions

end BranchingTubes
