import BranchingTubes.Proofs.MachineSteps
import Mathlib

/-!
# Words spelled with numbered symbols

A word can be interpreted by its characters, or be spelled as a derivation whose modules
carry the numbers that a symbol table gives to the names of the characters.  Both ways give
the same mesh or the same error, in whatever order the names came into the table and
whatever other names it has (`meshOfModules_of_spells`).

Two facts make the two dispatches agree.  A command map is a function that `set` changes at
one number (`get_set`), so registering the alphabet gives each number that stands for a
symbol of the alphabet the command of that symbol (`get_addAlphabet`).  And a number stands
for one name only (`resolve?_inj`).
-/

set_option autoImplicit false

namespace BranchingTubes

/-- Different names have different numbers. -/
theorem SymbolTable.resolve?_inj {t : SymbolTable} {name name' : String} {number : UInt16}
    (h : t.resolve? name = some number) (h' : t.resolve? name' = some number) : name = name' := by
  unfold resolve? at h h'
  split at h
  next hmem =>
    split at h'
    next hmem' =>
      have hsame : UInt16.ofNat (t.names.idxOf name) = UInt16.ofNat (t.names.idxOf name') :=
        (Option.some.inj h).trans (Option.some.inj h').symm
      have hfits (other : String) (hother : other ∈ t.names) :
          (UInt16.ofNat (t.names.idxOf other)).toNat = t.names.idxOf other := by
        have hlt := List.idxOf_lt_length_of_mem hother
        have hmax : t.names.length ≤ 65535 := t.fits
        apply UInt16.toNat_ofNat_of_lt'
        show t.names.idxOf other < 65536
        omega
      rw [← UInt16.toNat_inj, hfits name hmem, hfits name' hmem'] at hsame
      exact (List.idxOf_inj hmem).mp hsame
    next => simp at h'
  next => simp at h

/-- No symbol of the alphabet has two commands. -/
theorem Command.nodup_alphabet : (alphabet.map Prod.fst).Nodup := by decide

/-! ## The command map as a function -/

namespace CommandMap

/-- Setting the command of a number leaves every other number as it is, also those that the
array has to grow over. -/
theorem get_set (m : CommandMap) (number : UInt16) (command : Command) (k : UInt16) :
    (m.set number command).get k = if k = number then command else m.get k := by
  unfold get set
  have hsize : number.toNat < (m.commands ++
      Array.replicate (number.toNat + 1 - m.commands.size) Command.ignore).size := by
    rw [Array.size_append, Array.size_replicate]
    omega
  simp only [Array.getD_eq_getD_getElem?]
  split
  next hk =>
    rw [hk, Array.getElem?_setIfInBounds_self, if_pos hsize]
    rfl
  next hk =>
    have hne : number.toNat ≠ k.toNat := fun h => hk (UInt16.toNat_inj.mp h.symm)
    rw [Array.getElem?_setIfInBounds_ne hne, Array.getElem?_append]
    split
    next => rfl
    next hbeyond =>
      -- Beyond the old array stands the filler, which is the default.
      rw [Array.getElem?_replicate, Array.getElem?_eq_none (not_lt.mp hbeyond)]
      split <;> rfl

/-- Gives the number of a symbol a command, if the table knows the symbol. -/
def addSymbol (t : SymbolTable) (m : CommandMap) (entry : Char × Command) : CommandMap :=
  match t.resolve? (String.singleton entry.1) with
  | some number => m.set number entry.2
  | none => m

/-- Adding a symbol gives its command to its number, if it has one, and changes no other. -/
theorem get_addSymbol (t : SymbolTable) (m : CommandMap) (entry : Char × Command)
    (number : UInt16) :
    (m.addSymbol t entry).get number =
      if t.resolve? (String.singleton entry.1) = some number then entry.2 else m.get number := by
  unfold addSymbol
  cases hresolve : t.resolve? (String.singleton entry.1) with
  | none => simp
  | some known =>
    rw [get_set]
    by_cases hknown : number = known
    · rw [if_pos hknown, if_pos (by rw [hknown])]
    · rw [if_neg hknown, if_neg (by simpa using Ne.symm hknown)]

/-- The entry of a list whose symbol has a given number. -/
def entryOf? (t : SymbolTable) (entries : List (Char × Command)) (number : UInt16) :
    Option (Char × Command) :=
  entries.find? fun entry => t.resolve? (String.singleton entry.1) = some number

/-- A number stands for one symbol at most, so the entry that is found for it is the only one. -/
theorem entryOf?_eq_some_iff {t : SymbolTable} {entries : List (Char × Command)}
    (h : (entries.map Prod.fst).Nodup) {number : UInt16} {entry : Char × Command} :
    entryOf? t entries number = some entry ↔
      entry ∈ entries ∧ t.resolve? (String.singleton entry.1) = some number := by
  unfold entryOf?
  constructor
  · intro hfound
    exact ⟨List.mem_of_find?_eq_some hfound, by simpa using List.find?_some hfound⟩
  · rintro ⟨hentry, hnumber⟩
    have hsome : (entries.find? fun other =>
        t.resolve? (String.singleton other.1) = some number).isSome :=
      List.find?_isSome.mpr ⟨entry, hentry, decide_eq_true hnumber⟩
    obtain ⟨found, hfound⟩ := Option.isSome_iff_exists.mp hsome
    have hother : t.resolve? (String.singleton found.1) = some number := by
      simpa using List.find?_some hfound
    have hsymbol : found.1 = entry.1 := String.singleton_inj.mp (t.resolve?_inj hother hnumber)
    rw [hfound, List.inj_on_of_nodup_map h (List.mem_of_find?_eq_some hfound) hentry hsymbol]

/-- Adding symbols gives each number the command of its own symbol, if it has one. -/
theorem get_foldl_addSymbol (t : SymbolTable) {entries : List (Char × Command)}
    (h : (entries.map Prod.fst).Nodup) (m : CommandMap) (number : UInt16) :
    (entries.foldl (addSymbol t) m).get number =
      ((entryOf? t entries number).map Prod.snd).getD (m.get number) := by
  induction entries generalizing m with
  | nil => rfl
  | cons entry rest ih =>
    obtain ⟨hnew, hrest⟩ := List.nodup_cons.mp h
    rw [List.foldl_cons, ih hrest, get_addSymbol]
    unfold entryOf?
    by_cases hentry : t.resolve? (String.singleton entry.1) = some number
    · -- No later entry has this number, since it would have the same symbol.
      have hnone : rest.find? (fun later =>
          t.resolve? (String.singleton later.1) = some number) = none := by
        rw [List.find?_eq_none]
        intro later hlater hresolve
        have hname := t.resolve?_inj (of_decide_eq_true hresolve) hentry
        apply hnew
        rw [← String.singleton_inj.mp hname]
        exact List.mem_map_of_mem hlater
      rw [List.find?_cons_of_pos (by simpa using hentry), hnone, if_pos hentry]
      rfl
    · rw [List.find?_cons_of_neg (by simpa using hentry), if_neg hentry]

/-- Adding the alphabet gives each number the command of its own symbol, if it has one. -/
theorem get_addAlphabet (m : CommandMap) (t : SymbolTable) (number : UInt16) :
    (m.addAlphabet t).get number =
      ((entryOf? t Command.alphabet number).map Prod.snd).getD (m.get number) :=
  get_foldl_addSymbol t Command.nodup_alphabet m number

end CommandMap

/-! ## Both dispatches agree -/

/-- Reading a symbol is looking it up in the alphabet. -/
theorem Command.ofSymbol_eq_find? (c : Char) :
    ofSymbol c = ((alphabet.find? fun entry => entry.1 = c).map Prod.snd).getD .ignore := by
  unfold ofSymbol
  split <;> simp_all [alphabet, List.find?, eq_comm]

/-- The number of a character has the command of that character. -/
theorem CommandMap.get_number {t : SymbolTable} {c : Char} {number : UInt16}
    (h : t.resolve? (String.singleton c) = some number) :
    (empty.addAlphabet t).get number = Command.ofSymbol c := by
  have hsame : entryOf? t Command.alphabet number =
      Command.alphabet.find? fun entry => entry.1 = c := by
    unfold entryOf?
    congr 1
    funext entry
    rw [decide_eq_decide]
    constructor
    · intro hentry
      exact String.singleton_inj.mp (t.resolve?_inj hentry h)
    · rintro rfl
      exact h
  rw [get_addAlphabet, hsame, Command.ofSymbol_eq_find?]
  rfl

/-- A derivation spells a word: it has one module for each character, in order, with the
number that the table gives to the name of that character, and without parameters. -/
def Derivation.Spells (d : Derivation) (t : SymbolTable) (word : String) : Prop :=
  List.Forall₂
    (fun c m => t.resolve? (String.singleton c) = some m.symbol ∧ m.parameters = [])
    word.toList d.modules.toList

instance (d : Derivation) (t : SymbolTable) (word : String) : Decidable (d.Spells t word) :=
  inferInstanceAs (Decidable (List.Forall₂ _ _ _))

namespace Setup

/-- Modules that spell a word have the instructions of its symbols. -/
theorem map_instruction_eq {t : SymbolTable} {cs : List Char} {ms : List SymbolModule}
    (h : List.Forall₂
      (fun c m => t.resolve? (String.singleton c) = some m.symbol ∧ m.parameters = []) cs ms) :
    ms.map (SymbolModule.instruction (CommandMap.empty.addAlphabet t)) =
      cs.map symbolInstruction := by
  induction h with
  | nil => rfl
  | cons hfirst _ ih =>
    obtain ⟨hsymbol, hparameters⟩ := hfirst
    rw [List.map_cons, List.map_cons, ih, SymbolModule.instruction,
      CommandMap.get_number hsymbol, hparameters]
    rfl

/-- Modules that spell a word are interpreted as the word is. -/
theorem interpretModules_of_spells {t : SymbolTable} {word : String} {d : Derivation}
    (h : d.Spells t word) (s : Setup) :
    s.interpretModules (CommandMap.empty.addAlphabet t) d = s.interpretText word := by
  rw [interpretModules, map_instruction_eq h, interpretText]

/-- **Modules and characters agree.**  Interpreting a derivation that spells a word, through
the map in which the alphabet is registered, gives the mesh or the error of the word. -/
theorem meshOfModules_of_spells {t : SymbolTable} {word : String} {d : Derivation}
    (h : d.Spells t word) (s : Setup) :
    s.meshOfModules (CommandMap.empty.addAlphabet t) d = s.meshOfText word := by
  rw [meshOfModules, interpretModules_of_spells h, meshOfText]

/-- A table without most of the alphabet, with names of several characters, and with a
symbol that means nothing numbered between the brackets.  One word is drawn and the other
closes a branch that is not open. -/
theorem meshOfModules_of_spells_sparse :
    let t : SymbolTable := ⟨["]", "x", "leaf", "F", "+", "[", "é"], 64, by decide, by decide⟩
    let d (symbols : List UInt16) : Derivation := ⟨(symbols.map (⟨·, 0.5, []⟩)).toArray, 9⟩
    (d [3, 5, 4, 6, 3, 0, 1, 3]).Spells t "F[+éF]xF" ∧
      (standard.meshOfModules (CommandMap.empty.addAlphabet t) (d [3, 5, 4, 6, 3, 0, 1, 3]) =
        standard.meshOfText "F[+éF]xF") ∧
      (standard.meshOfText "F[+éF]xF").isOk ∧
      (d [6, 0]).Spells t "é]" ∧
      standard.meshOfModules (CommandMap.empty.addAlphabet t) (d [6, 0]) =
        .error (.nothingToClose 1) := by
  intro t d
  have hdrawn : (d [3, 5, 4, 6, 3, 0, 1, 3]).Spells t "F[+éF]xF" := by decide +kernel
  have hclosed : (d [6, 0]).Spells t "é]" := by decide +kernel
  refine ⟨hdrawn, meshOfModules_of_spells hdrawn standard, by decide +kernel, hclosed, ?_⟩
  rw [meshOfModules_of_spells hclosed standard]
  decide +kernel

end Setup

end BranchingTubes
