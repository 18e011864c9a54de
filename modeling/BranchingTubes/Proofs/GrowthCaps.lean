import BranchingTubes.Proofs.Generations
import Mathlib

/-!
# What the cap on growth counts

Growth with a cap stops at the first generation that is too long, and the error says that it
exceeded so many symbols.  Everywhere else a symbol is a character, but the cap is compared with the
size of the word in bytes, and the error reports this size.  The two numbers agree for words of
single-byte symbols and for no others (`Grammar.growWithin_counts_bytes`), so the message is right
for grammars that never leave these symbols (`Grammar.growWithin_counts_symbols`), and wrong, for
example, for a word of one symbol with an accent (`Grammar.growWithin_counts_accents_twice`).
-/

set_option autoImplicit false

namespace BranchingTubes

/-! ## Symbols and bytes -/

/-- Every symbol of a word takes up one byte. -/
def SingleByte (word : String) : Prop := ∀ c ∈ word.toList, c.utf8Size = 1

instance (word : String) : Decidable (SingleByte word) :=
  inferInstanceAs (Decidable (∀ c ∈ _, _))

/-- The length of a string in bytes is that of its characters together. -/
theorem utf8Len_toList (word : String) : String.utf8Len word.toList = word.utf8ByteSize := by
  rw [← String.utf8ByteSize_ofList, String.ofList_toList]

/-- Every character takes at least one byte. -/
theorem length_le_utf8Len (cs : List Char) : cs.length ≤ String.utf8Len cs := by
  induction cs with
  | nil => exact le_rfl
  | cons c cs ih =>
    have hpos := c.utf8Size_pos
    rw [List.length_cons, String.utf8Len_cons]
    omega

/-- No character takes more than four bytes. -/
theorem utf8Len_le (cs : List Char) : String.utf8Len cs ≤ 4 * cs.length := by
  induction cs with
  | nil => exact le_rfl
  | cons c cs ih =>
    have hle := c.utf8Size_le_four
    rw [List.length_cons, String.utf8Len_cons]
    omega

/-- There are as many bytes as characters if each character takes one byte, and only then. -/
theorem utf8Len_eq_length_iff (cs : List Char) :
    String.utf8Len cs = cs.length ↔ ∀ c ∈ cs, c.utf8Size = 1 := by
  induction cs with
  | nil => simp
  | cons c cs ih =>
    have hpos := c.utf8Size_pos
    have hle := length_le_utf8Len cs
    rw [List.forall_mem_cons, ← ih, List.length_cons, String.utf8Len_cons]
    omega

/-- A string has as many bytes as characters if it is of single bytes, and only then. -/
theorem utf8ByteSize_eq_length_iff {word : String} :
    word.utf8ByteSize = word.length ↔ SingleByte word := by
  rw [← utf8Len_toList, ← String.length_toList]
  exact utf8Len_eq_length_iff word.toList

/-- A rule makes words of single-byte symbols out of such words. -/
def Rule.KeepsSingleBytes (rule : Rule) : Prop :=
  ∀ word next, SingleByte word → rule word = .ok next → SingleByte next

/-- Productions keep single bytes if they do not insert others. -/
theorem Productions.keepsSingleBytes_rule {p : Productions}
    (hp : ∀ symbol successor, p.successor? symbol = some successor → SingleByte successor) :
    p.rule.KeepsSingleBytes := by
  intro word next hword hnext
  obtain rfl := Except.ok.inj hnext
  intro c hc
  unfold apply at hc
  rw [String.toList_ofList, List.mem_flatMap] at hc
  obtain ⟨symbol, hsymbol, hexpand⟩ := hc
  unfold expand at hexpand
  split at hexpand
  next successor hsuccessor => exact hp symbol successor hsuccessor c hexpand
  next =>
    obtain rfl := List.mem_singleton.mp hexpand
    exact hword c hsymbol

/-! ## Capped growth -/

namespace Grammar

variable {g : Grammar} {grown : ℕ → String} {passes limit pass length cap : ℕ}

/-- Capped growth by a rule that always gives a word fails at the first generation that is too
long, or not at all. -/
theorem GrowsAs.growWithin_eq_error_iff (hgrown : g.GrowsAs grown) {e : GrowthError} :
    g.growWithin passes limit = .error e ↔
      ∃ i, IsLeast {j | 1 ≤ j ∧ j ≤ passes ∧ limit < (grown j).utf8ByteSize} i ∧
        e = .tooLong i (grown i).utf8ByteSize limit := by
  constructor
  · intro herror
    by_cases hsome : ∃ j, 1 ≤ j ∧ j ≤ passes ∧ limit < (grown j).utf8ByteSize
    · have hleast := Nat.isLeast_find hsome
      have hfirst := hgrown.tooLong passes limit _ hleast
      exact ⟨_, hleast, Except.error.inj (herror.symm.trans hfirst)⟩
    · push Not at hsome
      have hok := (hgrown.within passes limit).mpr hsome
      rw [herror] at hok
      cases hok
  · rintro ⟨i, hleast, rfl⟩
    exact hgrown.tooLong passes limit i hleast

/-- **The cap counts bytes.**  For every grammar whose rule always gives a word, growth that fails
reports the first generation with more bytes than the cap, its size in bytes, and the cap.  The
word has at most so many symbols and at least a quarter of them.  It has as many symbols as is
reported, and more of them than the cap, if and only if each of its symbols is a single byte. -/
theorem growWithin_counts_bytes (h : g.rule.Total)
    (herror : g.growWithin passes limit = .error (.tooLong pass length cap)) :
    ∃ word, g.grow pass = .ok word ∧ 1 ≤ pass ∧ pass ≤ passes ∧ cap = limit ∧
      length = word.utf8ByteSize ∧ limit < word.utf8ByteSize ∧
      word.length ≤ length ∧ length ≤ 4 * word.length ∧
      (limit < word.length ∧ length = word.length ↔ SingleByte word) := by
  obtain ⟨grown, hgrown⟩ := exists_growsAs h
  obtain ⟨i, ⟨⟨hfirst, hlast, hlong⟩, -⟩, hreport⟩ := hgrown.growWithin_eq_error_iff.mp herror
  obtain ⟨rfl, rfl, rfl⟩ := GrowthError.tooLong.inj hreport
  refine ⟨grown pass, hgrown.grow pass, hfirst, hlast, rfl, rfl, hlong, ?_, ?_, ?_⟩
  · rw [← utf8Len_toList, ← String.length_toList]
    exact length_le_utf8Len _
  · rw [← utf8Len_toList, ← String.length_toList]
    exact utf8Len_le _
  · rw [← utf8ByteSize_eq_length_iff]
    omega

/-- Three symbols are more than five bytes. -/
theorem growWithin_counts_bytes_of_accents :
    let g : Grammar := ⟨"AAA", (Productions.ofList [('A', "é")]).rule, .standard⟩
    g.rule.Total ∧ g.growWithin 2 5 = .error (.tooLong 1 6 5) ∧
      ∃ word, g.grow 1 = .ok word ∧ 5 < word.utf8ByteSize ∧ word.length ≤ 6 ∧ 6 ≤ 4 * word.length ∧
        (5 < word.length ∧ 6 = word.length ↔ SingleByte word) := by
  intro g
  have htotal : g.rule.Total := Productions.total_rule _
  have herror : g.growWithin 2 5 = .error (.tooLong 1 6 5) := by decide +kernel
  obtain ⟨word, hword, -, -, -, -, hlong, hatmost, hatleast, hsymbols⟩ :=
    growWithin_counts_bytes htotal herror
  exact ⟨htotal, herror, word, hword, hlong, hatmost, hatleast, hsymbols⟩

/-- One symbol is more than one symbol. -/
theorem growWithin_counts_accents_twice :
    let g : Grammar := ⟨"A", (Productions.ofList [('A', "é")]).rule, .standard⟩
    g.rule.Total ∧ g.growWithin 1 1 = .error (.tooLong 1 2 1) ∧
      (GrowthError.tooLong 1 2 1).message? =
        some "growth exceeded 1 symbols at iteration 1 (length 2)" ∧
      g.grow 1 = .ok "é" ∧ ¬ (1 < "é".length) ∧ 2 ≠ "é".length := by
  intro g
  refine ⟨Productions.total_rule _, ?_, rfl, ?_, ?_, ?_⟩
  · decide +kernel
  · decide +kernel
  · decide +kernel
  · decide +kernel

/-- A rule that keeps single bytes grows words of single bytes from a start that is one. -/
theorem GrowsAs.singleByte (hgrown : g.GrowsAs grown) (hstart : SingleByte g.start)
    (hrule : g.rule.KeepsSingleBytes) (i : ℕ) : SingleByte (grown i) := by
  induction i with
  | zero => rwa [hgrown.start]
  | succ i ih => exact hrule _ _ ih (hgrown.pass i)

/-- For a grammar in single-byte symbols the error is right about their number. -/
theorem growWithin_counts_symbols (h : g.rule.Total) (hstart : SingleByte g.start)
    (hrule : g.rule.KeepsSingleBytes)
    (herror : g.growWithin passes limit = .error (.tooLong pass length cap)) :
    ∃ word, g.grow pass = .ok word ∧ cap < word.length ∧ length = word.length := by
  obtain ⟨grown, hgrown⟩ := exists_growsAs h
  obtain ⟨i, ⟨⟨-, -, hlong⟩, -⟩, hreport⟩ := hgrown.growWithin_eq_error_iff.mp herror
  obtain ⟨rfl, rfl, rfl⟩ := GrowthError.tooLong.inj hreport
  have hsize := utf8ByteSize_eq_length_iff.mpr (hgrown.singleByte hstart hrule pass)
  refine ⟨grown pass, hgrown.grow pass, ?_, hsize⟩
  rwa [← hsize]

end Grammar

end BranchingTubes
