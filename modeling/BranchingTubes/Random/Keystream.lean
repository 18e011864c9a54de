/-!
# A seeded stream of random words

The words come from a block cipher in counter mode: the ChaCha permutation with twelve
rounds, under a key derived from a 64-bit seed.  The stream is a function of the index
(`Keystream.word`), so there is no generator to advance: word `i` is word `i % 16` of
block `i / 16`.
-/

set_option autoImplicit false

namespace BranchingTubes

/-- A word rotated towards its high end; the amount counts modulo 32. -/
def rotateLeft (x amount : UInt32) : UInt32 := (x <<< amount) ||| (x >>> (32 - amount))

/-- A word rotated towards its low end; the amount counts modulo 32. -/
def rotateRight (x amount : UInt32) : UInt32 := (x >>> amount) ||| (x <<< (32 - amount))

/-- Four rows of four words, row after row. -/
abbrev CipherState := Vector UInt32 16

namespace CipherState

/-- One quarter round on the words at four places. -/
def quarterRound (s : CipherState) (a b c d : Fin 16) : CipherState :=
  let wa := s[a] + s[b]
  let wd := rotateLeft (s[d] ^^^ wa) 16
  let wc := s[c] + wd
  let wb := rotateLeft (s[b] ^^^ wc) 12
  let wa := wa + wb
  let wd := rotateLeft (wd ^^^ wa) 8
  let wc := wc + wd
  let wb := rotateLeft (wb ^^^ wc) 7
  (((s.set a wa).set b wb).set c wc).set d wd

/-- A round on the columns, then a round on the diagonals. -/
def doubleRound (s : CipherState) : CipherState :=
  let columns :=
    (((s.quarterRound 0 4 8 12).quarterRound 1 5 9 13).quarterRound 2 6 10 14).quarterRound
      3 7 11 15
  (((columns.quarterRound 0 5 10 15).quarterRound 1 6 11 12).quarterRound 2 7 8 13).quarterRound
    3 4 9 14

/-- Twelve rounds, and the words before them added to the words after them. -/
def scramble (s : CipherState) : CipherState :=
  Vector.zipWith (· + ·) (Nat.repeat doubleRound 6 s) s

end CipherState

/-- The key of a stream of random words. -/
structure Keystream where
  key : Vector UInt32 8
  deriving DecidableEq

namespace Keystream

/-- One step of the linear congruence that spreads a seed. -/
def spread (state : UInt64) : UInt64 := state * 6364136223846793005 + 11634580027462260723

/-- The key word taken from a state of the congruence: its high bits, mixed and then
rotated by the highest five. -/
def keyWord (state : UInt64) : UInt32 :=
  rotateRight (((state >>> 18) ^^^ state) >>> 27).toUInt32 (state >>> 59).toUInt32

/-- The stream of a seed; its eight key words come from the eight states after the
seed. -/
def ofSeed (seed : UInt64) : Keystream :=
  ⟨Vector.ofFn fun i => keyWord (Nat.repeat spread (i.val + 1) seed)⟩

/-- The first row of every cipher state. -/
def firstRow : Vector UInt32 4 := #v[0x61707865, 0x3320646e, 0x79622d32, 0x6b206574]

/-- The last row: the block counter, its low half first, and two zeros. -/
def lastRow (counter : UInt64) : Vector UInt32 4 :=
  #v[counter.toUInt32, (counter >>> 32).toUInt32, 0, 0]

/-- The block of a number: sixteen words, scrambled from the key and the number. -/
def block (k : Keystream) (n : Nat) : CipherState :=
  CipherState.scramble (firstRow ++ k.key ++ lastRow (UInt64.ofNat n))

/-- The word of a number in the stream of blocks. -/
def word (k : Keystream) (i : Nat) : UInt32 :=
  (k.block (i / 16)).get ⟨i % 16, Nat.mod_lt i (by decide)⟩

end Keystream

end BranchingTubes
