/-
A stream of 32-bit words from a 64-bit seed, always the same for the same seed.

The words are the key stream of the ChaCha cipher with twelve rounds. The seed is stretched to a
key by a linear congruential generator whose states are permuted on the way out.
-/

namespace ArithLearn

/-- The sixteen words the cipher works on. -/
abbrev Block := Vector UInt32 16

/-- The bits of a word moved up by `n` places, those that leave at the top coming back at the
bottom. -/
def rotateLeft (x n : UInt32) : UInt32 := (x <<< n) ||| (x >>> (32 - n))

namespace Block

/-- One step: `a` takes in `b`, and `d` takes in `a` and is rotated. -/
def mix (s : Block) (a b d : Fin 16) (n : UInt32) : Block :=
  let s := s.set a (s[a] + s[b])
  s.set d (rotateLeft (s[d] ^^^ s[a]) n)

/-- A quarter of a round, on four of the words. -/
def quarterRound (s : Block) (a b c d : Fin 16) : Block :=
  let s := s.mix a b d 16
  let s := s.mix c d b 12
  let s := s.mix a b d 8
  s.mix c d b 7

/-- Two rounds: one on the columns of the square of words, one on its diagonals. -/
def doubleRound (s : Block) : Block :=
  let s := s.quarterRound 0 4 8 12
  let s := s.quarterRound 1 5 9 13
  let s := s.quarterRound 2 6 10 14
  let s := s.quarterRound 3 7 11 15
  let s := s.quarterRound 0 5 10 15
  let s := s.quarterRound 1 6 11 12
  let s := s.quarterRound 2 7 8 13
  s.quarterRound 3 4 9 14

/-- The words a block becomes. -/
def scramble (s : Block) : Block :=
  Vector.zipWith (· + ·) s (Nat.repeat doubleRound 6 s)

end Block

/-- The place in a stream: the key, the number of the next block, and the words that are left of the
last one. -/
structure Stream where
  key : Vector UInt32 8
  block : UInt64 := 0
  pending : List UInt32 := []

namespace Stream

/-- The words of the next block. -/
def words (s : Stream) : Block :=
  let constants : Vector UInt32 4 := #v[0x61707865, 0x3320646e, 0x79622d32, 0x6b206574]
  Block.scramble (constants ++ s.key ++ #v[s.block.toUInt32, (s.block >>> 32).toUInt32, 0, 0])

/-- The next word. -/
def next : StateM Stream UInt32 := modifyGet fun s =>
  match s.pending with
  | w :: rest => (w, { s with pending := rest })
  | [] => (s.words[0], { s with block := s.block + 1, pending := s.words.toList.tail })

/-- The next state of the generator that stretches seeds. -/
def stretch (x : UInt64) : UInt64 := x * 6364136223846793005 + 11634580027462260723

/-- The word a state of that generator gives: its upper half folded, then rotated right by its
top five bits. -/
def permuted (x : UInt64) : UInt32 :=
  let folded := (((x >>> 18) ^^^ x) >>> 27).toUInt32
  let places : UInt32 := (x >>> 59).toUInt32
  rotateLeft folded (32 - places)

/-- The stream of a seed. -/
def ofSeed (seed : UInt64) : Stream where
  key := Vector.ofFn fun i => permuted (Nat.repeat stretch (i + 1) seed)

end Stream

end ArithLearn
