/-
Uniform draws from a stream.

A number below `n` is drawn by scaling a word to the range. So that no number is more likely than
another, some words are drawn again; a word is accepted with a probability of at least one half. The
result is below `n` whatever words the stream gives.
-/
import ArithLearn.Random.Stream

namespace ArithLearn

/-- A computation that draws from a stream. -/
abbrev Draw := StateM Stream

namespace Draw

/-- A draw of `width` bits. -/
structure Source where
  width : Nat
  draw : Draw Nat

/-- Words as they come. -/
def narrow : Source := ⟨32, do pure (← Stream.next).toNat⟩

/-- Two words at a time, the lower one first. -/
def wide : Source := ⟨64, do
  let low ← Stream.next
  let high ← Stream.next
  pure (high.toNat * 0x100000000 + low.toNat)⟩

/-- The part of a word's range in which the words are accepted: the greatest multiple of `n` by
a power of two that fits. -/
def Source.zone (s : Source) (n : Nat) : Nat := n <<< (s.width - (n.log2 + 1))

/-- A number below `n`, after at most `retries` words that are not accepted. -/
def Source.belowWithin (s : Source) (n : Nat) : (retries : Nat) → Draw Nat
  | 0 => do
    let w ← s.draw
    pure (w * n / 2 ^ s.width)
  | retries + 1 => do
    let w ← s.draw
    if w * n % 2 ^ s.width < s.zone n then pure (w * n / 2 ^ s.width) else s.belowWithin n retries

/-- A number below `n`. A stream that has 256 words in a row not accepted is not to be met with. -/
def Source.below (s : Source) (n : Nat) : Draw Nat := s.belowWithin n 256

/-- A number below `n`. -/
def below (n : Nat) : Draw Nat := wide.below n

/-- An index below `n`. -/
def index (n : Nat) : Draw Nat := narrow.below n

/-- Exchanges each place from `i` down with one not above it. -/
def shuffleFrom {α : Type} : (i : Nat) → Array α → Draw (Array α)
  | 0, xs => pure xs
  | i + 1, xs => do
    let j ← index (i + 2)
    shuffleFrom i (xs.swapIfInBounds (i + 1) j)

/-- The members of an array in a random order. -/
def shuffle {α : Type} (xs : Array α) : Draw (Array α) := shuffleFrom (xs.size - 1) xs

end Draw

/-- The results of doing something `n` times. -/
def times {m : Type → Type} [Monad m] {α : Type} (step : m α) : (n : Nat) → m (List α)
  | 0 => pure []
  | n + 1 => do
    let a ← step
    let as ← times step n
    pure (a :: as)

end ArithLearn
