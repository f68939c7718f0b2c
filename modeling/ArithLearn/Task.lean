/-
Random tasks to learn: a program that is kept hidden, and examples of what it does.
-/
import ArithLearn.Random.Draw
import ArithLearn.Spec

namespace ArithLearn

/-- A program and examples of what it does. -/
structure Task where
  program : Program
  examples : List Example

/-- What random inputs and programs are like. -/
structure Generator where
  /-- The length of each input. -/
  length : Nat
  /-- Elements are drawn from one up to this value. -/
  maxValue : Value
  two_le_length : 2 ≤ length
  one_le_maxValue : 1 ≤ maxValue.toInt

namespace Generator

/-- A generator of inputs of the given length, but at least two, and values up to the given one,
but at least one. -/
def ofSize (length : Nat) (maxValue : Value) : Generator :=
  if h : 1 ≤ maxValue.toInt then ⟨max 2 length, maxValue, by omega, h⟩
  else ⟨max 2 length, { toInt := 1 }, by omega, by decide⟩

variable (g : Generator)

/-- A value from `low` up to the greatest. -/
def value (low : Nat) : Draw Value := do
  let n ← Draw.below (g.maxValue.toInt.toNat + 1 - low)
  pure (.ofNat (low + n))

/-- An input. -/
def array : Draw Input := times (g.value 1) g.length

/-- A position in the inputs. Those that are no value come out below zero, but no input is as long as
that. -/
def position : Draw Value := do
  pure (.ofBits (← Draw.below g.length))

/-- Two positions in the inputs, not the same. A position is a value, and there are none if the
length is too great for one. -/
def positions : OptionT Draw (Nat × Nat) := do
  let _ ← OptionT.mk (pure (Value.ofInt? g.length))
  let shuffled ← Draw.shuffle (Array.range g.length)
  pure (shuffled.getD 0 0, shuffled.getD 1 0)

/-- Any program with operators nested no deeper than `depth`. -/
def program : (depth : Nat) → Draw Program
  | 0 => do pure (.lit (← g.value 0))
  | depth + 1 => do
    let binary (op : Op) : Draw Program := do
      let a ← program depth
      let b ← program depth
      pure (.apply op [a, b])
    match ← Draw.below 5 with
    | 0 => do pure (.elementAt (← g.position))
    | 1 => do pure (.lit (← g.value 0))
    | 2 => binary .sum
    | 3 => binary .mul
    | _ => binary .div

/-- An input on which the element at `i` is a multiple of the one at `j`, unless the multiple is
out of range. -/
def divisible (i j : Nat) : OptionT Draw Input := do
  let v ← g.array
  let quotient ← g.value 1
  let product ← OptionT.mk (pure ((v.getD j .zero).mul? quotient))
  pure (v.set i product)

/-- An input that suits an operator: a numerator is made a multiple of its denominator. -/
def inputFor (op : Op) (i j : Nat) : OptionT Draw Input :=
  if op = .div then g.divisible i j else g.array

/-- What a program gives on a drawn input; the output counts as zero where it has none. -/
def sample (p : Program) (input : OptionT Draw Input) : OptionT Draw Example := do
  let v ← input
  pure ⟨v, (p.run v).toOption.getD .zero⟩

/-- One operator over the elements at two positions, or the reading of the first. -/
def overElements (op : Op) (i j : Nat) : Program :=
  let element (k : Nat) : Program := .elementAt (.ofNat k)
  if op = .elementAt then element i else .apply op [element i, element j]

/-- A task with one operator over two elements, or the reading of one, with inputs that suit it.
There is no task if there are no positions, or a multiple is out of range. -/
def simpleTask (examples : Nat) : Draw (Option Task) := OptionT.run do
  let op := Op.all.getD (← Draw.index 4) .sum
  let (i, j) ← g.positions
  let program := overElements op i j
  pure ⟨program, ← times (sample program (g.inputFor op i j)) examples⟩

/-- An input on which a program has a value, if the next one is such. -/
def exampleOf (p : Program) : OptionT Draw Example := do
  let v ← g.array
  let n ← OptionT.mk (pure (p.run v).toOption)
  pure ⟨v, n⟩

/-- A task with any program, and inputs on which it has values. A program that faults on one of its
inputs is given up, and so is the task after so many attempts. -/
def task (depth examples : Nat) : (attempts : Nat) → Draw (Option Task)
  | 0 => pure none
  | attempts + 1 => do
    let p ← g.program depth
    match ← (times (g.exampleOf p) examples).run with
    | some found => pure (some ⟨p, found⟩)
    | none => task depth examples attempts

end Generator

end ArithLearn
