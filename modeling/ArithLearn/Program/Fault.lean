/-
What can go wrong when a program runs, one constructor for each cause, and the sentence each
cause is reported with.
-/
import ArithLearn.Program.Basic

namespace ArithLearn

/-- The cause that ended an evaluation. -/
inductive Fault where
  /-- The position is none of the input's. -/
  | indexOutOfBounds (index : Value) (length : Nat)
  | divisionByZero (numerator : Value)
  /-- The exact result is not a `Value`. -/
  | overflow (op : Op) (lhs rhs : Value)
  | arity (op : Op) (expected found : Nat)
  /-- The program stands for an array, or has no input where operators expect it. -/
  | notAnInteger
  /-- The program ran, to the undefined outcome. -/
  | undefined
deriving DecidableEq

namespace Fault

/-- The sentence a fault is reported with. -/
def message : Fault → String
  | indexOutOfBounds index length =>
    s!"ElementAt: index {index} is out of bounds for an input of length {length}"
  | divisionByZero numerator => s!"Div: {numerator} divided by zero"
  | overflow op lhs rhs => s!"{op.name}: {lhs} and {rhs} overflow"
  | arity op expected found => s!"{op.name}: expected {expected} arguments, found {found}"
  | notAnInteger => "the input array is not an integer result"
  | undefined => "the program produced no value"

end Fault

end ArithLearn
