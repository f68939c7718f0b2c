/-
What a program is asked to do: on each of several inputs, give one of the values accepted there.

The inputs are the *states* of a search, and a `Spec` is aligned with them by place. An example
is the case of one accepted value; the wider sets arise inside a search, where an operand has
several values it may take.
-/
import ArithLearn.Choice
import ArithLearn.SortedSet
import ArithLearn.Program.Eval

namespace ArithLearn

/-- The array a program is run on. -/
abbrev Input := List Value

/-- An input and the value wanted for it. -/
structure Example where
  input : Input
  output : Value
deriving DecidableEq

/-- The set of accepted values for each state. -/
structure Spec where
  outputs : List (SortedSet Value)
deriving DecidableEq

namespace Spec

/-- One accepted value per state. -/
def exact (outputs : List Value) : Spec := ⟨outputs.map .singleton⟩

/-- How many states the spec speaks of. -/
def length (spec : Spec) : Nat := spec.outputs.length

/-- Some state accepts nothing, so no program will do. -/
def isUnsatisfiable (spec : Spec) : Bool := spec.outputs.any (·.isEmpty)

/-- Each state accepts one value. -/
def isExact (spec : Spec) : Bool := spec.outputs.all (·.size == 1)

/-- The values every state accepts; none if there are no states. -/
def common (spec : Spec) : SortedSet Value :=
  match spec.outputs with
  | [] => .empty
  | first :: rest => rest.foldl .inter first

/-- The ways of picking one accepted value for each state. -/
def combinations (spec : Spec) : List (List Value) := choices (spec.outputs.map (·.toList))

/-- The first `n` ways of picking. -/
def firstCombinations (n : Nat) (spec : Spec) : List (List Value) :=
  firstChoices n (spec.outputs.map (·.toList))

theorem firstCombinations_eq_take (n : Nat) (spec : Spec) :
    spec.firstCombinations n = spec.combinations.take n := firstChoices_eq_take n _

/-- Whether a program has a value on the input that is among the accepted ones. -/
def accepts (outputs : SortedSet Value) (input : Input) (p : Program) : Bool :=
  match p.value? input with
  | some n => outputs.contains n
  | none => false

/-- Whether a program has an accepted value on every state. States without a set, and sets without a
state, ask for nothing. -/
def satisfiedBy (spec : Spec) (states : List Input) (p : Program) : Bool :=
  (states.zip spec.outputs).all fun (input, outputs) => accepts outputs input p

/-- How a spec is written in the log. -/
def text (spec : Spec) : String :=
  let set (s : SortedSet Value) :=
    "\x7b" ++ ", ".intercalate (s.toList.map toString) ++ "\x7d"
  "Spec \x7b outputs: [" ++ ", ".intercalate (spec.outputs.map set) ++ "] \x7d"

end Spec

end ArithLearn
