/-
The language that is searched:

    start ::= Sum(input, start, start) | Mul(input, start, start) | Div(input, start, start)
            | ElementAt(input, constant) | constant

The table of operators says for each operator which symbols its parameters are and by which
witnesses their values are found.
-/
import ArithLearn.Witness
import ArithLearn.Program.Order

namespace ArithLearn

/-- What a place in a program may be filled with: the input array, a constant, or any program. -/
inductive Symbol where
  | input
  | constant
  | start
deriving DecidableEq

/-- One way of filling a place. -/
inductive Production where
  | op (op : Op)
  | literal
deriving DecidableEq

/-- The productions of a symbol, in the order they are tried. The input and the constants are not
built from anything. -/
def Symbol.productions : Symbol → List Production
  | start => Op.all.map .op ++ [.literal]
  | input | constant => []

/-- One row of the table of operators. -/
structure Operator where
  op : Op
  /-- The symbols of all parameters, the input first. -/
  params : List Symbol
  /-- How the values of the parameters after the input are found, in their order. -/
  witnesses : List Witness

namespace Operator

/-- An operator with two operands, the second of which is solved for once the first has a value. -/
def binary (op : Op) (left : Input → SortedSet Value → SortedSet Value)
    (right : Input → SortedSet Value → Value → SortedSet Value) : Operator :=
  ⟨op, [.input, .start, .start], [.free left, .dependent 1 right]⟩

/-- The row of an operator. -/
def of : Op → Operator
  | .sum => binary .sum sumLeft sumRight
  | .mul => binary .mul mulLeft mulRight
  | .div => binary .div divLeft divRight
  | .elementAt => ⟨.elementAt, [.input, .constant], [.free elementPosition]⟩

/-- The parameters that are searched for, all but the input: their places, symbols and witnesses. -/
def searched (o : Operator) : List (Nat × Symbol × Witness) :=
  ((o.params.zipIdx.drop 1).zip o.witnesses).map fun ((symbol, i), w) => (i, symbol, w)

/-- Whether the values of a later parameter are found from those of parameter `i`. -/
def isDependency (o : Operator) (i : Nat) : Bool :=
  o.witnesses.any fun w => w.dependsOn? = some i

end Operator

end ArithLearn
