/-
Programs over one input array, and the four operators they are built from.

The type allows any operator to stand over any list of arguments. Programs that are *written*
have the input as the first argument of each operator, which is what `Program.apply` and the
constructors named after the operators give; evaluation says what becomes of the others.
-/
import ArithLearn.Value

namespace ArithLearn

/-- The operators: three of arithmetic, and the reading of an element of the input. -/
inductive Op where
  | sum
  | mul
  | div
  | elementAt
deriving DecidableEq, Repr

namespace Op

/-- All operators, in their order. -/
def all : List Op := [.sum, .mul, .div, .elementAt]

/-- The name an operator is written with. -/
def name : Op → String
  | .sum => "Sum"
  | .mul => "Mul"
  | .div => "Div"
  | .elementAt => "ElementAt"

/-- How many arguments an operator takes beside the input. -/
def arity : Op → Nat
  | .sum | .mul | .div => 2
  | .elementAt => 1

end Op

/-- A program: the input array itself, a literal, or an operator over arguments. -/
inductive Program where
  | input
  | lit (n : Value)
  | app (op : Op) (args : List Program)

namespace Program

/-- An operator applied to the input and to further arguments. -/
def apply (op : Op) (params : List Program) : Program := .app op (.input :: params)

def sum (a b : Program) : Program := apply .sum [a, b]

def mul (a b : Program) : Program := apply .mul [a, b]

def div (a b : Program) : Program := apply .div [a, b]

def elementAt (position : Value) : Program := apply .elementAt [.lit position]

/-- To show something of every program, show it of the input and the literals, and of an operator if
it holds of all the arguments. -/
theorem induction {motive : Program → Prop} (input : motive .input) (lit : ∀ n, motive (.lit n))
    (app : ∀ op args, (∀ a ∈ args, motive a) → motive (.app op args)) (p : Program) : motive p :=
  Program.rec (motive_2 := fun args => ∀ a ∈ args, motive a) input lit app
    (by simp) (fun _ _ h hs => by simpa using ⟨h, hs⟩) p

/-! ### Measures -/

mutual

/-- How many nodes a program has. -/
def size : Program → Nat
  | .input | .lit _ => 1
  | .app _ args => 1 + sizeAll args

def sizeAll : List Program → Nat
  | [] => 0
  | p :: ps => size p + sizeAll ps

end

mutual

/-- How deep the operators of a program are nested. -/
def depth : Program → Nat
  | .input | .lit _ => 0
  | .app _ args => 1 + depthAll args

/-- The greatest depth among the programs. -/
def depthAll : List Program → Nat
  | [] => 0
  | p :: ps => max (depth p) (depthAll ps)

end

end Program

end ArithLearn
