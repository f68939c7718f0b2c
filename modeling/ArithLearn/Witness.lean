/-
Operators read backwards: from the values an application may have, the values one of its
operands may have.

The left operand of a binary operator is looked for among the elements of the input: it has to
be an element that gives an accepted result together with an element of another place. Once the
left operand has a value, the right one is solved for. Where no operand fits, the set is empty.
-/
import ArithLearn.Spec

namespace ArithLearn

/-! ### Pairs of elements -/

/-- The pairs of members at two places, the earlier one first. -/
def pairs {α : Type} : List α → List (α × α)
  | [] => []
  | a :: as => as.map (a, ·) ++ pairs as

/-- The pairs of members at two places, in both orders. -/
def orderedPairs {α : Type} (as : List α) : List (α × α) :=
  as.zipIdx.flatMap fun (a, i) => (as.eraseIdx i).map (a, ·)

/-- The pairs of elements whose sum is `target`. -/
def sumPairs (v : Input) (target : Value) : List (Value × Value) :=
  (pairs v).filter fun (a, b) => a.add? b = some target

/-- The pairs of elements whose product is `target`. -/
def mulPairs (v : Input) (target : Value) : List (Value × Value) :=
  (pairs v).filter fun (a, b) => a.mul? b = some target

/-- The numerators and denominators among the elements that divide exactly to `target`. -/
def divPairs (v : Input) (target : Value) : List (Value × Value) :=
  (orderedPairs v).filter fun (a, b) => a.exactDiv? b = some target

/-- All positions at which the input holds `n`. -/
def positionsOf (v : Input) (n : Value) : List Value :=
  v.zipIdx.filterMap fun (a, i) => if a = n then Value.ofInt? i else none

/-! ### Witnesses of one state -/

/-- The left operands of a sum. -/
def sumLeft (v : Input) (outputs : SortedSet Value) : SortedSet Value :=
  .ofList ((outputs.toList.flatMap (sumPairs v)).flatMap fun (a, b) => [a, b])

/-- The right operands of a sum whose left operand is `left`. -/
def sumRight (_v : Input) (outputs : SortedSet Value) (left : Value) : SortedSet Value :=
  .ofList (outputs.toList.filterMap (·.sub? left))

/-- The left operands of a product. -/
def mulLeft (v : Input) (outputs : SortedSet Value) : SortedSet Value :=
  .ofList ((outputs.toList.flatMap (mulPairs v)).flatMap fun (a, b) => [a, b])

/-- The right operands of a product whose left operand is `left`. Every number times zero is
zero, so beside a zero the elements of the input stand for any number. -/
def mulRight (v : Input) (outputs : SortedSet Value) (left : Value) : SortedSet Value :=
  if left = .zero then
    if outputs.contains .zero then .ofList v else .empty
  else
    (SortedSet.ofList (outputs.toList.filterMap (·.exactDiv? left))).filter fun right =>
      (left.mul? right).any outputs.contains

/-- The numerators of a quotient. -/
def divLeft (v : Input) (outputs : SortedSet Value) : SortedSet Value :=
  .ofList ((outputs.toList.flatMap (divPairs v)).map (·.1))

/-- The denominators of a quotient whose numerator is `left`. Zero divided by any other number is
zero, so under a zero the elements of the input other than zero stand for any number. -/
def divRight (v : Input) (outputs : SortedSet Value) (left : Value) : SortedSet Value :=
  if left = .zero then
    if outputs.contains .zero then .ofList (v.filter (· ≠ .zero)) else .empty
  else
    (SortedSet.ofList (outputs.toList.filterMap left.exactDiv?)).filter fun right =>
      (left.exactDiv? right).any outputs.contains

/-- The positions at which the input holds an accepted value. -/
def elementPosition (v : Input) (outputs : SortedSet Value) : SortedSet Value :=
  .ofList (outputs.toList.flatMap (positionsOf v))

/-! ### Witnesses of a whole spec -/

/-- How the values of one parameter of an operator are found, on one state: from the accepted
results alone, or from these and the value of an earlier parameter. -/
inductive Witness where
  | free (values : Input → SortedSet Value → SortedSet Value)
  | dependent (on : Nat) (values : Input → SortedSet Value → Value → SortedSet Value)

namespace Witness

/-- The parameter a witness depends on, if it does. -/
def dependsOn? : Witness → Option Nat
  | free _ => none
  | dependent on _ => some on

/-- The spec of a parameter, state by state, as far as there are states, sets and, for a witness
that depends on another parameter, values of it. -/
def freeSpec (values : Input → SortedSet Value → SortedSet Value) (states : List Input)
    (spec : Spec) : Spec :=
  ⟨List.zipWith values states spec.outputs⟩

@[inherit_doc freeSpec]
def dependentSpec (values : Input → SortedSet Value → Value → SortedSet Value) (states : List Input)
    (spec : Spec) (chosen : List Value) : Spec :=
  ⟨List.zipWith (fun (v, outputs) n => values v outputs n) (states.zip spec.outputs) chosen⟩

/-- The spec of a parameter, where `chosen` gives the values of the parameters before it. There is
none if the one it depends on has no values. -/
def spec? (w : Witness) (states : List Input) (spec : Spec)
    (chosen : Nat → Option (List Value)) : Option Spec :=
  match w with
  | free values => some (freeSpec values states spec)
  | dependent on values => (chosen on).map (dependentSpec values states spec)

end Witness

end ArithLearn
