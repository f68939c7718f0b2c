/-
What a program gives on an input array.

An argument may be undefined, and then so is the result. Everything else that has no value, a
zero denominator, a position beyond the input or a result out of range, is a fault, and the
first fault in the order of evaluation ends it.
-/
import ArithLearn.Program.Fault

namespace ArithLearn

/-- What an argument stands for: a value, or nothing at all. -/
inductive Outcome where
  | defined (n : Value)
  | undefined
deriving DecidableEq

namespace Outcome

/-- The value, if there is one. -/
def value? : Outcome → Option Value
  | defined n => some n
  | undefined => none

/-- The values of a list of outcomes, if all have one. -/
def values? : List Outcome → Option (List Value)
  | [] => some []
  | .undefined :: _ => none
  | .defined n :: os => (values? os).map (n :: ·)

/-- Defined outcomes come first, by their values; the undefined one is the greatest. -/
protected def compare : Outcome → Outcome → Ordering
  | defined m, defined n => Ord.compare m n
  | defined _, undefined => .lt
  | undefined, defined _ => .gt
  | undefined, undefined => .eq

instance : Ord Outcome := ⟨Outcome.compare⟩

instance : Std.TransOrd Outcome where
  eq_swap {a b} := by
    match a, b with
    | defined m, defined n => exact @Std.OrientedCmp.eq_swap Value compare _ m n
    | defined _, undefined | undefined, defined _ | undefined, undefined => rfl
  isLE_trans {a b c} h h' := by
    match a, b, c with
    | defined l, defined m, defined n => exact @Std.TransCmp.isLE_trans Value compare _ l m n h h'
    | defined _, _, undefined | undefined, undefined, undefined => rfl
    | undefined, defined _, _ => cases h
    | _, undefined, defined _ => cases h'

instance : Std.LawfulEqOrd Outcome where
  compare_self {a} := by
    match a with
    | defined m => exact @Std.ReflCmp.compare_self Value compare _ m
    | undefined => rfl
  eq_of_compare {a b} h := by
    match a, b with
    | defined m, defined n =>
      exact congrArg defined (@Std.LawfulEqCmp.eq_of_compare Value compare _ m n h)
    | undefined, undefined => rfl
    | defined _, undefined | undefined, defined _ => cases h

/-- How an outcome is written. -/
def text : Outcome → String
  | defined n => toString n
  | undefined => "undefined"

end Outcome

namespace Op

/-- The result of an operator on values, `v` being the input. -/
def compute (op : Op) (v args : List Value) : Except Fault Value :=
  match op, args with
  | .sum, [a, b] =>
    match a.add? b with
    | some n => .ok n
    | none => .error (.overflow .sum a b)
  | .mul, [a, b] =>
    match a.mul? b with
    | some n => .ok n
    | none => .error (.overflow .mul a b)
  | .div, [a, b] =>
    if b = .zero then .error (.divisionByZero a) else
      match a.div? b with
      | some n => .ok n
      | none => .error (.overflow .div a b)
  | .elementAt, [p] =>
    if p.toInt < 0 then .error (.indexOutOfBounds p v.length) else
      match v[p.toInt.toNat]? with
      | some n => .ok n
      | none => .error (.indexOutOfBounds p v.length)
  | op, args => .error (.arity op op.arity args.length)

/-- The result of an operator on outcomes: undefined as soon as one of them is. -/
def applyTo (op : Op) (v : List Value) (args : List Outcome) : Except Fault Outcome :=
  match Outcome.values? args with
  | some vals => (op.compute v vals).map .defined
  | none => .ok .undefined

end Op

namespace Program

mutual

/-- The outcome of a program on the input `v`. An application is evaluated from left to right, and
needs the input as its first argument; the input itself stands for no integer. -/
def eval (v : List Value) : Program → Except Fault Outcome
  | .input => .error .notAnInteger
  | .lit n => .ok (.defined n)
  | .app op (.input :: params) => do
    let args ← evalAll v params
    op.applyTo v args
  | .app _ _ => .error .notAnInteger

/-- The outcomes of several programs, or the fault of the first that has one. -/
def evalAll (v : List Value) : List Program → Except Fault (List Outcome)
  | [] => .ok []
  | p :: ps => do
    let o ← eval v p
    let os ← evalAll v ps
    .ok (o :: os)

end

/-- The value of a program on the input `v`; an undefined outcome is a fault. -/
def run (v : List Value) (p : Program) : Except Fault Value :=
  match p.eval v with
  | .ok (.defined n) => .ok n
  | .ok .undefined => .error .undefined
  | .error e => .error e

/-- The value of a program on the input `v`, if it has one. -/
def value? (v : List Value) (p : Program) : Option Value :=
  match p.eval v with
  | .ok (.defined n) => some n
  | _ => none

theorem value?_eq_some {v : List Value} {p : Program} {n : Value} :
    p.value? v = some n ↔ p.eval v = .ok (.defined n) := by
  unfold value?
  split <;> simp_all

end Program

end ArithLearn
