/-
Scores: which of several programs to prefer.

A literal or the input scores nothing, the reading of an element scores its position, a sum scores
the sum of its operands' scores, and a product or a quotient scores their product. The rules are
stated for any kind of number that a position can be turned into, so that programs can be scored in
floating point, as a session does, and in exact natural numbers, where no product is rounded.
-/
import ArithLearn.Program.Order

namespace ArithLearn

/-- Numbers to score programs with. -/
class Score (σ : Type) where
  ofNat : Nat → σ
  add : σ → σ → σ
  mul : σ → σ → σ
  compare : σ → σ → Ordering
  order : Std.TransCmp compare

namespace Score

/-- Natural numbers score exactly. -/
instance : Score Nat where
  ofNat n := n
  add a b := a + b
  mul a b := a * b
  compare := Ord.compare
  order := inferInstance

/-- Where a float stands in the order of all floats: below everything what is not a number, and
else by value, the negative zero before the positive one. Read as an integer, the word of a
positive float grows with its value, and that of a negative one falls. -/
def floatPlace (x : Float) : Int :=
  if x.isNaN then -0x10000000000000000
  else if x.toBits.toNat < 0x8000000000000000 then x.toBits.toNat
  else 0x7fffffffffffffff - x.toBits.toNat

/-- A float scores with the rounding of its arithmetic. Every position fits 64 bits. -/
instance : Score Float where
  ofNat n := n.toUInt64.toFloat
  add a b := a + b
  mul a b := a * b
  compare a b := Ord.compare (floatPlace a) (floatPlace b)
  order :=
    { eq_swap := @fun a b =>
        @Std.OrientedCmp.eq_swap Int Ord.compare _ (floatPlace a) (floatPlace b)
      isLE_trans := @fun a b c =>
        @Std.TransCmp.isLE_trans Int Ord.compare _ (floatPlace a) (floatPlace b) (floatPlace c) }

variable {σ : Type} [Score σ]

instance : Std.TransCmp (compare : σ → σ → Ordering) := order

/-- The score of a program that has nothing to recommend it. -/
def zero : σ := ofNat 0

end Score

/-- A program together with its score. -/
structure Ranked (σ : Type) where
  score : σ
  program : Program

/-- The score at a place of a list; a place beyond the list counts as zero. -/
def scoreAt {σ : Type} [Score σ] (args : List (Ranked σ)) (i : Nat) : σ :=
  match args[i]? with
  | some r => r.score
  | none => Score.zero

/-- The score of an operator over arguments that are scored already. The first argument is the input
and has no say. A literal position counts by its value, and not at all if it is negative. -/
def combine {σ : Type} [Score σ] (op : Op) (args : List (Ranked σ)) : σ :=
  match op, args with
  | .sum, args => Score.add (scoreAt args 1) (scoreAt args 2)
  | .mul, args | .div, args => Score.mul (scoreAt args 1) (scoreAt args 2)
  | .elementAt, _ :: ⟨_, .lit position⟩ :: _ => Score.ofNat position.toInt.toNat
  | .elementAt, args => scoreAt args 1

namespace Program

variable {σ : Type} [Score σ]

mutual

/-- The score of a program. -/
def score : Program → σ
  | .input | .lit _ => Score.zero
  | .app op args => combine op (rankAll args)

/-- Programs with their scores. -/
def rankAll : List Program → List (Ranked σ)
  | [] => []
  | p :: ps => ⟨score p, p⟩ :: rankAll ps

end

/-- A program with its score. -/
def ranked (p : Program) : Ranked σ := ⟨p.score, p⟩

theorem rankAll_eq (ps : List Program) : (rankAll ps : List (Ranked σ)) = ps.map ranked := by
  induction ps with
  | nil => rfl
  | cons p ps ih => simp [rankAll, ih, ranked]

end Program

end ArithLearn
