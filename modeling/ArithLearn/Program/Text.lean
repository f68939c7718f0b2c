/-
How a program is written: the input as `v`, a literal in decimal, and an application as the name of
the operator followed by its arguments in parentheses, with a comma and a blank between them.
-/
import ArithLearn.Program.Basic

namespace ArithLearn

namespace Program

mutual

/-- The characters a program is written with. -/
def chars : Program → List Char
  | .input => ['v']
  | .lit n => (toString n).toList
  | .app op args => op.name.toList ++ '(' :: argChars args

/-- The arguments, up to and with the closing parenthesis. -/
def argChars : List Program → List Char
  | [] => [')']
  | p :: ps => chars p ++ restChars ps

/-- The arguments after the first, each behind its comma. -/
def restChars : List Program → List Char
  | [] => [')']
  | p :: ps => ',' :: ' ' :: chars p ++ restChars ps

end

/-- How a program is written. -/
def text (p : Program) : String := String.ofList p.chars

instance : ToString Program := ⟨text⟩

end Program

end ArithLearn
