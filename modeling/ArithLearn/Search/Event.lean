/-
What a learning session has to tell while it runs, as data; the sentences are made when they are
asked for.
-/
import ArithLearn.Space.Basic
import ArithLearn.Program.Text
import ArithLearn.Spec
import ArithLearn.Search.Budget

namespace ArithLearn

/-- How much an event matters. -/
inductive Level where
  | debug
  | info
  | warn
deriving DecidableEq

/-- Something worth telling. -/
inductive Event where
  /-- An operator was found to fit a spec in this many ways. -/
  | branches (op : Op) (count : Nat) (spec : Spec)
  /-- A search ended with a space. -/
  | space (graph : Graph) (expansions : Nat)
  /-- A search ended with an empty space. -/
  | noProgram (examples : Nat)
  /-- A ranked program failed an example. -/
  | unsound (program : Program)
  /-- An example was accepted. -/
  | learned (programs examples : Nat)
  /-- The best program after an example was accepted. -/
  | top (program : Program)
  /-- An example was not accepted. -/
  | rejected (refused : Example) (error : SynthesisError)

namespace Event

/-- How much an event matters. -/
def level : Event → Level
  | branches .. | space .. => .debug
  | noProgram .. | learned .. | top .. | rejected .. => .info
  | unsound .. => .warn

/-- The sentence for an event. -/
def message : Event → String
  | branches op count spec => s!"{op.name}: {count} branches for {spec.text}"
  | space graph expansions =>
    s!"version space: {graph.size} nodes, {graph.count} programs, {expansions} expansions"
  | noProgram examples => s!"no program for {examples} examples"
  | unsound program => s!"dropping unsound candidate {program}"
  | learned programs examples => s!"learned {programs} programs from {examples} examples"
  | top program => s!"top: {program}"
  | rejected refused error =>
    let input := ", ".intercalate (refused.input.map toString)
    s!"rejected example [{input}] -> {refused.output}: {error.message}"

end Event

end ArithLearn
