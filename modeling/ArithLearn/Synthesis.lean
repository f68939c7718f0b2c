/-
From examples to programs: the search for their space, and the best programs of it.
-/
import ArithLearn.Search.Learn
import ArithLearn.Space.Ranking

namespace ArithLearn

/-- The outcome of learning, and what there was to tell on the way. -/
structure Report (α : Type) where
  result : Except SynthesisError α
  events : List Event

/-- The result of a search, and the state it ended in. -/
structure Exploration where
  result : Except SynthesisError Graph
  final : Search

namespace Exploration

/-- How many expansions were counted. -/
def expansions (e : Exploration) : Nat := e.final.budget.spent

/-- What the search had to tell, in order. -/
def events (e : Exploration) : List Event :=
  e.final.events.reverse ++
    match e.result with
    | .ok space => [.space space e.expansions]
    | .error _ => []

end Exploration

/-- The search for the space of all programs that give the output of each example on its input. The
space is empty if there are none; without examples there is no telling what is wanted. -/
def explore (examples : List Example) (config : Config) (clock : Clock := .stopped) : Exploration :=
  let start := Search.start config.limits clock
  match examples with
  | [] => ⟨.error .noExamples, start⟩
  | examples =>
    let states := examples.map (·.input)
    let spec := Spec.exact (examples.map (·.output))
    let (result, final) :=
      Search.attempt (Search.learn states config.limits.maxDepth .start spec) start
    ⟨result, final⟩

/-- The space of all programs that fit the examples. -/
def versionSpace (examples : List Example) (config : Config) (clock : Clock := .stopped) :
    Except SynthesisError Graph :=
  (explore examples config clock).result

/-- Whether a program gives the output of each example on its input. -/
def fits (examples : List Example) (p : Program) : Bool :=
  (Spec.exact (examples.map (·.output))).satisfiedBy (examples.map (·.input)) p

variable {σ : Type} [Score σ]

/-- The best programs of a space, as many as are wanted, less those that do not fit the examples. If
none are wanted it is enough that there is some program. -/
def select (examples : List Example) (config : Config) (space : Graph) :
    Report (List (Ranked σ)) :=
  if space.isEmpty then
    ⟨.error .unsatisfiable, [.noProgram examples.length]⟩
  else if config.topK = 0 then
    ⟨.ok [], []⟩
  else
    let (sound, unsound) := (space.topK config.topK).partition fun r => fits examples r.program
    let events := unsound.map fun (r : Ranked σ) => .unsound r.program
    if sound.isEmpty then ⟨.error .unsatisfiable, events⟩ else ⟨.ok sound, events⟩

/-- The best programs that fit the examples, from the highest score down. -/
def synthesis (examples : List Example) (config : Config) (clock : Clock := .stopped) :
    Report (List (Ranked σ)) :=
  let exploration := explore examples config clock
  match exploration.result with
  | .error e => ⟨.error e, exploration.events⟩
  | .ok space =>
    let selected := select examples config space
    ⟨selected.result, exploration.events ++ selected.events⟩

/-- The best programs that fit the examples, without what there was to tell. -/
def synthesize (examples : List Example) (config : Config) (clock : Clock := .stopped) :
    Except SynthesisError (List (Ranked σ)) :=
  (synthesis examples config clock).result

end ArithLearn
