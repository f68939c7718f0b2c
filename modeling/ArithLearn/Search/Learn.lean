/-
The search: from a spec to the space of all programs the grammar derives for it.

To learn an application, the witnesses of its operator turn the spec of the result into specs of
the operands, which are learned one level less deep. An operand that a later witness depends on
is split into clusters first: each cluster stands for one way of giving the operand a value on
every state, and the later operands are learned once for each. A spec that some state cannot
meet is not searched at all, and spaces that were learned are remembered for as long as there is
room.

The state of a search outlives a search that fails, so that the count of expansions and what is
remembered go on from there.
-/
import ArithLearn.Grammar
import ArithLearn.Space.Cluster
import ArithLearn.Search.Recent
import ArithLearn.Search.Event

namespace ArithLearn

/-- What a space was learned for. -/
structure Goal where
  symbol : Symbol
  depth : Nat
  spec : Spec
deriving DecidableEq

/-- The state of a search. -/
structure Search where
  budget : Budget
  known : Recent Goal Graph
  clusterer : Clusterer
  /-- The events so far, the latest first. -/
  events : List Event := []

/-- A step of a search: it may fail, and changes the state also then. -/
abbrev SearchM := ExceptT SynthesisError (StateM Search)

namespace Search

/-- The state a search begins in. -/
def start (limits : Limits) (clock : Clock := .stopped) : Search where
  budget := .ofLimits limits clock
  known := .ofCapacity limits.cacheCapacity
  clusterer := { next := 0 }

/-- The result of a step, and the state after it. -/
def attempt {α : Type} (step : SearchM α) (s : Search) : Except SynthesisError α × Search :=
  step.run.run s

/-- Counts an expansion. -/
def tick : SearchM Unit := do
  modify fun s => { s with budget := s.budget.tick }
  match (← get).budget.failure? with
  | some e => throw e
  | none => pure ()

/-- A step of the clusterer. -/
def clustering {α : Type} (step : StateM Clusterer α) : SearchM α :=
  modifyGet fun s =>
    let (a, clusterer) := step.run s.clusterer
    (a, { s with clusterer })

/-- An unused label. -/
def fresh : SearchM Nat := clustering Clusterer.fresh

/-- Tells an event. -/
def tell (e : Event) : SearchM Unit := modify fun s => { s with events := e :: s.events }

/-- The space for a goal: empty if the spec cannot be met, the one that is remembered if there
is one, and else what `build` gives, which counts as an expansion and is remembered. -/
def remembered (goal : Goal) (build : SearchM Graph) : SearchM Graph := do
  if goal.spec.isUnsatisfiable then
    pure (.union (← fresh) [])
  else
    match (← get).known.get? goal with
    | some space =>
      modify fun s => { s with known := s.known.touch goal }
      pure space
    | none =>
      tick
      let space ← build
      modify fun s => { s with known := s.known.insert goal space }
      pure space

/-- The literals that every state accepts. -/
def literals (spec : Spec) : SearchM Graph := do
  pure (.leaf (← fresh) (spec.common.image .lit))

/-- The applications of an operator, by the spaces of its parameters: `children` are those
learned so far, `chosen` holds the values of those that others depend on, and the rest is still
to be searched, with `lower` to learn it. -/
def params (states : List Input) (lower : Symbol → Spec → SearchM Graph) (o : Operator)
    (spec : Spec) : List (Nat × Symbol × Witness) → List Graph → List (Nat × List Value) →
    SearchM (List Graph)
  | [], children, _ => do pure [.joinOf (← fresh) o.op children]
  | (i, symbol, w) :: rest, children, chosen =>
    match w.spec? states spec (chosen.lookup ·) with
    | none => pure []
    | some paramSpec => do
      if paramSpec.isUnsatisfiable then
        pure []
      else
        let space ← lower symbol paramSpec
        if space.isEmpty then
          pure []
        else if o.isDependency i then
          let clusters ← clustering (space.cluster states)
          let joins ← clusters.mapM fun c => do
            tick
            params states lower o spec rest (children ++ [c.space]) ((i, c.values) :: chosen)
          pure joins.flatten
        else
          params states lower o spec rest (children ++ [space]) chosen

/-- The space of an operator's applications. -/
def operator (states : List Input) (lower : Symbol → Spec → SearchM Graph) (o : Operator)
    (spec : Spec) : SearchM Graph := do
  let input := Space.inputLeaf (← fresh)
  let joins ← params states lower o spec o.searched [input] []
  if !joins.isEmpty then
    tell (.branches o.op joins.length spec)
  pure (.unionOf (← fresh) (joins.map (⟨·, false⟩)))

/-- What a production contributes to the space for a goal, where `operators?` learns the applications
of an operator, unless no operator is allowed at this depth. The literals are remembered, and so are
shared; the applications are new. -/
def contribution (operators? : Option (Op → Spec → SearchM Graph)) (goal : Goal) :
    Production → SearchM (List (Space.Member Nat))
  | .literal => do
    let space ← remembered { goal with symbol := .constant } (literals goal.spec)
    pure [⟨space, true⟩]
  | .op op =>
    match operators? with
    | none => pure []
    | some operators => do pure [⟨← operators op goal.spec, false⟩]

/-- The space for a goal: for a symbol with productions the union of what they contribute. -/
def level (operators? : Option (Op → Spec → SearchM Graph)) (goal : Goal) : SearchM Graph :=
  remembered goal do
    match goal.symbol with
    | .input => pure (.union (← fresh) [])
    | .constant => literals goal.spec
    | .start =>
      let members ← goal.symbol.productions.mapM (contribution operators? goal)
      pure (.unionOf (← fresh) members.flatten)

/-- The space of all programs for a symbol that meet the spec on the states, with operators
nested no deeper than `depth`. -/
def learn (states : List Input) : (depth : Nat) → Symbol → Spec → SearchM Graph
  | 0, symbol, spec => level none ⟨symbol, 0, spec⟩
  | depth + 1, symbol, spec =>
    level (some fun op => operator states (learn states depth) (.of op)) ⟨symbol, depth + 1, spec⟩

end Search

end ArithLearn
