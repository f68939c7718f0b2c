/-
How far a search may go, and why it can fail.
-/
import ArithLearn.Value

namespace ArithLearn

/-- The bounds a search can run into. -/
inductive Limit where
  | expansions
  | time
deriving DecidableEq

/-- The name of the setting that sets a bound. -/
def Limit.name : Limit → String
  | expansions => "max_expansions"
  | time => "max_time_ms"

/-- Why a search gave no programs. -/
inductive SynthesisError where
  | noExamples
  | unsatisfiable
  /-- The bound, and the first amount beyond it that was reached. -/
  | budgetExceeded (limit : Limit) (value : Nat)
deriving DecidableEq

/-- The sentence a failed search is reported with. -/
def SynthesisError.message : SynthesisError → String
  | noExamples => "no examples were provided"
  | unsatisfiable => "no program in the DSL is consistent with the examples"
  | budgetExceeded limit value => s!"search budget exceeded: {limit.name} reached {value}"

/-- The bounds of one search. -/
structure Limits where
  /-- How deep the operators of a learned program may be nested. -/
  maxDepth : Nat := 3
  /-- How many expansions may be counted: specs that are searched, and values that are tried for an
  operand. -/
  maxExpansions : Nat := 250000
  /-- How many milliseconds may have gone by when an expansion is counted. -/
  maxTimeMs : Nat := 5000
  /-- How many spaces are remembered; none counts as one. -/
  cacheCapacity : Nat := 4096
deriving DecidableEq

/-- What a caller asks of a search: the number of programs, and the bounds. -/
structure Config where
  topK : Nat := 4
  limits : Limits := {}
deriving DecidableEq

/-- What the time is during a search: how many milliseconds have gone by when its first expansion is
counted, its second, and so on. Nothing is asked of the readings, not even that they ascend. -/
structure Clock where
  elapsed : Nat → Nat

namespace Clock

/-- The clock where there is none to look at: no time goes by. -/
def stopped : Clock := ⟨fun _ => 0⟩

/-- No expansion that may be counted finds that the time is up. -/
def Within (clock : Clock) (limits : Limits) : Prop :=
  ∀ n, n ≤ limits.maxExpansions → clock.elapsed n ≤ limits.maxTimeMs

theorem stopped_within (limits : Limits) : stopped.Within limits := fun _ _ => Nat.zero_le _

end Clock

/-- A count of expansions, against their bound and against the clock. -/
structure Budget where
  bound : Nat
  maxTimeMs : Nat
  clock : Clock
  spent : Nat := 0

namespace Budget

/-- Nothing spent yet. -/
def ofLimits (limits : Limits) (clock : Clock := .stopped) : Budget where
  bound := limits.maxExpansions
  maxTimeMs := limits.maxTimeMs
  clock := clock

/-- Counts one more expansion, also where the bound is passed already. -/
def tick (b : Budget) : Budget := { b with spent := b.spent + 1 }

/-- The failure of a budget that has passed its bound, or else of one whose time is up. -/
def failure? (b : Budget) : Option SynthesisError :=
  if b.bound < b.spent then some (.budgetExceeded .expansions b.spent)
  else if b.maxTimeMs < b.clock.elapsed b.spent then
    some (.budgetExceeded .time (b.clock.elapsed b.spent))
  else none

end Budget

end ArithLearn
