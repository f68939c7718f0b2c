/-
A session: examples are offered one at a time, and programs are learned from all that were
accepted.

An example is accepted if some program fits it together with those before. It is among them while
the search goes on, and is taken back if that fails.
-/
import ArithLearn.Synthesis

namespace ArithLearn

/-- Why a session has no answer. -/
inductive SessionError where
  | synthesis (error : SynthesisError)
  | execution (fault : Fault)
  | noProgramAvailable
deriving DecidableEq

/-- The sentence an error is reported with. -/
def SessionError.message : SessionError → String
  | synthesis e => e.message
  | execution f => f.message
  | noProgramAvailable => "no program was synthesized; provide examples first"

/-- The accepted examples, and the programs learned from them, best first. -/
structure Session (σ : Type) where
  config : Config
  examples : List Example := []
  programs : List (Ranked σ) := []

namespace Session

variable {σ : Type}

/-- The session with one example more, and the programs it had. -/
def push (s : Session σ) (e : Example) : Session σ := { s with examples := s.examples ++ [e] }

/-- The last example, if there is one, and the session without it. -/
def pop (s : Session σ) : Option Example × Session σ :=
  (s.examples.getLast?, { s with examples := s.examples.dropLast })

@[simp]
theorem pop_push (s : Session σ) (e : Example) : (s.push e).pop = (some e, s) := by
  simp [push, pop]

variable [Score σ]

/-- Offers an example. -/
def learn (s : Session σ) (offered : Example) (clock : Clock := .stopped) :
    Report (List (Ranked σ)) × Session σ :=
  let pushed := s.push offered
  let report : Report (List (Ranked σ)) := synthesis pushed.examples pushed.config clock
  match report.result with
  | .ok programs =>
    let top := (programs.head?.map fun r => Event.top r.program).toList
    let events := report.events ++ .learned programs.length pushed.examples.length :: top
    (⟨.ok programs, events⟩, { pushed with programs })
  | .error e =>
    let (popped?, restored) := pushed.pop
    let rejected := popped?.toList.map (Event.rejected · e)
    (⟨.error e, report.events ++ rejected⟩, restored)

/-- What becomes of an offer: if it fails, the session is left as it was. -/
theorem learn_eq (s : Session σ) (offered : Example) (clock : Clock) : s.learn offered clock =
    let examples := s.examples ++ [offered]
    let report : Report (List (Ranked σ)) := synthesis examples s.config clock
    match report.result with
    | .ok programs =>
      let top := (programs.head?.map fun r => Event.top r.program).toList
      let events := report.events ++ .learned programs.length examples.length :: top
      (⟨.ok programs, events⟩, { s with examples, programs })
    | .error e => (⟨.error e, report.events ++ [.rejected offered e]⟩, s) := by
  unfold learn
  simp only [pop_push]
  rfl

/-- The best program. -/
def top? (s : Session σ) : Option Program := s.programs.head?.map (·.program)

/-- The value of the best program on an input. -/
def run (s : Session σ) (v : Input) : Except SessionError Value :=
  match s.top? with
  | none => .error .noProgramAvailable
  | some p =>
    match p.run v with
    | .ok n => .ok n
    | .error f => .error (.execution f)

/-- The session without its examples and programs. -/
def reset (s : Session σ) : Session σ := { s with examples := [], programs := [] }

end Session

end ArithLearn
