/-
A demonstration on the terminal: a session that learns from two examples and is asked for more,
and a few random tasks that are learned from their examples.
-/
import ArithLearn.Program.Text
import ArithLearn.Session
import ArithLearn.Task

namespace ArithLearn.Demo

/-- The values of a list of small numbers. -/
def values (ns : List Nat) : Input := ns.map .ofNat

/-- An input as it is shown. -/
def shown (v : Input) : String := "[" ++ ", ".intercalate (v.map toString) ++ "]"

/-- Offers an example, and shows the programs learned. -/
def teach (session : Session Nat) (e : Example) : IO (Session Nat) := do
  let (report, session) := session.learn e
  match report.result with
  | .error e => IO.println s!"error: {e.message}"
  | .ok programs =>
    for (r, i) in programs.zipIdx 1 do
      IO.println s!"program {i} (score {r.score}): {r.program}"
  pure session

/-- Runs the best program on an input. -/
def ask (session : Session Nat) (v : Input) : IO Unit :=
  match session.run v with
  | .ok n => IO.println s!"{shown v} -> {n}"
  | .error e => IO.println s!"error: {shown v}: {e.message}"

/-- The best program for all of the examples. -/
def bestFor (examples : List Example) : Except SynthesisError (Option Program) := do
  let session : Session Nat := { config := { topK := 1 } }
  let session ← examples.foldlM (fun s e => do
    let (report, s) := s.learn e
    let _ ← report.result
    pure s) session
  pure session.top?

/-- Learns a random task, and shows what was hidden and what was learned. -/
def learnTask (task : Task) : IO Unit :=
  match bestFor task.examples with
  | .ok (some p) => IO.println s!"hidden {task.program} learned as {p}"
  | .ok none => IO.println s!"error: hidden {task.program}: nothing learned"
  | .error e => IO.println s!"error: hidden {task.program}: {e.message}"

/-- The demonstration. -/
def run : IO Unit := do
  let mut session : Session Nat := { config := {} }
  session ← teach session ⟨values [1, 2, 3, 4], .ofNat 7⟩
  session ← teach session ⟨values [2, 4, 6, 8], .ofNat 14⟩
  ask session (values [10, 20, 30, 40])
  ask session (values [1])
  let generator := Generator.ofSize 5 (.ofNat 9)
  let seed ← IO.rand 0 0xffffffffffffffff
  let (tasks, _) := (times (generator.simpleTask 2) 3).run (.ofSeed seed.toUInt64)
  for task in tasks do
    match task with
    | some task => learnTask task
    | none => IO.println "error: a value is out of range"

end ArithLearn.Demo

def main : IO Unit := ArithLearn.Demo.run
