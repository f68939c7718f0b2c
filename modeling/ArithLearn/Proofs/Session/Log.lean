/-
A session and the log of what it was asked.

To offer an example either takes it in or changes nothing, and to run a
program changes nothing. So what a session holds can be read off its calls
and their answers: the examples are those accepted since the last reset
(`examples_ask` for one call), and the programs are what is synthesized
from these. `session_invariant` says so of every sequence of calls, and
what it means for the next one.
-/
import ArithLearn.Proofs.Session
import Mathlib.Data.List.DropRight

namespace ArithLearn

variable {σ : Type}

/-- An example that is offered, and the clock of the search this sets off. -/
structure Offer where
  offered : Example
  clock : Clock := .stopped

/-- What a session can be asked. -/
inductive Call where
  | learn (offer : Offer)
  | run (input : Input)
  | reset

/-- A call with its answer. -/
inductive Entry (σ : Type) where
  | learned (offered : Example) (result : Except SynthesisError (List (Ranked σ)))
  | ran (input : Input) (result : Except SessionError Value)
  | reset

namespace Entry

/-- The example that was accepted, if this was one. -/
def accepted? : Entry σ → Option Example
  | learned offered (.ok _) => some offered
  | learned _ (.error _) | ran _ _ | reset => none

def isReset : Entry σ → Bool
  | reset => true
  | learned _ _ | ran _ _ => false

end Entry

/-- The examples accepted since the last reset, in order. -/
def accepted (log : List (Entry σ)) : List Example :=
  (log.rtakeWhile fun entry => !entry.isReset).filterMap Entry.accepted?

theorem accepted_concat (log : List (Entry σ)) (entry : Entry σ) :
    accepted (log ++ [entry]) =
      if entry.isReset then [] else accepted log ++ entry.accepted?.toList := by
  unfold accepted
  rw [List.rtakeWhile_concat]
  cases entry with
  | reset => rfl
  | ran input result => simp [Entry.isReset, Entry.accepted?]
  | learned offered result => cases result <;> simp [Entry.isReset, Entry.accepted?]

namespace Session

theorem run_eq_noProgramAvailable {s : Session σ} {v : Input} :
    s.run v = .error .noProgramAvailable ↔ s.programs = [] := by
  unfold run top?
  cases s.programs with
  | nil => simp
  | cons r rs =>
    simp only [List.head?_cons, Option.map_some]
    cases r.program.run v <;> simp

variable [Score σ] {config : Config}

/-- What a call leaves behind: an entry of the log, and the session. -/
def ask (s : Session σ) : Call → Entry σ × Session σ
  | .learn o => (.learned o.offered (s.learn o.offered o.clock).1.result,
      (s.learn o.offered o.clock).2)
  | .run v => (.ran v (s.run v), s)
  | .reset => (.reset, s.reset)

/-- The log of a sequence of calls. -/
def log (s : Session σ) : List Call → List (Entry σ)
  | [] => []
  | call :: calls => (s.ask call).1 :: (s.ask call).2.log calls

/-- The session after a sequence of calls. -/
def after (s : Session σ) : List Call → Session σ
  | [] => s
  | call :: calls => (s.ask call).2.after calls

variable {s : Session σ}

/-! ### One call -/

theorem Reachable.ask (hs : s.Reachable config) (call : Call) :
    (s.ask call).2.Reachable config := by
  cases call with
  | learn o => exact .learn hs o.offered o.clock
  | run v => exact hs
  | reset => exact .reset hs

/-- An example is taken in exactly if the answer is that it is learned. -/
theorem examples_ask {log : List (Entry σ)} (h : s.examples = accepted log) (call : Call) :
    (s.ask call).2.examples = accepted (log ++ [(s.ask call).1]) := by
  rw [accepted_concat, ← h]
  cases call with
  | reset => rfl
  | run v => simp [Session.ask, Entry.isReset, Entry.accepted?]
  | learn o =>
    simp only [Session.ask, learn_result]
    cases hresult : (synthesize (s.examples ++ [o.offered]) s.config o.clock :
        Except SynthesisError (List (Ranked σ))) with
    | ok programs => simp [learn_of_ok hresult, Entry.isReset, Entry.accepted?]
    | error error => simp [learn_of_error hresult, Entry.isReset, Entry.accepted?]

/-- A failed offer has one of two causes, and no consequences. -/
theorem learn_eq_error {e : Example} {clock : Clock} {error : SynthesisError}
    (h : (s.learn e clock).1.result = .error error) :
    (error = .unsatisfiable ∨ error.IsBudget) ∧ (s.learn e clock).2 = s := by
  rw [learn_result] at h
  exact ⟨synthesize_eq_error (by simp) h, learn_of_error h⟩

/-! ### What a session holds -/

namespace Reachable

/-- Without examples there are no programs. -/
theorem programs_of_examples_eq_nil (hs : s.Reachable config) (h : s.examples = []) :
    s.programs = [] := by
  obtain ⟨_, ⟨_, hnil⟩ | hprograms⟩ := hs.learned
  · exact hnil
  · obtain ⟨space, _, hspace, _⟩ := synthesize_eq_ok.1 hprograms
    exact absurd h (versionSpace_eq_ok hspace).1

/-- With examples, the programs are what is synthesized from them. -/
theorem synthesize_examples (hs : s.Reachable config) (h : s.examples ≠ []) :
    synthesize s.examples config = .ok s.programs := by
  obtain ⟨_, ⟨hnil, _⟩ | hprograms⟩ := hs.learned
  · exact absurd hnil h
  · exact hprograms

/-- They are so by every clock by which any are. -/
theorem programs_eq (hs : s.Reachable config) {clock : Clock} {programs : List (Ranked σ)}
    (h : synthesize s.examples config clock = .ok programs) : s.programs = programs := by
  obtain ⟨_, _, hspace, _⟩ := synthesize_eq_ok.1 h
  have hstopped := synthesize_of_within h (Clock.stopped_within _)
  rw [hs.synthesize_examples (versionSpace_eq_ok hspace).1] at hstopped
  exact Except.ok.inj hstopped

/-- Every program gives the output of every example. -/
theorem run_program (hs : s.Reachable config) {r : Ranked σ} (hr : r ∈ s.programs) {e : Example}
    (he : e ∈ s.examples) : r.program.run e.input = .ok e.output := by
  obtain ⟨space, hspace, hall⟩ :=
    exists_of_synthesize (hs.synthesize_examples (List.ne_nil_of_mem he))
  exact Spec.fits_iff.1 (fits_of_contains hspace (hall r hr)) e he

/-- There is a program if there are examples, unless none is wanted. -/
theorem programs_eq_nil (hs : s.Reachable config) :
    s.programs = [] ↔ s.examples = [] ∨ config.topK = 0 := by
  by_cases h : s.examples = []
  · exact iff_of_true (hs.programs_of_examples_eq_nil h) (.inl h)
  · obtain ⟨space, p, hspace, hp, hprograms⟩ := synthesize_eq_ok.1 (hs.synthesize_examples h)
    rw [hprograms, or_iff_right h]
    constructor
    · intro hnil
      by_contra hk
      exact topK_ne_nil_of_contains hspace hp (by omega) hnil
    · intro hk
      rw [hk]
      rfl

end Reachable

/-! ### Sequences of calls -/

theorem after_of_log (log : List (Entry σ)) (hs : s.Reachable config)
    (h : s.examples = accepted log) (calls : List Call) :
    (s.after calls).Reachable config ∧
      (s.after calls).examples = accepted (log ++ s.log calls) := by
  induction calls generalizing s log with
  | nil => exact ⟨hs, by simpa [after, Session.log] using h⟩
  | cons call calls ih =>
    have hrest := ih _ (hs.ask call) (examples_ask h call)
    rw [List.append_assoc] at hrest
    exact hrest

/-- **What a session holds, after any sequence of calls**, each search by a clock of its own: the
examples accepted since the last reset, and with them, if there are any, the programs synthesized
from them, by whatever clock they are, each of which gives the output of every example. The answer to
an offer is what is synthesized with the new example. An offer that fails, because nothing fits or
because the search went too far, changes nothing, and neither does running a program. There is no
program to run exactly if no example was accepted since the last reset, or no programs are wanted. -/
theorem session_invariant (config : Config) (calls : List Call) :
    let log := ({ config } : Session σ).log calls
    let s := ({ config } : Session σ).after calls
    s.config = config ∧ s.examples = accepted log ∧
      (s.examples = [] → s.programs = []) ∧
      (s.examples ≠ [] → synthesize s.examples config = .ok s.programs) ∧
      (∀ clock programs, synthesize s.examples config clock = .ok programs → s.programs = programs) ∧
      (∀ r ∈ s.programs, ∀ e ∈ s.examples, r.program.run e.input = .ok e.output) ∧
      (∀ e clock, (s.learn e clock).1.result = synthesize (s.examples ++ [e]) config clock) ∧
      (∀ e clock error, (s.learn e clock).1.result = .error error →
        (error = .unsatisfiable ∨ error.IsBudget) ∧ (s.learn e clock).2 = s) ∧
      (∀ v, (s.ask (.run v)).2 = s) ∧
      ∀ v, s.run v = .error .noProgramAvailable ↔ accepted log = [] ∨ config.topK = 0 := by
  intro log s
  obtain ⟨hs, hexamples⟩ : s.Reachable config ∧ s.examples = accepted log :=
    after_of_log [] .start rfl calls
  refine ⟨hs.learned.1, hexamples, hs.programs_of_examples_eq_nil, hs.synthesize_examples,
    fun clock programs h => hs.programs_eq h, fun r hr e he => hs.run_program hr he,
    fun e clock => ?_, fun e clock error h => learn_eq_error h, fun v => rfl, fun v => ?_⟩
  · rw [learn_result, hs.learned.1]
  · rw [run_eq_noProgramAvailable, hs.programs_eq_nil, hexamples]

end Session

end ArithLearn
