/-
An example that is offered again.

A session takes an example in as often as it is offered, and searches anew
each time. The search has a state more to work on, and yet counts as many
expansions and ends with the same graph (`explore_echo`), and so its best
programs are the same, in the same order.

It does not follow that it takes no longer. A search looks at the clock when
it counts an expansion, and so may fail for the time it takes where the one
before did not. Nothing else can come between (`Session.learn_again`).
-/
import ArithLearn.Proofs.Echo.Search
import ArithLearn.Proofs.Session.Log

namespace ArithLearn

variable {σ : Type} [Score σ] {config : Config} {clock : Clock}

/-- What is synthesized from some examples is synthesized from these and one of them again. -/
theorem synthesize_echo {examples : List Example} {programs : List (Ranked σ)} (j : Nat)
    (h : synthesize examples config clock = .ok programs) :
    synthesize (echo j examples) config clock = .ok programs := by
  obtain ⟨space, p, hspace, hp, hprograms⟩ := synthesize_eq_ok.1 h
  obtain ⟨hne, _⟩ := versionSpace_eq_ok hspace
  have hecho := (explore_echo (j := j) hne config clock).2
  rw [hspace] at hecho
  cases hspace' : versionSpace (echo j examples) config clock with
  | error error =>
    rw [hspace'] at hecho
    cases hecho
  | ok space' =>
    rw [hspace'] at hecho
    cases hecho
    exact synthesize_eq_ok.2 ⟨space, p, hspace', hp, hprograms⟩

namespace Session

variable {s : Session σ} {e : Example}

/-- The example is accepted, after as many expansions as were counted for those the session has. The
programs are those it has, in the same order and with the same scores, and nothing changes but the
number of examples. -/
structure Repeats (s : Session σ) (e : Example) (clock : Clock) : Prop where
  result : (s.learn e clock).1.result = .ok s.programs
  session : (s.learn e clock).2 = { s with examples := s.examples ++ [e] }
  expansions : (explore (s.examples ++ [e]) s.config clock).expansions =
    (explore s.examples s.config).expansions

/-- **To offer an accepted example again changes nothing but the number of examples**, as long as the
time is not up. If it is, at one of the expansions that were counted before, then that is the error,
and not even the number changes. -/
theorem learn_again (hs : s.Reachable config) (he : e ∈ s.examples) (clock : Clock) :
    (clock.Within config.limits → s.Repeats e clock) ∧
      (s.Repeats e clock ∨
        ∃ n, n ≤ (explore s.examples config).expansions ∧
          config.limits.maxTimeMs < clock.elapsed n ∧
          (s.learn e clock).1.result = .error (.budgetExceeded .time (clock.elapsed n)) ∧
          (s.learn e clock).2 = s) := by
  obtain ⟨rfl, _⟩ := hs.learned
  have hne : s.examples ≠ [] := List.ne_nil_of_mem he
  obtain ⟨j, hj⟩ := List.getElem?_of_mem he
  have hecho : s.examples ++ [e] = echo j s.examples := by rw [echo, hj, Option.toList_some]
  have hcount : (explore (s.examples ++ [e]) s.config).expansions =
      (explore s.examples s.config).expansions := by
    rw [hecho]
    exact (explore_echo hne s.config .stopped).1
  have hok : synthesize (s.examples ++ [e]) s.config = .ok s.programs := by
    rw [hecho]
    exact synthesize_echo j (hs.synthesize_examples hne)
  have hclock := synthesize_clock hok clock
  rw [hcount, ← learn_result] at hclock
  rcases hclock with ⟨hresult, hsame⟩ | ⟨n, hn, hbound, hlate, hfail⟩
  · have hrepeats : s.Repeats e clock :=
      ⟨hresult, learn_of_ok ((learn_result s e clock).symm.trans hresult), hsame⟩
    exact ⟨fun _ => hrepeats, .inl hrepeats⟩
  · refine ⟨fun hwithin => absurd (hwithin n hbound) (Nat.not_le.2 hlate), .inr ?_⟩
    exact ⟨n, hn, hlate, hfail, learn_of_error ((learn_result s e clock).symm.trans hfail)⟩

/-- A session that has learned `twice` and nothing else has so still when it is offered the first of
its examples again, and the search takes a millisecond for fifty expansions. -/
theorem learn_again_twice :
    let clock : Clock := ⟨fun n => n / 50⟩
    (twiceSession : Session Float).Reachable twiceConfig ∧
      threes ∈ (twiceSession : Session Float).examples ∧ clock.Within twiceConfig.limits ∧
      ((twiceSession : Session Float).learn threes clock).1.result =
        .ok (twiceSession : Session Float).programs ∧
      ((twiceSession : Session Float).learn threes clock).2.examples = [threes, fives, threes] ∧
      ((twiceSession : Session Float).learn threes clock).2.top? = some twice := by
  intro clock
  obtain ⟨_, hexamples, htop⟩ := twiceSession_learned (σ := Float)
  have he : threes ∈ (twiceSession : Session Float).examples := by
    rw [hexamples]
    exact List.mem_cons_self
  have hwithin : clock.Within twiceConfig.limits := fun n hn => by
    have hn : n ≤ 250000 := hn
    exact show n / 50 ≤ 5000 by omega
  obtain ⟨hresult, hafter, _⟩ := (learn_again reachable_twiceSession he clock).1 hwithin
  refine ⟨reachable_twiceSession, he, hwithin, hresult, ?_, ?_⟩
  · rw [hafter, hexamples]
    rfl
  · unfold top? at htop ⊢
    rw [hafter, htop]

end Session

end ArithLearn
