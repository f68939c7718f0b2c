/-
What becomes of a session's best program when another example is accepted.

In every state a session can be in, its programs are what `synthesize`
gives for its examples (`Reachable.learned`). So they are in the version
space of these, and whether the best one is in that of one example more is
a question about that example alone (`learn_keeps_top`): it is, if the
example by itself derives the program. To give its output is not enough.
Where an operand has a value that is no element, or the only element of
its kind is wanted twice, the program is lost, and it may be that nothing
is left (`learn_rejects_own_output`).
-/
import ArithLearn.Session
import ArithLearn.Proofs.Completeness
import ArithLearn.Proofs.Intersection
import ArithLearn.Proofs.Search.Expansions
import ArithLearn.Proofs.Synthesis

namespace ArithLearn

variable {σ : Type} [Score σ] {config : Config} {clock : Clock}

namespace Session

/-- The states a session can be in: the first one, and those that offering an example or forgetting
them all leaves. To run a program changes nothing. -/
inductive Reachable (config : Config) : Session σ → Prop
  | start : Reachable config { config }
  | learn {s : Session σ} (hs : Reachable config s) (e : Example) (clock : Clock := .stopped) :
      Reachable config (s.learn e clock).2
  | reset {s : Session σ} (hs : Reachable config s) : Reachable config s.reset

theorem learn_result (s : Session σ) (e : Example) (clock : Clock) :
    (s.learn e clock).1.result = synthesize (s.examples ++ [e]) s.config clock := by
  rw [learn_eq]
  unfold synthesize
  cases h : (synthesis (s.examples ++ [e]) s.config clock : Report (List (Ranked σ))).result <;>
    simp [h]

theorem learn_of_ok {s : Session σ} {e : Example} {programs : List (Ranked σ)}
    (h : synthesize (s.examples ++ [e]) s.config clock = .ok programs) :
    (s.learn e clock).2 = { s with examples := s.examples ++ [e], programs } := by
  have h : (synthesis (s.examples ++ [e]) s.config clock : Report (List (Ranked σ))).result =
      .ok programs := h
  rw [learn_eq]
  simp only [h]

theorem learn_of_error {s : Session σ} {e : Example} {error : SynthesisError}
    (h : (synthesize (s.examples ++ [e]) s.config clock :
      Except SynthesisError (List (Ranked σ))) = .error error) : (s.learn e clock).2 = s := by
  have h : (synthesis (s.examples ++ [e]) s.config clock : Report (List (Ranked σ))).result =
      .error error := h
  rw [learn_eq]
  simp only [h]

/-- The programs of a session are those of its examples, by no clock in particular, or it has
neither. -/
theorem Reachable.learned {s : Session σ} (hs : s.Reachable config) : s.config = config ∧
    (s.examples = [] ∧ s.programs = [] ∨ synthesize s.examples config = .ok s.programs) := by
  induction hs with
  | start => exact ⟨rfl, .inl ⟨rfl, rfl⟩⟩
  | @learn s _ e clock ih =>
    obtain ⟨rfl, hprograms⟩ := ih
    cases h : (synthesize (s.examples ++ [e]) s.config clock :
        Except SynthesisError (List (Ranked σ))) with
    | ok programs =>
      rw [learn_of_ok h]
      exact ⟨rfl, .inr (synthesize_of_within h (Clock.stopped_within _))⟩
    | error _ =>
      rw [learn_of_error h]
      exact ⟨rfl, hprograms⟩
  | reset _ ih => exact ⟨ih.1, .inl ⟨rfl, rfl⟩⟩

/-! ### Accumulation -/

variable {s : Session σ} {p : Program}

/-- The best program is in the version space of the examples, and there are examples. -/
theorem Reachable.exists_versionSpace (hs : s.Reachable config) (htop : s.top? = some p) :
    ∃ space, versionSpace s.examples config = .ok space ∧ space.contains p := by
  obtain ⟨r, hr, rfl⟩ : ∃ r, s.programs.head? = some r ∧ r.program = p := by
    simpa [top?] using htop
  have hmem : r ∈ s.programs := List.mem_of_head? hr
  obtain ⟨_, ⟨_, hnil⟩ | hprograms⟩ := hs.learned
  · rw [hnil] at hmem
    cases hmem
  · obtain ⟨space, hspace, hall⟩ := exists_of_synthesize hprograms
    exact ⟨space, hspace, hall r hmem⟩

/-- **The best program outlasts a new example if that example alone derives it, and only then.** A
program that is recoverable on the input and gives the output there is derived. -/
theorem learn_keeps_top (hs : s.Reachable config) (hk : 1 ≤ config.topK) {e : Example}
    (htop : s.top? = some p) (hrun : p.run e.input = .ok e.output) :
    (p.Recoverable e.input →
      Derives [e.input] config.limits.maxDepth (.exact [e.output]) p) ∧
    (Derives [e.input] config.limits.maxDepth (.exact [e.output]) p →
      (s.learn e clock).1.result ≠ .error .unsatisfiable) ∧
    ∀ programs, (s.learn e clock).1.result = .ok programs →
      ∃ space, versionSpace (s.examples ++ [e]) config clock = .ok space ∧
        (space.contains p ↔ Derives [e.input] config.limits.maxDepth (.exact [e.output]) p) := by
  obtain ⟨space, hspace, hp⟩ := hs.exists_versionSpace htop
  have hold := (contains_versionSpace hspace).1 hp
  -- The new space asks of the program what the old one does, and what the new example does.
  have hnew : ∀ space', versionSpace (s.examples ++ [e]) config clock = .ok space' →
      (space'.contains p ↔ Derives [e.input] config.limits.maxDepth (.exact [e.output]) p) := by
    intro space' hspace'
    rw [contains_versionSpace hspace', List.forall_mem_append, List.forall_mem_singleton]
    exact and_iff_right hold
  rw [learn_result, hs.learned.1]
  refine ⟨fun hrec => ?_, fun hderives hfail => ?_, fun programs hprograms => ?_⟩
  · have hdepth : p.depth ≤ config.limits.maxDepth := by
      obtain ⟨hne, _⟩ := versionSpace_eq_ok hspace
      obtain ⟨first, hfirst⟩ := List.exists_mem_of_ne_nil _ hne
      exact (hold first hfirst).depth_le
    have hfits : fits [e] p := Spec.fits_iff.2 (List.forall_mem_singleton.2 hrun)
    exact derives_of_recoverable (by simp) rfl hdepth (List.forall_mem_singleton.2 hrec) hfits
  · cases hspace' : versionSpace (s.examples ++ [e]) config clock with
    | error err =>
      obtain ⟨limit, spent, rfl⟩ := isBudget_of_versionSpace (by simp) hspace'
      rw [synthesize_eq, hspace'] at hfail
      cases hfail
    | ok space' =>
      have hp' := (hnew space' hspace').2 hderives
      rw [(synthesize_eq_topK hspace' hk hp').1] at hfail
      cases hfail
  · obtain ⟨space', hspace', _⟩ := exists_of_synthesize hprograms
    exact ⟨space', hspace', hnew space' hspace'⟩

/-- Where only one program is left, it is the best. -/
theorem top?_learn {e : Example} {space : Graph} (hk : 1 ≤ s.config.topK)
    (h : versionSpace (s.examples ++ [e]) s.config clock = .ok space)
    (hp : space.enumerate = [p]) : (s.learn e clock).2.top? = some p := by
  have hg := extractable_versionSpace h
  have honly : ∀ q, space.contains q ↔ q = p := by
    intro q
    rw [← Space.mem_enumerate hg.rankable.proper, hp, List.mem_singleton]
  obtain ⟨hok, hne⟩ := synthesize_eq_topK h hk ((honly p).2 rfl) (σ := σ)
  obtain ⟨r, rs, hcons⟩ := List.exists_cons_of_ne_nil hne
  have hr : r ∈ (space.topK s.config.topK : List (Ranked σ)) := by simp [hcons]
  rw [learn_of_ok hok, top?, hcons]
  exact congrArg some ((honly _).1 (Space.contains_of_mem_topK hg.coherent hr))

/-! ### An element wanted twice -/

/-- The second element, added to itself. -/
def twice : Program := .sum (.elementAt (.ofNat 1)) (.elementAt (.ofNat 1))

/-- What a session has to find `twice` in. -/
def twiceConfig : Config := { topK := 1, limits := { maxDepth := 2 } }

/-- Two equal elements, so that their sum is found. -/
def threes : Example := ⟨[.ofNat 3, .ofNat 3], .ofNat 6⟩

/-- Two equal elements behind another one, so that no sum is left but that of the second element
with itself. -/
def fives : Example := ⟨[.ofNat 4, .ofNat 5, .ofNat 5], .ofNat 10⟩

/-- A session that was offered both. -/
def twiceSession : Session σ := ((({ config := twiceConfig } : Session σ).learn threes).2.learn fives).2

theorem reachable_twiceSession : (twiceSession : Session σ).Reachable twiceConfig :=
  .learn (.learn .start threes) fives

/-- The session has accepted both examples, and learned from them `twice` and nothing else. -/
theorem twiceSession_learned : (twiceSession : Session σ).config = twiceConfig ∧
    (twiceSession : Session σ).examples = [threes, fives] ∧
      (twiceSession : Session σ).top? = some twice := by
  have hthrees : (versionSpace [threes] twiceConfig).toOption.any (·.contains twice) := by
    decide +kernel
  have hboth : (versionSpace [threes, fives] twiceConfig).toOption.any
      fun space => decide (space.enumerate = [twice]) := by
    decide +kernel
  obtain ⟨space, hspace, hp⟩ := exists_ok_of_any hthrees
  obtain ⟨space', hspace', hp'⟩ := exists_ok_of_any hboth
  let first : Session σ :=
    { config := twiceConfig, examples := [threes], programs := space.topK twiceConfig.topK }
  have hfirst : (({ config := twiceConfig } : Session σ).learn threes).2 = first :=
    learn_of_ok (synthesize_eq_topK hspace (by decide) hp).1
  have hp' := of_decide_eq_true hp'
  have hmem : space'.contains twice := by
    rw [← Space.mem_enumerate (extractable_versionSpace hspace').rankable.proper, hp']
    exact List.mem_singleton_self _
  have hsecond : (first.learn fives).2 =
      { first with examples := [threes, fives], programs := space'.topK twiceConfig.topK } :=
    learn_of_ok (synthesize_eq_topK hspace' (by decide) hmem).1
  have htop : (first.learn fives).2.top? = some twice := top?_learn (Nat.le_refl 1) hspace' hp'
  rw [twiceSession, hfirst]
  exact ⟨by rw [hsecond], by rw [hsecond], htop⟩

/-- **An example is rejected although the best program gives its output.** There is no other element
to add to the second one, so `twice` is not found, nor is anything else. -/
theorem learn_rejects_own_output :
    1 ≤ twiceConfig.topK ∧ (twiceSession : Session Float).Reachable twiceConfig ∧
      (twiceSession : Session Float).top? = some twice ∧
      twice.run [.ofNat 1, .ofNat 5] = .ok (.ofNat 10) ∧
      ((twiceSession : Session Float).learn ⟨[.ofNat 1, .ofNat 5], .ofNat 10⟩).1.result =
        .error .unsatisfiable := by
  obtain ⟨hconfig, hexamples, htop⟩ := twiceSession_learned (σ := Float)
  refine ⟨by decide, reachable_twiceSession, htop, by decide, ?_⟩
  have hempty : (versionSpace [threes, fives, ⟨[.ofNat 1, .ofNat 5], .ofNat 10⟩]
      twiceConfig).toOption.any Space.isEmpty := by
    decide +kernel
  obtain ⟨space, hspace, hempty⟩ := exists_ok_of_any hempty
  rw [learn_result, hconfig, hexamples]
  exact synthesize_of_isEmpty hspace hempty

/-- With a second nine to add to the first, `twice` is derived, and kept. -/
theorem learn_keeps_twice :
    1 ≤ twiceConfig.topK ∧ (twiceSession : Session Float).Reachable twiceConfig ∧
      (twiceSession : Session Float).top? = some twice ∧
      twice.run [.ofNat 8, .ofNat 9, .ofNat 9] = .ok (.ofNat 18) ∧
      Derives [[.ofNat 8, .ofNat 9, .ofNat 9]] 2 (.exact [.ofNat 18]) twice ∧
      ((twiceSession : Session Float).learn ⟨[.ofNat 8, .ofNat 9, .ofNat 9], .ofNat 18⟩).1.result ≠
        .error .unsatisfiable := by
  have hk : 1 ≤ twiceConfig.topK := by
    decide
  have htop : (twiceSession : Session Float).top? = some twice := twiceSession_learned.2.2
  have hrun : twice.run [.ofNat 8, .ofNat 9, .ofNat 9] = .ok (.ofNat 18) := by
    decide
  have hrec : twice.Recoverable [.ofNat 8, .ofNat 9, .ofNat 9] := by
    have hvalue : (Program.elementAt (.ofNat 1)).value? [.ofNat 8, .ofNat 9, .ofNat 9] =
        some (.ofNat 9) := by
      decide
    exact .binary .sum (.elementAt _) (.elementAt _) hvalue hvalue ⟨1, 2, by decide, rfl, rfl⟩
      (by simp)
  obtain ⟨hderives, hkeeps, _⟩ :=
    learn_keeps_top (e := ⟨[.ofNat 8, .ofNat 9, .ofNat 9], .ofNat 18⟩) reachable_twiceSession hk
      htop hrun
  exact ⟨hk, reachable_twiceSession, htop, hrun, hderives hrec, hkeeps (hderives hrec)⟩

end Session

end ArithLearn
