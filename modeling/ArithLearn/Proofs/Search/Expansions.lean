/-
How many expansions a search takes, and the one way it fails.

A search looks at the bound on its expansions and at the clock nowhere but
where it counts one. So it goes the same way under every budget, up to the
first count that is refused (`Metered`), whatever is remembered or forgotten
on the way. There is a number of expansions that it takes wherever it may:
if all of these are allowed it ends with the space it always ends with, and
else it fails with the first that is not (`explore_takes`). While the time
is not up this is a threshold for the bound (`versionSpace_threshold`), and
under one bound it tells what a clock can do (`versionSpace_clock`).

Nothing else in a search fails (`isBudget_of_versionSpace`). That no program
fits is no failure: the search ends with an empty space.
-/
import ArithLearn.Synthesis

namespace ArithLearn

/-- More expansions were counted than allowed, or the time was up. -/
def SynthesisError.IsBudget (e : SynthesisError) : Prop :=
  ∃ limit spent, e = .budgetExceeded limit spent

/-! ### Counts that are refused -/

namespace Budget

variable {b : Budget} {s t u n : Nat} {e : SynthesisError}

/-- The failure a count is refused with. -/
def refusal? (b : Budget) (n : Nat) : Option SynthesisError := { b with spent := n }.failure?

theorem refusal?_eq (b : Budget) (n : Nat) : b.refusal? n =
    if b.bound < n then some (.budgetExceeded .expansions n)
    else if b.maxTimeMs < b.clock.elapsed n then
      some (.budgetExceeded .time (b.clock.elapsed n))
    else none :=
  rfl

theorem refusal?_eq_none : b.refusal? n = none ↔ n ≤ b.bound ∧ b.clock.elapsed n ≤ b.maxTimeMs := by
  rw [refusal?_eq]
  split
  · exact iff_of_false (by simp) (by omega)
  · split
    · exact iff_of_false (by simp) (by omega)
    · exact iff_of_true rfl (by omega)

theorem isBudget_of_refusal? (h : b.refusal? n = some e) : e.IsBudget := by
  rw [refusal?_eq] at h
  split at h
  · exact ⟨_, _, (Option.some.inj h).symm⟩
  · split at h
    · exact ⟨_, _, (Option.some.inj h).symm⟩
    · cases h

/-- Up to the bound it is the clock that a count is refused by. -/
theorem lt_elapsed_of_refusal? (hn : n ≤ b.bound) (h : b.refusal? n = some e) :
    b.maxTimeMs < b.clock.elapsed n ∧ e = .budgetExceeded .time (b.clock.elapsed n) := by
  rw [refusal?_eq, if_neg (Nat.not_lt.2 hn)] at h
  split at h
  · exact ⟨‹_›, (Option.some.inj h).symm⟩
  · cases h

/-- No count is refused from the one after `s` up to `t`. -/
def Allows (b : Budget) (s t : Nat) : Prop := ∀ n, s < n → n ≤ t → b.refusal? n = none

/-- From the count after `s` up to `t` some are refused, the first of them with this failure. -/
def Refuses (b : Budget) (s t : Nat) (e : SynthesisError) : Prop :=
  ∃ n, s < n ∧ n ≤ t ∧ b.refusal? n = some e ∧ ∀ m, s < m → m < n → b.refusal? m = none

/-- Counts that are made in two steps are allowed in each. -/
theorem Allows.split (h : b.Allows s u) (hst : s ≤ t) (htu : t ≤ u) :
    b.Allows s t ∧ b.Allows t u :=
  ⟨fun n hs ht => h n hs (by omega), fun n ht hu => h n (by omega) hu⟩

/-- Of counts that are made in two steps the first to be refused is in the one or the other. -/
theorem Refuses.split (h : b.Refuses s u e) (hst : s ≤ t) :
    b.Refuses s t e ∨ b.Allows s t ∧ b.Refuses t u e := by
  obtain ⟨n, hs, hu, hn, hfirst⟩ := h
  rcases Nat.lt_or_ge t n with ht | ht
  · exact .inr ⟨fun m hm hle => hfirst m hm (by omega),
      n, ht, hu, hn, fun m hm hlt => hfirst m (by omega) hlt⟩
  · exact .inl ⟨n, hs, ht, hn, hfirst⟩

/-- If not all counts are allowed, one of them is the first to be refused. -/
theorem allows_or_refuses (b : Budget) (s t : Nat) : b.Allows s t ∨ ∃ e, b.Refuses s t e := by
  induction t with
  | zero => exact .inl fun n hs ht => by omega
  | succ t ih =>
    rcases ih with hall | ⟨e, n, hs, ht, hn, hfirst⟩
    · by_cases hst : s < t + 1
      · cases hnext : b.refusal? (t + 1) with
        | none =>
          refine .inl fun n hs ht => ?_
          rcases Nat.lt_or_eq_of_le ht with ht | rfl
          · exact hall n hs (by omega)
          · exact hnext
        | some e =>
          exact .inr ⟨e, t + 1, hst, Nat.le_refl _, hnext, fun m hs hlt => hall m hs (by omega)⟩
      · exact .inl fun n hs ht => by omega
    · exact .inr ⟨e, n, hs, by omega, hn, hfirst⟩

end Budget

namespace Search

variable {α β : Type}

/-- The state under another budget, with the same count. -/
def under (s : Search) (b : Budget) : Search :=
  { s with budget := { b with spent := s.budget.spent } }

theorem attempt_bind (x : SearchM α) (f : α → SearchM β) (s : Search) :
    attempt (x >>= f) s =
      match attempt x s with
      | (.ok a, t) => attempt (f a) t
      | (.error e, t) => (.error e, t) := by
  unfold attempt
  rw [ExceptT.run_bind, StateT.run_bind]
  simp only [Bind.bind]
  rcases x.run.run s with ⟨e | a, t⟩ <;> rfl

theorem attempt_tick (s : Search) :
    attempt tick s =
      (match s.budget.tick.failure? with
        | some e => .error e
        | none => .ok (),
        { s with budget := s.budget.tick }) := by
  have hrun : attempt tick s =
      attempt (match s.budget.tick.failure? with | some e => throw e | none => pure ())
        { s with budget := s.budget.tick } := rfl
  rw [hrun]
  cases s.budget.tick.failure? <;> rfl

/-! ### Steps that go one way under every budget -/

/-- Under every budget the step goes from `s` to `a` and `t`, unless a count on the way is refused;
then it fails as the first that is. -/
structure Takes (x : SearchM α) (s : Search) (a : α) (t : Search) : Prop where
  le : s.budget.spent ≤ t.budget.spent
  allowed : ∀ b : Budget, b.Allows s.budget.spent t.budget.spent →
    attempt x (s.under b) = (.ok a, t.under b)
  refused : ∀ (b : Budget) (e : SynthesisError), b.Refuses s.budget.spent t.budget.spent e →
    (attempt x (s.under b)).1 = .error e

/-- One step after the other makes the counts of both. -/
theorem Takes.bind {x : SearchM α} {f : α → SearchM β} {s t u : Search} {a : α} {b : β}
    (hx : Takes x s a t) (hf : Takes (f a) t b u) : Takes (x >>= f) s b u := by
  refine ⟨Nat.le_trans hx.le hf.le, fun b h => ?_, fun b e h => ?_⟩
  · obtain ⟨hst, htu⟩ := h.split hx.le hf.le
    rw [attempt_bind, hx.allowed b hst]
    exact hf.allowed b htu
  · rw [attempt_bind]
    rcases h.split hx.le with hst | ⟨hst, htu⟩
    · have hfail := hx.refused b e hst
      rcases hrun : attempt x (s.under b) with ⟨e' | a', t'⟩
      · rw [hrun] at hfail
        exact congrArg Except.error (Except.error.inj hfail)
      · rw [hrun] at hfail
        cases hfail
    · rw [hx.allowed b hst]
      exact hf.refused b e htu

/-- From every state the step goes one way, as far as the budget lets it. -/
def Metered (x : SearchM α) : Prop := ∀ s, ∃ a t, Takes x s a t

namespace Metered

theorem bind {x : SearchM α} {f : α → SearchM β} (hx : Metered x) (hf : ∀ a, Metered (f a)) :
    Metered (x >>= f) := by
  intro s
  obtain ⟨a, t, hx⟩ := hx s
  obtain ⟨b, u, hf⟩ := hf a t
  exact ⟨b, u, hx.bind hf⟩

/-- A step that counts nothing and does not look at the budget. -/
theorem of_eq {x : SearchM α} (result : Search → α) (next : Search → Search)
    (hbudget : ∀ s, (next s).budget = s.budget)
    (h : ∀ s b, attempt x (s.under b) = (.ok (result s), (next s).under b)) : Metered x := by
  intro s
  have heq : (next s).budget.spent = s.budget.spent := congrArg Budget.spent (hbudget s)
  refine ⟨result s, next s, Nat.le_of_eq heq.symm, fun b _ => h s b, fun b e hrefuses => ?_⟩
  obtain ⟨n, hs, ht, _⟩ := hrefuses
  omega

theorem pure (a : α) : Metered (pure a : SearchM α) :=
  .of_eq (fun _ => a) id (fun _ => rfl) fun _ _ => rfl

theorem mapM {f : α → SearchM β} {xs : List α} (h : ∀ x ∈ xs, Metered (f x)) :
    Metered (xs.mapM f) := by
  induction xs with
  | nil => exact pure []
  | cons x xs ih =>
    rw [List.mapM_cons]
    have hxs : Metered (xs.mapM f) := ih fun y hy => h y (by simp [hy])
    exact .bind (h x (by simp)) fun b => .bind hxs fun bs => .pure (b :: bs)

/-- To look at the state counts nothing. What is done then must not depend on the budget. -/
theorem get_bind {f : Search → SearchM α} (h : ∀ s, Metered (f s))
    (hunder : ∀ s b, f (s.under b) = f s) : Metered (get >>= f) := by
  intro s
  obtain ⟨a, t, hf⟩ := h s s
  have hrun : ∀ b, attempt (get >>= f) (s.under b) = attempt (f s) (s.under b) := by
    intro b
    rw [← hunder s b]
    rfl
  refine ⟨a, t, hf.le, fun b hallows => ?_, fun b e hrefuses => ?_⟩
  · rw [hrun]
    exact hf.allowed b hallows
  · rw [hrun]
    exact hf.refused b e hrefuses

theorem modify {f : Search → Search} (hbudget : ∀ s, (f s).budget = s.budget)
    (hunder : ∀ s b, f (s.under b) = (f s).under b) :
    Metered (modify f : SearchM Unit) :=
  .of_eq (fun _ => ()) f hbudget fun s b => by rw [← hunder]; rfl

theorem clustering (step : StateM Clusterer α) : Metered (clustering step) :=
  .of_eq (fun s => (step.run s.clusterer).1)
    (fun s => { s with clusterer := (step.run s.clusterer).2 }) (fun _ => rfl) fun _ _ => rfl

theorem fresh : Metered fresh := .clustering _

theorem tell (e : Event) : Metered (tell e) := .modify (fun _ => rfl) fun _ _ => rfl

/-- Here, and only here, an expansion is counted, and the bound and the clock are looked at. -/
theorem tick : Metered tick := by
  intro s
  have hrun : ∀ b : Budget, attempt Search.tick (s.under b) =
      (match b.refusal? (s.budget.spent + 1) with
        | some e => .error e
        | none => .ok (),
        ({ s with budget := s.budget.tick } : Search).under b) := fun b => attempt_tick (s.under b)
  refine ⟨(), { s with budget := s.budget.tick }, Nat.le_succ _, fun b h => ?_, fun b e h => ?_⟩
  · rw [hrun, h _ (Nat.lt_succ_self _) (Nat.le_refl _)]
  · obtain ⟨n, hs, ht, hn, _⟩ := h
    obtain rfl : n = s.budget.spent + 1 := Nat.le_antisymm ht hs
    rw [hrun, hn]

/-! ### The search -/

theorem remembered (goal : Goal) {build : SearchM Graph} (h : Metered build) :
    Metered (remembered goal build) := by
  unfold Search.remembered
  split
  · exact .bind .fresh fun _ => .pure _
  refine .get_bind (fun s => ?_) fun _ _ => rfl
  split
  · exact .bind (.modify (fun _ => rfl) fun _ _ => rfl) fun _ => .pure _
  · exact .bind .tick fun _ => .bind h fun space =>
      .bind (.modify (fun _ => rfl) fun _ _ => rfl) fun _ => .pure space

theorem literals (spec : Spec) : Metered (literals spec) := .bind .fresh fun _ => .pure _

variable {states : List Input} {lower : Symbol → Spec → SearchM Graph}

theorem params {o : Operator} {spec : Spec} (hl : ∀ symbol spec, Metered (lower symbol spec))
    (searched : List (Nat × Symbol × Witness)) (children : List Graph)
    (chosen : List (Nat × List Value)) :
    Metered (params states lower o spec searched children chosen) := by
  induction searched generalizing children chosen with
  | nil => exact .bind .fresh fun _ => .pure _
  | cons param rest ih =>
    obtain ⟨i, symbol, w⟩ := param
    unfold Search.params
    split
    · exact .pure []
    split
    · exact .pure []
    refine .bind (hl _ _) fun space => ?_
    split
    · exact .pure []
    split
    · exact .bind (.clustering _) fun clusters =>
        .bind (.mapM fun c _ => .bind .tick fun _ => ih _ _) fun joins => .pure _
    · exact ih _ _

theorem operator {o : Operator} {spec : Spec} (hl : ∀ symbol spec, Metered (lower symbol spec)) :
    Metered (operator states lower o spec) := by
  refine .bind .fresh fun l => .bind (.params hl _ _ _) fun joins => ?_
  split
  · exact .bind (.tell _) fun _ => .bind .fresh fun _ => .pure _
  · exact .bind .fresh fun _ => .pure _

theorem level {operators? : Option (Op → Spec → SearchM Graph)} (goal : Goal)
    (ho : ∀ operators, operators? = some operators → ∀ op spec, Metered (operators op spec)) :
    Metered (level operators? goal) := by
  refine .remembered goal ?_
  split
  · exact .bind .fresh fun _ => .pure _
  · exact .literals _
  refine .bind (.mapM fun production _ => ?_) fun members => .bind .fresh fun _ => .pure _
  unfold contribution
  cases production with
  | literal => exact .bind (.remembered _ (.literals _)) fun _ => .pure _
  | op op =>
    cases operators? with
    | none => exact .pure []
    | some operators => exact .bind (ho operators rfl op _) fun _ => .pure _

/-- **A search goes one way under every budget**, up to the first count that is refused. -/
theorem learn (depth : Nat) (symbol : Symbol) (spec : Spec) :
    Metered (learn states depth symbol spec) := by
  induction depth generalizing symbol spec with
  | zero => exact .level _ (by simp)
  | succ depth ih =>
    refine .level _ fun operators h op spec => ?_
    cases h
    exact .operator ih

/-- A metered step fails because a count is refused or not at all. -/
theorem isBudget {x : SearchM α} (hx : Metered x) {s : Search} {e : SynthesisError}
    (h : (attempt x s).1 = .error e) : e.IsBudget := by
  obtain ⟨a, t, htakes⟩ := hx s
  have hself : s.under s.budget = s := rfl
  rcases s.budget.allows_or_refuses s.budget.spent t.budget.spent with hallows | ⟨e', hrefuses⟩
  · have hok := htakes.allowed s.budget hallows
    rw [hself] at hok
    rw [hok] at h
    cases h
  · have hfail := htakes.refused s.budget e' hrefuses
    rw [hself, h] at hfail
    obtain rfl := Except.error.inj hfail
    obtain ⟨n, _, _, hn, _⟩ := hrefuses
    exact Budget.isBudget_of_refusal? hn

end Metered

end Search

/-! ### Version spaces -/

variable {examples : List Example} {config : Config} {clock : Clock} {space : Graph}

/-- **With examples to learn from, a search for a version space fails by its budget or not at
all.** -/
theorem isBudget_of_versionSpace (hne : examples ≠ []) {e : SynthesisError}
    (h : versionSpace examples config clock = .error e) : e.IsBudget := by
  cases examples with
  | nil => exact absurd rfl hne
  | cons first rest => exact (Search.Metered.learn _ _ _).isBudget h

/-- The same settings with another bound on the expansions. -/
def Config.allowing (config : Config) (bound : Nat) : Config :=
  { config with limits := { config.limits with maxExpansions := bound } }

/-- For the examples, the depth and the room for spaces there is a space, and a number of expansions
that the search counts where it is not stopped. -/
theorem explore_takes (hne : examples ≠ []) (config : Config) : ∃ space needed, ∀ bound clock,
    ((Budget.ofLimits (config.allowing bound).limits clock).Allows 0 needed →
      versionSpace examples (config.allowing bound) clock = .ok space ∧
        (explore examples (config.allowing bound) clock).expansions = needed) ∧
    ∀ e, (Budget.ofLimits (config.allowing bound).limits clock).Refuses 0 needed e →
      versionSpace examples (config.allowing bound) clock = .error e := by
  cases examples with
  | nil => exact absurd rfl hne
  | cons first rest =>
    have hmetered : Search.Metered (Search.learn ((first :: rest).map (·.input))
        config.limits.maxDepth .start (.exact ((first :: rest).map (·.output)))) := .learn _ _ _
    obtain ⟨space, final, htakes⟩ := hmetered (.start config.limits)
    refine ⟨space, final.budget.spent, fun bound clock => ⟨fun h => ?_, fun e h => ?_⟩⟩
    · have hrun := htakes.allowed _ h
      exact ⟨congrArg Prod.fst hrun, congrArg (fun r => r.2.budget.spent) hrun⟩
    · exact htakes.refused _ e h

/-- **A version space takes a fixed number of expansions.** For the examples, the depth and the room
for spaces there is a space, and a number of expansions that the search counts where it is not
stopped. As long as the time is not up, the search finds that very space under every bound that
allows these, however high, and counts that number; under every other bound it fails with the first
count that is not allowed. -/
theorem versionSpace_threshold (hne : examples ≠ []) (config : Config) :
    ∃ space needed, ∀ bound clock, clock.Within (config.allowing bound).limits →
      (needed ≤ bound → versionSpace examples (config.allowing bound) clock = .ok space ∧
        (explore examples (config.allowing bound) clock).expansions = needed) ∧
      (bound < needed → versionSpace examples (config.allowing bound) clock =
        .error (.budgetExceeded .expansions (bound + 1))) := by
  obtain ⟨space, needed, htakes⟩ := explore_takes hne config
  refine ⟨space, needed, fun bound clock hwithin => ?_⟩
  obtain ⟨hallowed, hrefused⟩ := htakes bound clock
  have hnone : ∀ n, n ≤ bound →
      (Budget.ofLimits (config.allowing bound).limits clock).refusal? n = none :=
    fun n hn => Budget.refusal?_eq_none.2 ⟨hn, hwithin n hn⟩
  constructor
  · exact fun h => hallowed fun n _ hn => hnone n (by omega)
  · refine fun h => hrefused _ ⟨bound + 1, by omega, h, ?_, fun m _ hm => hnone m (by omega)⟩
    exact if_pos (Nat.lt_succ_self bound)

/-- To make 3 of the elements 1 and 2 takes thirty expansions where there is room for four spaces, by
a clock that is a millisecond on at each of them until five seconds are over. -/
theorem versionSpace_threshold_thirty :
    let examples : List Example := [⟨[.ofNat 1, .ofNat 2], .ofNat 3⟩]
    let config : Config := { limits := { maxDepth := 2, cacheCapacity := 4 } }
    let clock : Clock := ⟨fun n => min n 5000⟩
    (∀ bound, clock.Within (config.allowing bound).limits) ∧
    ∃ space,
      (∀ bound, 30 ≤ bound → versionSpace examples (config.allowing bound) clock = .ok space ∧
        (explore examples (config.allowing bound) clock).expansions = 30) ∧
      ∀ bound, bound < 30 → versionSpace examples (config.allowing bound) clock =
        .error (.budgetExceeded .expansions (bound + 1)) := by
  intro examples config clock
  have hne : examples ≠ [] := by
    decide
  have hwithin : ∀ bound, clock.Within (config.allowing bound).limits :=
    fun _ n _ => Nat.min_le_right n 5000
  obtain ⟨space, needed, h⟩ := versionSpace_threshold hne config
  have h := fun bound => h bound clock (hwithin bound)
  have hcount : (explore examples (config.allowing 100) clock).expansions = 30 := by
    decide +kernel
  have hok : (versionSpace examples (config.allowing 100) clock).toOption.isSome := by
    decide +kernel
  obtain rfl : needed = 30 := by
    rcases Nat.lt_or_ge 100 needed with hlt | hle
    · rw [(h 100).2 hlt] at hok
      cases hok
    · rw [← ((h 100).1 hle).2, hcount]
  exact ⟨hwithin, space, fun bound => (h bound).1, fun bound => (h bound).2⟩

/-! ### Clocks -/

/-- **All that a clock can do to a search is to end it**: a search that finds a space by one clock
finds the same by every other, after as many expansions, unless that is too late at one of these;
then it fails with the first reading that is. -/
theorem versionSpace_clock (h : versionSpace examples config clock = .ok space) (clock' : Clock) :
    versionSpace examples config clock' = .ok space ∧
        (explore examples config clock').expansions = (explore examples config clock).expansions ∨
      ∃ n, n ≤ (explore examples config clock).expansions ∧ n ≤ config.limits.maxExpansions ∧
        config.limits.maxTimeMs < clock'.elapsed n ∧
        versionSpace examples config clock' = .error (.budgetExceeded .time (clock'.elapsed n)) := by
  have hne : examples ≠ [] := by
    rintro rfl
    cases h
  obtain ⟨space', needed, htakes⟩ := explore_takes hne config
  have htakes := htakes config.limits.maxExpansions
  obtain ⟨hallowed, hrefused⟩ := htakes clock
  obtain ⟨hallowed', hrefused'⟩ := htakes clock'
  -- Since the search ended by the first clock, no bound is passed by either.
  have hallows : (Budget.ofLimits config.limits clock).Allows 0 needed := by
    rcases (Budget.ofLimits config.limits clock).allows_or_refuses 0 needed with hallows | ⟨e, he⟩
    · exact hallows
    · have hfail : versionSpace examples config clock = .error e := hrefused e he
      rw [h] at hfail
      cases hfail
  obtain ⟨hspace, hcount⟩ : versionSpace examples config clock = .ok space' ∧
      (explore examples config clock).expansions = needed := hallowed hallows
  obtain rfl : space = space' := Except.ok.inj (h.symm.trans hspace)
  rw [hcount]
  rcases (Budget.ofLimits config.limits clock').allows_or_refuses 0 needed with hall | ⟨e, he⟩
  · exact .inl (hallowed' hall)
  · have hfail := hrefused' e he
    obtain ⟨n, hpos, hle, hn, _⟩ := he
    have hbound : n ≤ config.limits.maxExpansions :=
      (Budget.refusal?_eq_none.1 (hallows n hpos hle)).1
    obtain ⟨hlate, rfl⟩ := Budget.lt_elapsed_of_refusal? hbound hn
    exact .inr ⟨n, hle, hbound, hlate, hfail⟩

/-- As long as the time is not up, a clock does nothing. -/
theorem versionSpace_of_within (h : versionSpace examples config clock = .ok space) {clock' : Clock}
    (hwithin : clock'.Within config.limits) :
    versionSpace examples config clock' = .ok space ∧
      (explore examples config clock').expansions = (explore examples config clock).expansions := by
  rcases versionSpace_clock h clock' with hsame | ⟨n, _, hbound, hlate, _⟩
  · exact hsame
  · exact absurd (hwithin n hbound) (Nat.not_le.2 hlate)

end ArithLearn
