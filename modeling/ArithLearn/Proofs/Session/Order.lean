/-
Which examples a session accepts, whatever their order.

An accepted list of examples has a program that is derived for each of them
alone. The same program stands behind every list of examples among these:
each search on the way has it in its space, if it ends at all, and so each
of them is accepted (`acceptsAll_of_subset`). The searches differ in all
else, in what they find first, in what they rank highest and in the time
they take.
-/
import ArithLearn.Proofs.Session.Log

namespace ArithLearn

namespace Session

variable {σ : Type} [Score σ] {config : Config} {s : Session σ} {o : Offer} {offers : List Offer}
  {p : Program}

/-- Every example offered is accepted. -/
def AcceptsAll (s : Session σ) (offers : List Offer) : Prop :=
  ∀ entry ∈ s.log (offers.map .learn), ∃ e programs, entry = .learned e (.ok programs)

/-- The search for one of the examples offered goes too far. -/
def RunsOut (s : Session σ) (offers : List Offer) : Prop :=
  ∃ e limit spent, .learned e (.error (.budgetExceeded limit spent)) ∈ s.log (offers.map .learn)

theorem AcceptsAll.not_runsOut (h : s.AcceptsAll offers) : ¬ s.RunsOut offers := by
  intro hout
  obtain ⟨e, limit, spent, hmem⟩ := hout
  obtain ⟨e', programs, heq⟩ := h _ hmem
  cases heq

/-- The log of one offer more. -/
theorem log_learn_cons : s.log ((o :: offers).map .learn) =
    .learned o.offered (synthesize (s.examples ++ [o.offered]) s.config o.clock) ::
      (s.learn o.offered o.clock).2.log (offers.map .learn) := by
  rw [← learn_result]
  rfl

theorem acceptsAll_nil : s.AcceptsAll [] := by simp [AcceptsAll, Session.log]

/-- To accept a list is to accept its first example, and then the others. -/
theorem acceptsAll_cons : s.AcceptsAll (o :: offers) ↔
    ∃ programs, synthesize (s.examples ++ [o.offered]) s.config o.clock = .ok programs ∧
      ({ s with examples := s.examples ++ [o.offered], programs } : Session σ).AcceptsAll
        offers := by
  unfold AcceptsAll
  rw [log_learn_cons, List.forall_mem_cons]
  constructor
  · intro h
    obtain ⟨⟨e, programs, hfirst⟩, hrest⟩ := h
    obtain ⟨rfl, hprograms⟩ : o.offered = e ∧
        synthesize (s.examples ++ [o.offered]) s.config o.clock = .ok programs := by
      simpa using hfirst
    rw [learn_of_ok hprograms] at hrest
    exact ⟨programs, hprograms, hrest⟩
  · intro h
    obtain ⟨programs, hprograms, hrest⟩ := h
    rw [learn_of_ok hprograms, hprograms]
    exact ⟨⟨o.offered, programs, rfl⟩, hrest⟩

/-- What is accepted is derived by one program. -/
theorem AcceptsAll.exists_derives (h : s.AcceptsAll offers) (hne : offers ≠ []) :
    ∃ p, ∀ e ∈ s.examples ++ offers.map (·.offered),
      Derives [e.input] s.config.limits.maxDepth (.exact [e.output]) p := by
  induction offers generalizing s with
  | nil => exact absurd rfl hne
  | cons o offers ih =>
    obtain ⟨programs, hprograms, hrest⟩ := acceptsAll_cons.1 h
    cases offers with
    | nil =>
      obtain ⟨space, p, hspace, hp, _⟩ := synthesize_eq_ok.1 hprograms
      exact ⟨p, (contains_versionSpace hspace).1 hp⟩
    | cons o' offers =>
      obtain ⟨p, hp⟩ := ih hrest (by simp)
      exact ⟨p, by simpa using hp⟩

/-- What one program is derived for is accepted, as far as the searches go. -/
theorem acceptsAll_of_derives
    (h : ∀ e ∈ s.examples ++ offers.map (·.offered),
      Derives [e.input] s.config.limits.maxDepth (.exact [e.output]) p)
    (hbudget : ¬ s.RunsOut offers) : s.AcceptsAll offers := by
  induction offers generalizing s with
  | nil => exact acceptsAll_nil
  | cons o offers ih =>
    have hsplit : s.examples ++ (o :: offers).map (·.offered) =
        (s.examples ++ [o.offered]) ++ offers.map (·.offered) := by simp
    rw [hsplit] at h
    unfold RunsOut at hbudget
    rw [log_learn_cons] at hbudget
    cases hspace : versionSpace (s.examples ++ [o.offered]) s.config o.clock with
    | error error =>
      obtain ⟨limit, spent, rfl⟩ := isBudget_of_versionSpace (by simp) hspace
      rw [synthesize_eq, hspace] at hbudget
      exact absurd ⟨o.offered, limit, spent, List.mem_cons_self⟩ hbudget
    | ok space =>
      have hp : space.contains p :=
        (contains_versionSpace hspace).2 fun e he => h e (List.mem_append_left _ he)
      have hprograms := synthesize_of_contains (σ := σ) hspace hp
      refine acceptsAll_cons.2 ⟨_, hprograms, ih h fun hout => hbudget ?_⟩
      obtain ⟨e, limit, spent, hmem⟩ := hout
      rw [learn_of_ok hprograms]
      exact ⟨e, limit, spent, List.mem_cons_of_mem _ hmem⟩

/-- A new session that accepts some examples accepts any choice of them, as far as the searches
go. -/
theorem acceptsAll_of_subset {offers' : List Offer}
    (h : ({ config } : Session σ).AcceptsAll offers)
    (hsub : offers'.map (·.offered) ⊆ offers.map (·.offered))
    (hbudget : ¬ ({ config } : Session σ).RunsOut offers') :
    ({ config } : Session σ).AcceptsAll offers' := by
  by_cases hne : offers = []
  · obtain rfl : offers' = [] := by
      rw [hne] at hsub
      exact List.map_eq_nil_iff.1 (List.subset_nil.1 hsub)
    exact acceptsAll_nil
  · obtain ⟨p, hp⟩ := h.exists_derives hne
    exact acceptsAll_of_derives (fun e he => hp e (hsub he)) hbudget

/-- **Whether examples are accepted does not depend on their order**: where a new session accepts
all of them in one order, a new session with the same config accepts all of them in any other, by
whatever clocks, unless a search on the way goes too far. -/
theorem acceptsAll_perm {offers' : List Offer}
    (hperm : (offers.map (·.offered)).Perm (offers'.map (·.offered)))
    (h : ({ config } : Session σ).AcceptsAll offers)
    (hbudget : ¬ ({ config } : Session σ).RunsOut offers') :
    ({ config } : Session σ).AcceptsAll offers' :=
  acceptsAll_of_subset h hperm.symm.subset hbudget

/-- The sum of two elements, on two inputs, is learned in either order, also if the searches of one
take a millisecond for fifty expansions, and those of the other no time at all. -/
theorem acceptsAll_perm_sums :
    let three : Example := ⟨[.ofNat 1, .ofNat 2], .ofNat 3⟩
    let seven : Example := ⟨[.ofNat 5, .ofNat 2], .ofNat 7⟩
    let clock : Clock := ⟨fun n => n / 50⟩
    let start : Session Float := { config := { limits := { maxDepth := 2 } } }
    ([⟨three, .stopped⟩, ⟨seven, .stopped⟩].map Offer.offered).Perm
        ([⟨seven, clock⟩, ⟨three, clock⟩].map Offer.offered) ∧
      start.AcceptsAll [⟨three, .stopped⟩, ⟨seven, .stopped⟩] ∧
      ¬ start.RunsOut [⟨seven, clock⟩, ⟨three, clock⟩] ∧
      start.AcceptsAll [⟨seven, clock⟩, ⟨three, clock⟩] := by
  intro three seven clock start
  have hwithin : clock.Within start.config.limits := fun n hn => by
    have hn : n ≤ 250000 := hn
    exact show n / 50 ≤ 5000 by omega
  let lists : List (List Example) := [[three], [three, seven], [seven], [seven, three]]
  have hsearch : ∀ examples ∈ lists, (versionSpace examples start.config).toOption.any
      (·.contains (.sum (.elementAt (.ofNat 0)) (.elementAt (.ofNat 1)))) := by
    decide +kernel
  have hok : ∀ examples ∈ lists, ∃ programs : List (Ranked Float),
      synthesize examples start.config = .ok programs := by
    intro examples hmem
    obtain ⟨space, hspace, hp⟩ := exists_ok_of_any (hsearch examples hmem)
    exact ⟨_, synthesize_of_contains hspace hp⟩
  have haccepts : ∀ first second (clock : Clock), clock.Within start.config.limits →
      [first] ∈ lists → [first, second] ∈ lists →
        start.AcceptsAll [⟨first, clock⟩, ⟨second, clock⟩] := by
    intro first second clock hwithin hfirst hsecond
    obtain ⟨programs, hprograms⟩ := hok _ hfirst
    obtain ⟨programs', hprograms'⟩ := hok _ hsecond
    exact acceptsAll_cons.2 ⟨programs, synthesize_of_within hprograms hwithin,
      acceptsAll_cons.2 ⟨programs', synthesize_of_within hprograms' hwithin, acceptsAll_nil⟩⟩
  have hthree : start.AcceptsAll [⟨three, .stopped⟩, ⟨seven, .stopped⟩] :=
    haccepts three seven .stopped (Clock.stopped_within _) (by simp [lists]) (by simp [lists])
  have hseven : start.AcceptsAll [⟨seven, clock⟩, ⟨three, clock⟩] :=
    haccepts seven three clock hwithin (by simp [lists]) (by simp [lists])
  have hperm : ([⟨three, .stopped⟩, ⟨seven, .stopped⟩].map Offer.offered).Perm
      ([⟨seven, clock⟩, ⟨three, clock⟩].map Offer.offered) := .swap seven three []
  exact ⟨hperm, hthree, hseven.not_runsOut, acceptsAll_perm hperm hthree hseven.not_runsOut⟩

end Session

end ArithLearn
