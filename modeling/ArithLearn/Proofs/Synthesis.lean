/-
What synthesis makes of a version space.

The verdict is that of the search: nothing is synthesized exactly if the
space is empty. Otherwise it is the best programs of the space, as many as
are wanted or as there are (`synthesize_verdict`). Synthesis asks once more
whether each of them fits the examples, but all that are learned do, so
none is dropped.
-/
import ArithLearn.Proofs.Derivation
import ArithLearn.Proofs.Ranking.Count
import ArithLearn.Proofs.Search.Expansions

namespace ArithLearn

variable {σ : Type} [Score σ] {examples : List Example} {config : Config} {clock : Clock}
  {space : Graph} {p : Program} {programs : List (Ranked σ)}

/-- What is learned fits. -/
theorem fits_of_contains (h : versionSpace examples config clock = .ok space) (hp : space.contains p) :
    fits examples p := by
  rw [← Space.contains_shape, (versionSpace_eq_ok h).2] at hp
  exact (derives_of_contains_learn hp).satisfiedBy

/-- There is a best program where there is any, and one is wanted. -/
theorem topK_ne_nil_of_contains (h : versionSpace examples config clock = .ok space)
    (hp : space.contains p) {k : Nat} (hk : 1 ≤ k) : (space.topK k : List (Ranked σ)) ≠ [] := by
  have hg := extractable_versionSpace h
  exact Space.topK_ne_nil hg.coherent hg.rankable.proper hk hp

/-! ### Selection -/

theorem select_of_isEmpty (h : space.isEmpty) :
    (select examples config space : Report (List (Ranked σ))).result = .error .unsatisfiable := by
  rw [select, if_pos h]

/-- The best programs are selected, and there is nothing to tell of them. -/
theorem select_eq_topK (h : versionSpace examples config clock = .ok space) (hp : space.contains p)
    (config' : Config) : select examples config' space =
      ⟨.ok (space.topK config'.topK : List (Ranked σ)), []⟩ := by
  have hfits : ∀ r ∈ (space.topK config'.topK : List (Ranked σ)), fits examples r.program :=
    fun r hr => fits_of_contains h
      (Space.contains_of_mem_topK (extractable_versionSpace h).coherent hr)
  have hempty : space.isEmpty = false := Space.not_isEmpty_of_contains hp
  unfold select
  rw [if_neg (by simp [hempty])]
  by_cases hk : config'.topK = 0
  · rw [if_pos hk, hk]
    rfl
  · have hne : (space.topK config'.topK : List (Ranked σ)) ≠ [] :=
      topK_ne_nil_of_contains h hp (by omega)
    have hsound : (space.topK config'.topK : List (Ranked σ)).filter
        (fun r => fits examples r.program) = space.topK config'.topK :=
      List.filter_eq_self.2 hfits
    have hunsound : (space.topK config'.topK : List (Ranked σ)).filter
        (fun r => !fits examples r.program) = [] :=
      List.filter_eq_nil_iff.2 fun r hr => by simp [hfits r hr]
    rw [if_neg hk]
    simp only [List.partition_eq_filter_filter, Function.comp_def]
    rw [hsound, hunsound, if_neg (by simpa using hne)]
    rfl

/-! ### Synthesis -/

/-- Without what there was to tell, synthesis is search and then selection. -/
theorem synthesize_eq : (synthesize examples config clock : Except SynthesisError (List (Ranked σ))) =
    (versionSpace examples config clock).bind fun space => (select examples config space).result := by
  unfold synthesize synthesis versionSpace
  dsimp only
  cases (explore examples config clock).result <;> rfl

theorem synthesize_of_isEmpty (h : versionSpace examples config clock = .ok space)
    (hempty : space.isEmpty) :
    (synthesize examples config clock : Except SynthesisError (List (Ranked σ))) =
      .error .unsatisfiable := by
  rw [synthesize_eq, h]
  exact select_of_isEmpty hempty

/-- If some program is in the version space, the best of it are synthesized. -/
theorem synthesize_of_contains (h : versionSpace examples config clock = .ok space)
    (hp : space.contains p) :
    synthesize examples config clock = .ok (space.topK config.topK : List (Ranked σ)) := by
  rw [synthesize_eq, h]
  exact congrArg Report.result (select_eq_topK h hp config)

/-- If some program is in the version space, the best of it are synthesized, and there are some. -/
theorem synthesize_eq_topK (h : versionSpace examples config clock = .ok space)
    (hk : 1 ≤ config.topK) (hp : space.contains p) :
    synthesize examples config clock = .ok (space.topK config.topK : List (Ranked σ)) ∧
      (space.topK config.topK : List (Ranked σ)) ≠ [] :=
  ⟨synthesize_of_contains h hp, topK_ne_nil_of_contains h hp hk⟩

/-- **Synthesis succeeds exactly if the version space has a program**, and then its result is the
best programs of that. -/
theorem synthesize_eq_ok : synthesize examples config clock = .ok programs ↔
    ∃ space p, versionSpace examples config clock = .ok space ∧ space.contains p ∧
      programs = space.topK config.topK := by
  constructor
  · intro h
    cases hv : versionSpace examples config clock with
    | error e =>
      rw [synthesize_eq, hv] at h
      cases h
    | ok space =>
      by_cases hempty : space.isEmpty
      · rw [synthesize_of_isEmpty hv hempty] at h
        cases h
      · obtain ⟨p, hp⟩ : ∃ p, space.contains p := by
          simpa [Space.isEmpty_iff] using hempty
        rw [synthesize_of_contains hv hp] at h
        cases h
        exact ⟨space, p, rfl, hp, rfl⟩
  · intro h
    obtain ⟨space, p, hv, hp, rfl⟩ := h
    exact synthesize_of_contains hv hp

/-- Programs are synthesized from a version space. -/
theorem exists_of_synthesize (h : synthesize examples config clock = .ok programs) : ∃ space,
    versionSpace examples config clock = .ok space ∧ ∀ r ∈ programs, space.contains r.program := by
  obtain ⟨space, _, hv, _, rfl⟩ := synthesize_eq_ok.1 h
  exact ⟨space, hv, fun r => Space.contains_of_mem_topK (extractable_versionSpace hv).coherent⟩

/-- With examples, synthesis fails because no program fits or because the search went too far. -/
theorem synthesize_eq_error (hne : examples ≠ []) {e : SynthesisError}
    (h : (synthesize examples config clock : Except SynthesisError (List (Ranked σ))) = .error e) :
    e = .unsatisfiable ∨ e.IsBudget := by
  cases hv : versionSpace examples config clock with
  | error e' =>
    rw [synthesize_eq, hv] at h
    cases h
    exact .inr (isBudget_of_versionSpace hne hv)
  | ok space =>
    by_cases hempty : space.isEmpty
    · rw [synthesize_of_isEmpty hv hempty] at h
      cases h
      exact .inl rfl
    · obtain ⟨p, hp⟩ : ∃ p, space.contains p := by
        simpa [Space.isEmpty_iff] using hempty
      rw [synthesize_of_contains hv hp] at h
      cases h

/-- By another clock the same is synthesized, or the time is up before the search has ended. -/
theorem synthesize_clock (h : synthesize examples config clock = .ok programs) (clock' : Clock) :
    synthesize examples config clock' = .ok programs ∧
        (explore examples config clock').expansions = (explore examples config clock).expansions ∨
      ∃ n, n ≤ (explore examples config clock).expansions ∧ n ≤ config.limits.maxExpansions ∧
        config.limits.maxTimeMs < clock'.elapsed n ∧
        (synthesize examples config clock' : Except SynthesisError (List (Ranked σ))) =
          .error (.budgetExceeded .time (clock'.elapsed n)) := by
  obtain ⟨space, p, hspace, hp⟩ := synthesize_eq_ok.1 h
  rcases versionSpace_clock hspace clock' with ⟨hspace', hcount⟩ | ⟨n, hn, hbound, hlate, hfail⟩
  · exact .inl ⟨synthesize_eq_ok.2 ⟨space, p, hspace', hp⟩, hcount⟩
  · refine .inr ⟨n, hn, hbound, hlate, ?_⟩
    rw [synthesize_eq, hfail]
    rfl

/-- As long as the time is not up, a clock does nothing to what is synthesized. -/
theorem synthesize_of_within (h : synthesize examples config clock = .ok programs) {clock' : Clock}
    (hwithin : clock'.Within config.limits) : synthesize examples config clock' = .ok programs := by
  obtain ⟨space, p, hspace, hp⟩ := synthesize_eq_ok.1 h
  exact synthesize_eq_ok.2 ⟨space, p, (versionSpace_of_within hspace hwithin).1, hp⟩

/-! ### The verdict -/

/-- How many programs are wanted has no part in the search. -/
theorem versionSpace_topK (k : Nat) :
    versionSpace examples { config with topK := k } clock = versionSpace examples config clock := by
  cases examples <;> rfl

/-- **The verdict is that of the search, however many programs are wanted**: synthesis fails exactly
if the version space holds no program. Otherwise it gives the best programs of the space. All of
them fit the examples and none is dropped; if any are wanted there are some, as many as are wanted
or as the space holds. -/
theorem synthesize_verdict (h : versionSpace examples config clock = .ok space) (k : Nat) :
    ((synthesize examples { config with topK := k } clock :
        Except SynthesisError (List (Ranked σ))) = .error .unsatisfiable ↔
      ∀ p, ¬ space.contains p) ∧
    ∀ p, space.contains p →
      synthesize examples { config with topK := k } clock =
        .ok (space.topK k : List (Ranked σ)) ∧
      (∀ r ∈ (space.topK k : List (Ranked σ)), fits examples r.program) ∧
      (select examples { config with topK := k } space : Report (List (Ranked σ))).events = [] ∧
      (1 ≤ k → (space.topK k : List (Ranked σ)) ≠ [] ∧
        (space.topK k : List (Ranked σ)).length = min k {q | space.contains q}.ncard) := by
  have hg := extractable_versionSpace h
  have hv : versionSpace examples { config with topK := k } clock = .ok space :=
    (versionSpace_topK k).trans h
  refine ⟨⟨fun hfail p hp => ?_, fun hnone => ?_⟩,
    fun p hp => ⟨?_, fun r hr => ?_, ?_, fun hk => ?_⟩⟩
  · rw [synthesize_of_contains hv hp] at hfail
    cases hfail
  · exact synthesize_of_isEmpty hv (Space.isEmpty_iff.2 hnone)
  · exact synthesize_of_contains hv hp
  · exact fits_of_contains h (Space.contains_of_mem_topK hg.coherent hr)
  · rw [select_eq_topK hv hp]
  · exact ⟨topK_ne_nil_of_contains h hp hk, hg.length_topK hk⟩

/-- Nine programs make 5 of the elements 2 and 3. Four are returned if four are wanted, and nine if
twenty are; none if none is, which is no failure. -/
theorem synthesize_verdict_nine :
    let examples : List Example := [⟨[.ofNat 2, .ofNat 3], .ofNat 5⟩]
    let config : Config := { limits := { maxDepth := 2 } }
    ∃ space, versionSpace examples config = .ok space ∧
      (synthesize examples { config with topK := 0 } :
        Except SynthesisError (List (Ranked Float))) = .ok [] ∧
      synthesize examples { config with topK := 4 } =
        .ok (space.topK 4 : List (Ranked Float)) ∧
      (space.topK 4 : List (Ranked Float)).length = 4 ∧
      synthesize examples { config with topK := 20 } =
        .ok (space.topK 20 : List (Ranked Float)) ∧
      (space.topK 20 : List (Ranked Float)).length = 9 := by
  intro examples config
  have hcount : (versionSpace examples config).toOption.any fun space =>
      decide (space.enumerate.dedup.length = 9) := by
    decide +kernel
  obtain ⟨space, hspace, hcount⟩ := exists_ok_of_any hcount
  have hproper := (extractable_versionSpace hspace).rankable.proper
  have hcard : {p | space.contains p}.ncard = 9 :=
    (Space.ncard_contains hproper).trans (of_decide_eq_true hcount)
  have hne : {p | space.contains p}.ncard ≠ 0 := by
    rw [hcard]
    decide
  obtain ⟨p, hp⟩ := Set.nonempty_of_ncard_ne_zero hne
  have hverdict := fun k => (synthesize_verdict (σ := Float) hspace k).2 p hp
  obtain ⟨hnone, _⟩ := hverdict 0
  obtain ⟨hfour, _, _, hcut⟩ := hverdict 4
  obtain ⟨hall, _, _, hrest⟩ := hverdict 20
  rw [hcard] at hcut hrest
  exact ⟨space, hspace, hnone, hfour, (hcut (by decide)).2, hall, (hrest (by decide)).2⟩

end ArithLearn
