/-
No cluster leads nowhere.

The second operand of a binary operator is solved for once for each cluster
of the first. The search asks there whether some state has no value left for
it, but an aligned spec never comes to that: the values of a cluster are the
values of a program learned for what the left witness says, so each of them
has a partner in the input, and the right witness finds the partner
(`Supported`).

A search has no record of the clusters it goes into. So it is done again
with someone who watches it (`Watched.learn`), and may do anything at each
visit, even end the search. Whoever would act only at a cluster without a
partner, or where the search gives up on a second operand, has nothing to
do: the search goes as it goes unwatched (`visits_live`).
-/
import ArithLearn.Proofs.Combinations
import ArithLearn.Proofs.Search.Expansions

namespace ArithLearn

/-! ### Values with a partner -/

/-- On each state the right witness finds an element of the input beside the value. -/
structure Supported (right : Input → SortedSet Value → Value → SortedSet Value)
    (states : List Input) (spec : Spec) (values : List Value) : Prop where
  length_eq : values.length = states.length
  exists_mem : ∀ (s : Nat) v outputs n, states[s]? = some v → spec.outputs[s]? = some outputs →
    values[s]? = some n → ∃ b ∈ v, b ∈ right v outputs n

section

variable {states : List Input} {spec : Spec} {values : List Value} {depth : Nat} {op : Op}
  {left : Input → SortedSet Value → SortedSet Value}
  {right : Input → SortedSet Value → Value → SortedSet Value}

theorem Supported.not_isUnsatisfiable (h : Supported right states spec values) :
    ¬ (Witness.dependentSpec right states spec values).isUnsatisfiable := by
  rw [Spec.isUnsatisfiable_iff]
  rintro ⟨found, hmem, hno⟩
  obtain ⟨s, hs⟩ := List.getElem?_of_mem hmem
  obtain ⟨⟨v, outputs⟩, n, hzip, hn, rfl⟩ := List.getElem?_zipWith_eq_some.1 hs
  obtain ⟨hv, ho⟩ := List.getElem?_zip_eq_some.1 hzip
  obtain ⟨b, _, hb⟩ := h.exists_mem s v outputs n hv ho hn
  exact hno b hb

/-- A left operand that meets what the left witness says has values with partners. -/
theorem Inverse.supported (row : Inverse op left right) {a : Program}
    (ha : (Witness.freeSpec left states spec).satisfiedBy states a)
    (hvalues : a.valuesOn states = some values) : Supported right states spec values := by
  refine ⟨Program.length_of_valuesOn hvalues, fun s v outputs n hv ho hn => ?_⟩
  obtain ⟨x, hx, hval⟩ := Witness.onEach_freeSpec.1 (Spec.satisfiedBy_iff.1 ha) s v outputs hv ho
  obtain rfl : x = n := by
    rw [Program.getElem?_of_valuesOn hvalues hv, hn] at hval
    exact (Option.some.inj hval).symm
  obtain ⟨b, hpartners, o, ho, hexact⟩ := row.mem_left.1 hx
  exact ⟨b, hpartners.mem_right, row.mem_right_of_mem hpartners.mem_right ho hexact⟩

/-- The values of a cluster are those of a program learned for the left operand. -/
theorem Inverse.supported_of_clustersOf (row : Inverse op left right) {r : Registry}
    {cs : List Cluster}
    (hcs : ClustersOf states (Plain.learn states depth .start (Witness.freeSpec left states spec)) r
      cs) : ∀ c ∈ cs, Supported right states spec c.values := by
  intro c hc
  obtain ⟨hne, hmem⟩ := (hcs.contains (Plain.applied_learn _ _ _)).1 c hc
  obtain ⟨a, ha⟩ : ∃ a, c.space.contains a := by
    by_contra h
    push Not at h
    simp [Space.isEmpty_iff.2 h] at hne
  obtain ⟨hlearned, hvalues⟩ := (hmem a).1 ha
  exact row.supported (derives_of_contains_learn hlearned).satisfiedBy hvalues

end

/-! ### A search that is watched -/

/-- Where a search is watched: at each cluster it goes into, and where it gives up on a parameter
that depends on another. -/
inductive Visit where
  | cluster (op : Op) (spec : Spec) (c : Cluster)
  | deadEnd (op : Op) (spec : Spec)

/-- The visits that lead somewhere: at clusters whose values have partners. -/
def Visit.Live (states : List Input) : Visit → Prop
  | .cluster op spec c =>
    ∃ left right, Inverse op left right ∧ Supported right states spec c.values
  | .deadEnd _ _ => False

namespace Watched

open Search

variable (watch : Visit → SearchM Unit) (states : List Input)

/-- The applications of an operator. -/
def params (lower : Symbol → Spec → SearchM Graph) (o : Operator) (spec : Spec) :
    List (Nat × Symbol × Witness) → List Graph → List (Nat × List Value) → SearchM (List Graph)
  | [], children, _ => do pure [.joinOf (← fresh) o.op children]
  | (i, symbol, w) :: rest, children, chosen =>
    match w.spec? states spec (chosen.lookup ·) with
    | none => pure []
    | some paramSpec => do
      if paramSpec.isUnsatisfiable then
        if w.dependsOn?.isSome then
          watch (.deadEnd o.op spec)
        pure []
      else
        let space ← lower symbol paramSpec
        if space.isEmpty then
          pure []
        else if o.isDependency i then
          let clusters ← clustering (space.cluster states)
          let joins ← clusters.mapM fun c => do
            watch (.cluster o.op spec c)
            tick
            params lower o spec rest (children ++ [c.space]) ((i, c.values) :: chosen)
          pure joins.flatten
        else
          params lower o spec rest (children ++ [space]) chosen

/-- The space of an operator's applications. -/
def operator (lower : Symbol → Spec → SearchM Graph) (o : Operator) (spec : Spec) :
    SearchM Graph := do
  let input := Space.inputLeaf (← fresh)
  let joins ← params watch states lower o spec o.searched [input] []
  if !joins.isEmpty then
    tell (.branches o.op joins.length spec)
  pure (.unionOf (← fresh) (joins.map (⟨·, false⟩)))

/-- The space of all programs for a symbol that meet the spec. -/
def learn : (depth : Nat) → Symbol → Spec → SearchM Graph
  | 0, symbol, spec => level none ⟨symbol, 0, spec⟩
  | depth + 1, symbol, spec =>
    level (some fun op => operator watch states (learn depth) (.of op)) ⟨symbol, depth + 1, spec⟩

theorem params_idle (lower : Symbol → Spec → SearchM Graph) (o : Operator) (spec : Spec)
    (searched : List (Nat × Symbol × Witness)) (children : List Graph)
    (chosen : List (Nat × List Value)) :
    params (fun _ => pure ()) states lower o spec searched children chosen =
      Search.params states lower o spec searched children chosen := by
  induction searched generalizing children chosen with
  | nil => rfl
  | cons param rest ih =>
    obtain ⟨i, symbol, w⟩ := param
    unfold params Search.params
    cases w.spec? states spec (chosen.lookup ·) <;> simp [ih]

/-- If nobody acts, it is the search. -/
theorem learn_idle (depth : Nat) :
    learn (fun _ => pure ()) states depth = Search.learn states depth := by
  induction depth with
  | zero => rfl
  | succ depth ih =>
    have hoperator : ∀ o, operator (fun _ => pure ()) states (Search.learn states depth) o =
        Search.operator states (Search.learn states depth) o := by
      intro o
      funext spec
      simp only [operator, Search.operator, params_idle]
    funext symbol spec
    simp only [learn, Search.learn, ih, hoperator]

end Watched

/-! ### Nothing to do -/

namespace Search

variable {states : List Input} {r : Registry} {α β : Type}

/-- From the states that fit, one step goes as the other does. -/
def GoesAs (states : List Input) (r : Registry) (x y : SearchM α) : Prop :=
  ∀ s, s.Fits states r → attempt x s = attempt y s

namespace GoesAs

variable {x y : SearchM α} {f g : α → SearchM β} {post : Registry → α → Prop}

theorem refl (x : SearchM α) : GoesAs states r x x := fun _ _ => rfl

/-- After a step that goes as the other, what follows may use what the other has found. -/
theorem bind (hxy : GoesAs states r x y) (hy : Yields (Fits states) r y post)
    (hfg : ∀ r' a, r ≤ r' → post r' a → GoesAs states r' (f a) (g a)) :
    GoesAs states r (x >>= f) (y >>= g) := by
  intro s hs
  obtain ⟨r', hr, ht, hpost⟩ := hy s hs
  have hrun : Runs.run y s = ((attempt y s).1.toOption, (attempt y s).2) := rfl
  rw [attempt_bind, attempt_bind, hxy s hs]
  rw [hrun] at ht hpost
  generalize attempt y s = result at ht hpost ⊢
  obtain ⟨e | a, t⟩ := result
  · rfl
  · exact hfg r' a hr (hpost a rfl) t ht

/-- What follows may be the same. -/
theorem bind_right (hxy : GoesAs states r x y) (f : α → SearchM β) :
    GoesAs states r (x >>= f) (y >>= f) := by
  intro s hs
  rw [attempt_bind, attempt_bind, hxy s hs]

theorem mapM {ι : Type} {f g : ι → SearchM β} {xs : List ι}
    (hg : ∀ x ∈ xs, ∀ r', r ≤ r' → Yields (Fits states) r' (g x) fun _ _ => True)
    (hfg : ∀ x ∈ xs, ∀ r', r ≤ r' → GoesAs states r' (f x) (g x)) :
    GoesAs states r (xs.mapM f) (xs.mapM g) := by
  induction xs generalizing r with
  | nil => exact refl _
  | cons x xs ih =>
    rw [List.mapM_cons, List.mapM_cons]
    refine (hfg x (by simp) r r.le_refl).bind (hg x (by simp) r r.le_refl) fun r₁ b hr₁ _ => ?_
    refine bind_right (ih ?_ ?_) _
    · exact fun y hy r' hr' => hg y (by simp [hy]) r' (Registry.le_trans hr₁ hr')
    · exact fun y hy r' hr' => hfg y (by simp [hy]) r' (Registry.le_trans hr₁ hr')

end GoesAs

variable {watch : Visit → SearchM Unit} {spec : Spec} {depth : Nat}
  {lower lower' : Symbol → Spec → SearchM Graph}

theorem goesAs_remembered (goal : Goal) {build build' : SearchM Graph}
    (h : ¬ goal.spec.isUnsatisfiable → ∀ r', GoesAs states r' build build') :
    GoesAs states r (remembered goal build) (remembered goal build') := by
  unfold remembered
  split
  · exact .refl _
  rename_i hu
  refine (GoesAs.refl _).bind yields_get fun r₁ s _ _ => ?_
  split
  · exact .refl _
  · exact (GoesAs.refl _).bind yields_tick fun r₂ _ _ _ => (h hu r₂).bind_right _

/-- A parameter that no other depends on. Whoever watches has to act only where its spec cannot be
met, if it depends on another. -/
theorem goesAs_params_last {o : Operator} {i : Nat} {symbol : Symbol} {w : Witness}
    {children : List Graph} {chosen : List (Nat × List Value)} {paramSpec : Spec}
    (hspec : w.spec? states spec (chosen.lookup ·) = some paramSpec)
    (hlive : w.dependsOn?.isSome → ¬ paramSpec.isUnsatisfiable) (hd : ¬ o.isDependency i)
    (hlower : GoesAs states r (lower symbol paramSpec) (lower' symbol paramSpec)) :
    GoesAs states r (Watched.params watch states lower o spec [(i, symbol, w)] children chosen)
      (params states lower' o spec [(i, symbol, w)] children chosen) := by
  by_cases hu : paramSpec.isUnsatisfiable
  · have hw : ¬ w.dependsOn?.isSome := fun h => hlive h hu
    simp only [Watched.params, params, hspec, if_pos hu, if_neg hw]
    exact .refl _
  · simp only [Watched.params, params, hspec, if_neg hu, if_neg hd]
    exact hlower.bind_right _

/-- Nobody acts at a visit that leads somewhere, and one level deeper the search goes as it goes
unwatched. -/
structure Undisturbed (states : List Input) (watch : Visit → SearchM Unit) (depth : Nat)
    (lower : Symbol → Spec → SearchM Graph) : Prop where
  idle : ∀ visit : Visit, visit.Live states → watch visit = pure ()
  lower : ∀ r symbol spec, GoesAs states r (lower symbol spec) (learn states depth symbol spec)

namespace Undisturbed

variable {op : Op} {left : Input → SortedSet Value → SortedSet Value}
  {right : Input → SortedSet Value → Value → SortedSet Value} {children : List Graph}

/-- Beside values with partners the right operand can be learned. -/
theorem goesAs_params_right (h : Undisturbed states watch depth lower) {values : List Value}
    (hvalues : Supported right states spec values) :
    GoesAs states r
      (Watched.params watch states lower (.binary op left right) spec
        [(2, .start, .dependent 1 right)] children [(1, values)])
      (params states (learn states depth) (.binary op left right) spec
        [(2, .start, .dependent 1 right)] children [(1, values)]) := by
  have hlast : ¬ (Operator.binary op left right).isDependency 2 := by
    simp [Operator.isDependency, Operator.binary, Witness.dependsOn?]
  exact goesAs_params_last rfl (fun _ => hvalues.not_isUnsatisfiable) hlast (h.lower r _ _)

/-- The clusters of the left operand have values with partners. -/
theorem goesAs_params_binary (h : Undisturbed states watch depth lower) (row : Inverse op left right)
    (hc : ∀ c ∈ children, r.Holds c) :
    GoesAs states r
      (Watched.params watch states lower (.binary op left right) spec
        (Operator.binary op left right).searched children [])
      (params states (learn states depth) (.binary op left right) spec
        (Operator.binary op left right).searched children []) := by
  have hsearched : (Operator.binary op left right).searched =
      [(1, .start, .free left), (2, .start, .dependent 1 right)] := rfl
  have hfirst : (Operator.binary op left right).isDependency 1 := rfl
  rw [hsearched]
  unfold Watched.params params
  simp only [Witness.spec?, Witness.dependsOn?, hfirst]
  split
  · exact .refl _
  refine (h.lower r .start _).bind (yields_learn depth .start _) fun r₁ space hr₁ hspace => ?_
  split
  · exact .refl _
  have hclusters : Yields (Clusterer.Fits states) r₁ (space.cluster states)
      (ClustersOf states space.shape) := Space.yields_cluster hspace.1
  refine (GoesAs.refl _).bind (yields_clustering hclusters) fun r₂ cs hr₂ hcs => ?_
  rw [hspace.2] at hcs
  -- For each cluster: that the search can go on from what it leaves, and that it goes as unwatched.
  refine GoesAs.bind_right (.mapM (fun c hmem r₃ hr₃ => ?_) fun c hmem r₃ hr₃ => ?_) _
  · refine .bind yields_tick fun r₄ _ hr₄ _ =>
      (yields_params (fun _ => yields_learn depth) _ _ fun d hd => ?_).imp fun _ _ _ _ => trivial
    have hr₂₄ : r₂ ≤ r₄ := Registry.le_trans hr₃ hr₄
    rcases List.mem_append.1 hd with hd | hd
    · exact (hc d hd).mono (Registry.le_trans hr₁ (Registry.le_trans hr₂ hr₂₄))
    · obtain rfl := List.mem_singleton.1 hd
      exact (hcs.held c hmem).mono hr₂₄
  · have hsupported := row.supported_of_clustersOf hcs c hmem
    have hidle : watch (.cluster (Operator.binary op left right).op spec c) = pure () :=
      h.idle _ ⟨left, right, row, hsupported⟩
    rw [hidle, pure_bind]
    exact (GoesAs.refl _).bind yields_tick fun r₄ _ _ _ => h.goesAs_params_right hsupported

theorem goesAs_operator (h : Undisturbed states watch depth lower) (op : Op) :
    GoesAs states r (Watched.operator watch states lower (.of op) spec)
      (operator states (learn states depth) (.of op) spec) := by
  refine (GoesAs.refl _).bind (yields_fresh (.inputLeaf ())) fun r₁ l _ hinput => ?_
  have hheld : r₁.Holds (Space.inputLeaf l) := .leaf hinput.1 hinput.2
  refine GoesAs.bind_right ?_ _
  rcases eq_elementAt_or_inverse op with rfl | ⟨left, right, row⟩
  · -- No parameter depends on the position, and its own spec on no other parameter.
    refine goesAs_params_last rfl (fun hw => by cases hw) ?_ (h.lower r₁ _ _)
    simp [Operator.isDependency, Operator.of, Witness.dependsOn?]
  · rw [row.of_eq]
    exact h.goesAs_params_binary row (List.forall_mem_singleton.2 hheld)

end Undisturbed

/-- A level goes as another one if its operators do. -/
theorem goesAs_level {operators operators' : Op → Spec → SearchM Graph} {goal : Goal}
    (h : ∀ r op, GoesAs states r (operators op goal.spec) (operators' op goal.spec))
    (hy : ∀ r op, Yields (Fits states) r (operators' op goal.spec) fun _ _ => True) :
    GoesAs states r (level (some operators) goal) (level (some operators') goal) := by
  refine goesAs_remembered goal fun hu r' => ?_
  cases goal.symbol with
  | input => exact .refl _
  | constant => exact .refl _
  | start =>
    refine GoesAs.bind_right (.mapM ?_ ?_) _
    · rintro (op | _) _ r₁ _
      · exact (hy r₁ op).bind fun _ _ _ _ => .pure trivial
      · exact (yields_remembered { goal with symbol := .constant } (Plain.learn_constant hu)
          fun _ _ => yields_literals).bind fun _ _ _ _ => .pure trivial
    · rintro (op | _) _ r₁ _
      · exact (h r₁ op).bind_right _
      · exact .refl _

/-- Whoever acts only where a visit leads nowhere does not act. -/
theorem goesAs_learn (hidle : ∀ visit : Visit, visit.Live states → watch visit = pure ())
    (depth : Nat) (symbol : Symbol) :
    GoesAs states r (Watched.learn watch states depth symbol spec)
      (learn states depth symbol spec) := by
  induction depth generalizing r symbol spec with
  | zero => exact .refl _
  | succ depth ih =>
    have h : Undisturbed states watch depth (Watched.learn watch states depth) :=
      ⟨hidle, fun _ symbol _ => ih symbol⟩
    refine goesAs_level (fun _ op => h.goesAs_operator op) fun r op => ?_
    exact (yields_operator fun _ => yields_learn depth).imp fun _ _ _ _ => trivial

/-- **Every cluster of a left operand leads somewhere**: on each state that the spec speaks of, the
right witness finds an element of the input beside the value of the cluster, so the spec of the
right operand can be met. And a search that is watched goes as it goes unwatched, to the last label
and event, if who watches acts only at clusters of which this is not true, and where the search
gives up on a parameter that depends on another. So it comes to none of these. -/
theorem visits_live {s : Search} (hs : s.Reachable states) :
    (∀ op left right depth space, Inverse op left right →
      (attempt (learn states depth .start (Witness.freeSpec left states spec)) s).1 = .ok space →
      ∀ c ∈ ((space.cluster states).run
          (attempt (learn states depth .start (Witness.freeSpec left states spec)) s).2.clusterer).1,
        Supported right states spec c.values ∧
          ¬ (Witness.dependentSpec right states spec c.values).isUnsatisfiable) ∧
      ∀ watch : Visit → SearchM Unit,
        (∀ visit : Visit, visit.Live states → watch visit = pure ()) → ∀ depth symbol,
          attempt (Watched.learn watch states depth symbol spec) s =
            attempt (learn states depth symbol spec) s := by
  refine ⟨fun op left right depth space row h c hc => ?_, fun watch hidle depth symbol => ?_⟩
  · obtain ⟨r, hclusters⟩ := hs.clustersOf h (.inl rfl)
    have hsupported := row.supported_of_clustersOf hclusters c hc
    exact ⟨hsupported, hsupported.not_isUnsatisfiable⟩
  · obtain ⟨r, hfits⟩ := hs.fits
    exact goesAs_learn hidle depth symbol s hfits

/-- A product that is zero on the first state. Its left operand is the first element or the second,
which are two clusters, and the search is the same with someone who would end it where it gives up
on the right operand. -/
theorem visits_live_mul :
    let states : List Input := [[.zero, .ofNat 3], [.ofNat 2, .ofNat 5]]
    let spec : Spec := .exact [.zero, .ofNat 10]
    let watch : Visit → SearchM Unit
      | .cluster _ _ c => if c.values.length = 2 then pure () else throw .unsatisfiable
      | .deadEnd _ _ => throw .unsatisfiable
    (∃ left t, attempt (learn states 1 .start (Witness.freeSpec mulLeft states spec)) (start {}) =
          (.ok left, t) ∧
        ((left.cluster states).run t.clusterer).1.map (·.values) =
          [[.zero, .ofNat 2], [.ofNat 3, .ofNat 5]] ∧
        ∀ c ∈ ((left.cluster states).run t.clusterer).1, Supported mulRight states spec c.values) ∧
      ∃ space, (attempt (Watched.learn watch states 2 .start spec) (start {})).1 = .ok space ∧
        space.contains (.mul (.elementAt (.ofNat 0)) (.elementAt (.ofNat 1))) := by
  intro states spec watch
  obtain ⟨hclusters, hwatched⟩ := @visits_live states spec (start {}) (.start {})
  constructor
  · have hclusters := hclusters .mul mulLeft mulRight 1
    have hleft : (attempt (learn states 1 .start (Witness.freeSpec mulLeft states spec))
        (start {})).1.toOption.any fun left => ((left.cluster states).run (attempt (learn states 1
          .start (Witness.freeSpec mulLeft states spec)) (start {})).2.clusterer).1.map (·.values) =
        [[.zero, .ofNat 2], [.ofNat 3, .ofNat 5]] := by
      decide +kernel
    generalize attempt (learn states 1 .start (Witness.freeSpec mulLeft states spec)) (start {}) =
      learned at hclusters hleft ⊢
    obtain ⟨left, hlearned, hvalues⟩ := exists_ok_of_any hleft
    refine ⟨left, learned.2, Prod.ext hlearned rfl, of_decide_eq_true hvalues, fun c hc => ?_⟩
    exact (hclusters left .mul hlearned c hc).1
  · have hfound : (attempt (learn states 2 .start spec) (start {})).1.toOption.any
        (·.contains (.mul (.elementAt (.ofNat 0)) (.elementAt (.ofNat 1)))) := by
      decide +kernel
    obtain ⟨space, hspace, hp⟩ := exists_ok_of_any hfound
    refine ⟨space, ?_, hp⟩
    rw [hwatched watch ?_ 2 .start]
    · exact hspace
    · rintro (⟨_, _, c⟩ | _) hlive
      · obtain ⟨_, _, _, hsupported⟩ := hlive
        exact if_pos hsupported.length_eq
      · exact hlive.elim

end Search

end ArithLearn
