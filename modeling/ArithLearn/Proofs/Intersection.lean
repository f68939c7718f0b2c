/-
A derivation acts state by state.

A search asks of its operands what it asks of the whole, for all states at
once: literals have to be right everywhere, the parts of an operand are
told apart by all their values, and a state that accepts nothing cuts off
a branch for the others too. Still a program is derived over the states
exactly when it is derived over each alone (`Derives.onEach`,
`derives_of_onEach`). So a version space holds what the version spaces of its examples have in common,
whatever their order.
-/
import ArithLearn.Proofs.Derivation

namespace ArithLearn

/-- An operator has one pair of witnesses. -/
theorem Inverse.unique {op : Op} {left left' : Input → SortedSet Value → SortedSet Value}
    {right right' : Input → SortedSet Value → Value → SortedSet Value} (h : Inverse op left right)
    (h' : Inverse op left' right') : left = left' ∧ right = right' := by
  cases h <;> cases h' <;> exact ⟨rfl, rfl⟩

variable {states : List Input} {depth : Nat} {spec : Spec} {p : Program}

/-- What is derived is derived over each state alone, for what the spec accepts there. -/
theorem Derives.onEach (h : Derives states depth spec p) :
    spec.OnEach states fun v outputs => Derives [v] depth ⟨[outputs]⟩ p := by
  induction h with
  | @lit depth spec k hk =>
    have hs := (Derives.lit hk : Derives states depth spec (.lit k)).satisfiedBy
    exact (Spec.satisfiedBy_iff_single.1 hs).imp fun v _ outputs => .lit_of_satisfiedBy rfl
  | @elementAt depth spec position hp =>
    have hs := (Derives.elementAt hp : Derives states (depth + 1) spec _).satisfiedBy
    exact (Spec.satisfiedBy_iff_single.1 hs).imp fun v _ outputs => .elementAt_of_satisfiedBy
  | @binary _ _ op left right a b values row _ hvalues _ iha ihb =>
    rw [Witness.onEach_freeSpec] at iha
    rw [Witness.onEach_dependentSpec hvalues] at ihb
    intro s v outputs hv ho
    obtain ⟨x, hx⟩ := Program.exists_valuesOn_iff.1 ⟨values, hvalues⟩ v (List.mem_of_getElem? hv)
    have ha : a.valuesOn [v] = some [x] :=
      Program.valuesOn_cons.2 ⟨x, [], hx, Program.valuesOn_nil.2 rfl, rfl⟩
    exact .binary row (iha s v outputs hv ho) ha (ihb s v outputs hv ho x hx)

/-- The operands of an application derived over one state. -/
theorem Derives.operands {v : Input} {outputs : SortedSet Value} {op : Op}
    {left : Input → SortedSet Value → SortedSet Value}
    {right : Input → SortedSet Value → Value → SortedSet Value} {a b : Program}
    (row : Inverse op left right) (h : Derives [v] depth ⟨[outputs]⟩ (.apply op [a, b])) :
    ∃ below x, Derives [v] below ⟨[left v outputs]⟩ a ∧ a.value? v = some x ∧
      Derives [v] below ⟨[right v outputs x]⟩ b := by
  generalize hp : Program.apply op [a, b] = p at h
  cases h with
  | lit hk => cases hp
  | elementAt hpos => cases hp
  | @binary below _ op' left' right' a' b' values row' ha hvalues hb =>
    cases hp
    obtain ⟨rfl, rfl⟩ := row.unique row'
    obtain ⟨x, xs, hx, hxs, rfl⟩ := Program.valuesOn_cons.1 hvalues
    exact ⟨below, x, ha, hx, hb⟩

/-- What is derived over each state is derived over all. -/
theorem derives_of_onEach (hne : states ≠ []) (hl : spec.length = states.length)
    (h : spec.OnEach states fun v outputs => Derives [v] depth ⟨[outputs]⟩ p) :
    Derives states depth spec p := by
  obtain ⟨hconf, hd⟩ : p.Conforms ∧ p.depth ≤ depth := by
    obtain ⟨v, hv⟩ := List.exists_mem_of_ne_nil states hne
    obtain ⟨outputs, hv⟩ := h.exists_outputs hl hv
    exact ⟨hv.conforms, hv.depth_le⟩
  refine .of_operands (Q := fun spec p => spec.length = states.length ∧
    spec.OnEach states fun v outputs => ∃ d, Derives [v] d ⟨[outputs]⟩ p) ?_ ?_ hconf hd
    ⟨hl, h.imp fun _ _ _ h => ⟨depth, h⟩⟩
  · intro spec p h
    refine ⟨h.1, Spec.satisfiedBy_iff_single.2 (h.2.imp ?_)⟩
    intro v _ outputs h
    obtain ⟨d, h⟩ := h
    exact h.satisfiedBy
  · intro op left right row spec a b h
    obtain ⟨hl, h⟩ := h
    have hvalue : ∀ v ∈ states, ∃ x, a.value? v = some x := by
      intro v hv
      obtain ⟨outputs, d, hv⟩ := h.exists_outputs hl hv
      obtain ⟨_, x, _, hx, _⟩ := hv.operands row
      exact ⟨x, hx⟩
    obtain ⟨values, hvalues⟩ := Program.exists_valuesOn_iff.2 hvalue
    refine ⟨values, hvalues, ⟨Witness.length_freeSpec hl, Witness.onEach_freeSpec.2 (h.imp ?_)⟩,
      Witness.length_dependentSpec hl (Program.length_of_valuesOn hvalues),
      (Witness.onEach_dependentSpec hvalues).2 (h.imp ?_)⟩
    · intro v _ outputs h
      obtain ⟨d, h⟩ := h
      obtain ⟨below, _, ha, _⟩ := h.operands row
      exact ⟨below, ha⟩
    · intro v _ outputs h x hx
      obtain ⟨d, h⟩ := h
      obtain ⟨below, x', _, hx', hb⟩ := h.operands row
      obtain rfl : x' = x := Option.some.inj (hx'.symm.trans hx)
      exact ⟨below, hb⟩

/-- The programs of a version space are those derived for each of the examples. -/
theorem contains_versionSpace {examples : List Example} {config : Config} {clock : Clock}
    {space : Graph} (h : versionSpace examples config clock = .ok space) : space.contains p ↔
      ∀ e ∈ examples, Derives [e.input] config.limits.maxDepth (.exact [e.output]) p := by
  obtain ⟨hne, hshape⟩ := versionSpace_eq_ok h
  have hstates : examples.map (·.input) ≠ [] := by simpa using hne
  rw [← Space.contains_shape, hshape]
  constructor
  · intro hp
    exact Spec.onEach_exact.1 (derives_of_contains_learn hp).onEach
  · intro hp
    have hd := derives_of_onEach hstates Spec.length_exact (Spec.onEach_exact.2 hp)
    exact hd.contains_learn hstates Spec.length_exact

/-- **A version space is the intersection of those of its examples**, by whatever clocks these are
found. So the programs that are learned do not depend on the order of the examples, and fewer examples
lose none of them. -/
theorem versionSpace_intersection (config : Config) :
    (∀ (examples : List Example) (clock : Clock) (clocks : Example → Clock) (space : Graph)
        (single : Example → Graph), versionSpace examples config clock = .ok space →
          (∀ e ∈ examples, versionSpace [e] config (clocks e) = .ok (single e)) →
            ∀ p, space.contains p ↔ ∀ e ∈ examples, (single e).contains p) ∧
      (∀ (examples examples' : List Example) (clock clock' : Clock) (space space' : Graph),
        examples.Perm examples' → versionSpace examples config clock = .ok space →
          versionSpace examples' config clock' = .ok space' →
            ∀ p, space.contains p ↔ space'.contains p) ∧
      ∀ (examples examples' : List Example) (clock clock' : Clock) (space space' : Graph),
        examples' ⊆ examples → versionSpace examples config clock = .ok space →
          versionSpace examples' config clock' = .ok space' →
            ∀ p, space.contains p → space'.contains p := by
  refine ⟨?_, ?_, ?_⟩
  · intro examples clock clocks space single h hsingle p
    rw [contains_versionSpace h]
    refine forall₂_congr fun e he => ?_
    rw [contains_versionSpace (hsingle e he)]
    simp
  · intro examples examples' clock clock' space space' hperm h h' p
    rw [contains_versionSpace h, contains_versionSpace h']
    simp only [hperm.mem_iff]
  · intro examples examples' clock clock' space space' hsub h h' p hp
    exact (contains_versionSpace h').2 fun e he => (contains_versionSpace h).1 hp e (hsub he)

/-- The sum of two elements fits each of two examples, and so both, in either order. -/
theorem contains_sum_of_both :
    (∃ space, versionSpace [⟨[.ofNat 1, .ofNat 2], .ofNat 3⟩, ⟨[.ofNat 5, .ofNat 2], .ofNat 7⟩] {} =
        .ok space ∧ space.contains (.sum (.elementAt (.ofNat 0)) (.elementAt (.ofNat 1)))) ∧
      ∃ space, versionSpace [⟨[.ofNat 5, .ofNat 2], .ofNat 7⟩, ⟨[.ofNat 1, .ofNat 2], .ofNat 3⟩] {} =
        .ok space ∧ space.contains (.sum (.elementAt (.ofNat 0)) (.elementAt (.ofNat 1))) := by
  have hsum : ∀ e ∈ [(⟨[.ofNat 1, .ofNat 2], .ofNat 3⟩ : Example), ⟨[.ofNat 5, .ofNat 2], .ofNat 7⟩],
      (versionSpace [e] {}).toOption.any
        (·.contains (.sum (.elementAt (.ofNat 0)) (.elementAt (.ofNat 1)))) := by
    decide +kernel
  have hboth : (versionSpace
      [⟨[.ofNat 1, .ofNat 2], .ofNat 3⟩, ⟨[.ofNat 5, .ofNat 2], .ofNat 7⟩] {}).toOption.any
        fun _ => true := by
    decide +kernel
  have hswapped : (versionSpace
      [⟨[.ofNat 5, .ofNat 2], .ofNat 7⟩, ⟨[.ofNat 1, .ofNat 2], .ofNat 3⟩] {}).toOption.any
        fun _ => true := by
    decide +kernel
  obtain ⟨space, hspace, _⟩ := exists_ok_of_any hboth
  obtain ⟨space', hspace', _⟩ := exists_ok_of_any hswapped
  have : Nonempty Graph := ⟨space⟩
  choose! single hsingle using fun e he => exists_ok_of_any (hsum e he)
  have hp := ((versionSpace_intersection {}).1 _ _ (fun _ => .stopped) space single hspace
    (fun e he => (hsingle e he).1) _).2 fun e he => (hsingle e he).2
  refine ⟨⟨space, hspace, hp⟩, space', hspace', ?_⟩
  exact ((versionSpace_intersection {}).2.1 _ _ _ _ space space' (.swap _ _ _) hspace hspace' _).1 hp

end ArithLearn
