/-
The programs of a search, declaratively.

`Derives states depth spec p` says that the grammar and the witnesses allow
`p` for the spec. It has one rule for each way of making a program, speaks
of one program at a time, and knows nothing of spaces, of their parts, or
of the order in which things are tried.

What a search finds is derived (`derives_of_contains_learn`), and what is
derived is found, if there are states and the spec is aligned with them
(`Derives.contains_learn`). What is derived meets the spec and is a program
of the grammar, so a search is sound. `Derives.of_operands` gives derivations
to whatever can be carried from a program to its operands.
-/
import ArithLearn.Proofs.Witness
import ArithLearn.Proofs.Search.Contents

namespace ArithLearn

namespace Program

/-- The programs of the grammar. -/
inductive Conforms : Program → Prop
  | lit (k : Value) : Conforms (.lit k)
  | elementAt (position : Value) : Conforms (.elementAt position)
  | binary {op : Op} {a b : Program} (hop : op.IsBinary) (ha : Conforms a) (hb : Conforms b) :
      Conforms (.apply op [a, b])

theorem depth_elementAt (position : Value) : (elementAt position).depth = 1 := by
  simp [elementAt, apply, depth, depthAll]

theorem depth_binary (op : Op) (a b : Program) :
    (apply op [a, b]).depth = 1 + max a.depth b.depth := by
  simp [apply, depth, depthAll]

end Program

/-! ### Derivations -/

/-- The programs derived for a spec over the states. -/
inductive Derives (states : List Input) : Nat → Spec → Program → Prop
  /-- A literal every state accepts. -/
  | lit {depth : Nat} {spec : Spec} {k : Value} (hk : ∀ outputs ∈ spec.outputs, k ∈ outputs) :
      Derives states depth spec (.lit k)
  /-- A position that holds an accepted value on every state. -/
  | elementAt {depth : Nat} {spec : Spec} {position : Value}
      (hp : spec.OnEach states fun v outputs =>
        0 ≤ position.toInt ∧ ∃ n ∈ outputs, v[position.toInt.toNat]? = some n) :
      Derives states (depth + 1) spec (.elementAt position)
  /-- An operator over a left operand that has values, and a right one that is derived for what the
  operator asks of it beside these. -/
  | binary {depth : Nat} {spec : Spec} {op : Op} {left : Input → SortedSet Value → SortedSet Value}
      {right : Input → SortedSet Value → Value → SortedSet Value} {a b : Program}
      {values : List Value} (row : Inverse op left right)
      (ha : Derives states depth (Witness.freeSpec left states spec) a)
      (hv : a.valuesOn states = some values)
      (hb : Derives states depth (Witness.dependentSpec right states spec values) b) :
      Derives states (depth + 1) spec (.apply op [a, b])

namespace Derives

variable {states : List Input} {depth : Nat} {spec : Spec} {p : Program}

theorem conforms (h : Derives states depth spec p) : p.Conforms := by
  induction h with
  | lit => exact .lit _
  | elementAt => exact .elementAt _
  | binary row _ _ _ iha ihb => exact .binary row.isBinary iha ihb

theorem depth_le (h : Derives states depth spec p) : p.depth ≤ depth := by
  induction h with
  | lit => simp [Program.depth]
  | elementAt =>
    rw [Program.depth_elementAt]
    omega
  | binary _ _ _ _ iha ihb =>
    rw [Program.depth_binary]
    omega

/-- A literal that meets an aligned spec is derived. -/
theorem lit_of_satisfiedBy {k : Value} (hl : spec.length = states.length)
    (hs : spec.satisfiedBy states (.lit k)) : Derives states depth spec (.lit k) := by
  refine .lit fun outputs ho => ?_
  obtain ⟨v, n, hn, hk⟩ := (Spec.satisfiedBy_iff.1 hs).exists_state hl ho
  rw [Program.value?_lit, Option.some.injEq] at hk
  rwa [hk]

/-- The reading of an element that meets the spec is derived. -/
theorem elementAt_of_satisfiedBy {position : Value}
    (hs : spec.satisfiedBy states (.elementAt position)) :
    Derives states (depth + 1) spec (.elementAt position) := by
  refine .elementAt ((Spec.satisfiedBy_iff.1 hs).imp ?_)
  intro v _ outputs h
  obtain ⟨n, hn, hval⟩ := h
  obtain ⟨hpos, hget⟩ := Program.value?_elementAt.1 hval
  exact ⟨hpos, n, hn, hget⟩

/-- What is derived meets the spec, aligned or not. -/
theorem satisfiedBy (h : Derives states depth spec p) : spec.satisfiedBy states p := by
  rw [Spec.satisfiedBy_iff]
  induction h with
  | lit hk =>
    refine (Spec.onEach_of_forall_mem hk).imp fun v _ outputs hmem => ?_
    exact ⟨_, hmem, Program.value?_lit⟩
  | elementAt hp =>
    refine hp.imp ?_
    intro v _ outputs h
    obtain ⟨hpos, n, hn, hget⟩ := h
    exact ⟨n, hn, Program.value?_elementAt.2 ⟨hpos, hget⟩⟩
  | binary row _ hvalues _ _ ihb =>
    refine ((Witness.onEach_dependentSpec hvalues).1 ihb).imp fun v hv outputs hright => ?_
    obtain ⟨x, ha⟩ := Program.exists_valuesOn_iff.1 ⟨_, hvalues⟩ v hv
    obtain ⟨y, hy, hb⟩ := hright x ha
    obtain ⟨n, hn, hexact⟩ := row.gives_of_mem_right hy
    exact ⟨n, hn, Program.value?_binary.2 ⟨x, y, ha, hb, (Op.exactly_iff.1 hexact).1⟩⟩

/-- To derive a program of the grammar, it is enough that something holds of the spec and it that says
that the spec is met, and that goes over to the operands with what is asked of them. -/
theorem of_operands {Q : Spec → Program → Prop}
    (meets : ∀ spec p, Q spec p → spec.length = states.length ∧ spec.satisfiedBy states p)
    (operands : ∀ op left right, Inverse op left right → ∀ spec a b, Q spec (.apply op [a, b]) →
      ∃ values, a.valuesOn states = some values ∧ Q (Witness.freeSpec left states spec) a ∧
        Q (Witness.dependentSpec right states spec values) b)
    (hp : p.Conforms) (hd : p.depth ≤ depth) (h : Q spec p) : Derives states depth spec p := by
  induction hp generalizing depth spec with
  | lit k =>
    obtain ⟨hl, hs⟩ := meets _ _ h
    exact .lit_of_satisfiedBy hl hs
  | elementAt position =>
    rw [Program.depth_elementAt] at hd
    obtain ⟨depth, rfl⟩ : ∃ d, depth = d + 1 := ⟨depth - 1, by omega⟩
    exact .elementAt_of_satisfiedBy (meets _ _ h).2
  | @binary op a b hop _ _ iha ihb =>
    rw [Program.depth_binary] at hd
    obtain ⟨depth, rfl⟩ : ∃ d, depth = d + 1 := ⟨depth - 1, by omega⟩
    obtain ⟨left, right, row⟩ := Inverse.exists_of_isBinary hop
    obtain ⟨values, hvalues, ha, hb⟩ := operands op left right row spec a b h
    exact .binary row (iha (by omega) ha) hvalues (ihb (by omega) hb)

end Derives

/-! ### What is found is derived, and the other way round -/

section

variable {states : List Input} {depth : Nat} {symbol : Symbol} {spec : Spec} {p : Program}

/-- The row of a binary operator holds its witnesses. -/
theorem Inverse.of_eq {op : Op} {left : Input → SortedSet Value → SortedSet Value}
    {right : Input → SortedSet Value → Value → SortedSet Value} (row : Inverse op left right) :
    Operator.of op = .binary op left right := by
  cases row <;> rfl

theorem eq_elementAt_or_inverse (op : Op) :
    op = .elementAt ∨ ∃ left right, Inverse op left right := by
  cases op with
  | sum => exact .inr (Inverse.exists_of_isBinary .sum)
  | mul => exact .inr (Inverse.exists_of_isBinary .mul)
  | div => exact .inr (Inverse.exists_of_isBinary .div)
  | elementAt => exact .inl rfl

/-- The positions found for all states hold an accepted value on each. -/
theorem forall_mem_elementPosition {position : Value} :
    (∀ positions ∈ (Witness.freeSpec elementPosition states spec).outputs, position ∈ positions) ↔
      spec.OnEach states fun v outputs =>
        0 ≤ position.toInt ∧ ∃ n ∈ outputs, v[position.toInt.toNat]? = some n := by
  simp only [Witness.forall_mem_freeSpec, mem_elementPosition]

/-- What a search finds is derived. -/
theorem derives_of_contains_learn (h : (Plain.learn states depth symbol spec).contains p) :
    Derives states depth spec p := by
  cases symbol with
  | input => exact absurd h Plain.contains_learn_input
  | constant =>
    obtain ⟨k, hk, rfl⟩ := Plain.contains_learn_constant.1 h
    exact .lit (Spec.mem_common.1 hk).2
  | start =>
    induction depth generalizing spec p with
    | zero =>
      obtain ⟨_, ⟨k, hk, rfl⟩ | ⟨d, _, hd, _⟩⟩ := Plain.contains_learn_start.1 h
      · exact .lit (Spec.mem_common.1 hk).2
      · cases hd
    | succ depth ih =>
      obtain ⟨_, ⟨k, hk, rfl⟩ | ⟨d, op, hd, h⟩⟩ := Plain.contains_learn_start.1 h
      · exact .lit (Spec.mem_common.1 hk).2
      cases hd
      have hu : ∀ symbol spec, spec.isUnsatisfiable →
          (Plain.learn states depth symbol spec).isEmpty := fun _ _ => Plain.isEmpty_learn
      rcases eq_elementAt_or_inverse op with rfl | ⟨left, right, row⟩
      · obtain ⟨q, rfl, hq⟩ := (Plain.contains_operator_elementAt hu).1 h
        obtain ⟨position, hpos, rfl⟩ := Plain.contains_learn_constant.1 hq
        exact .elementAt (forall_mem_elementPosition.1 (Spec.mem_common.1 hpos).2)
      · rw [row.of_eq] at h
        obtain ⟨a, b, values, rfl, ha, hv, hb⟩ :=
          (Plain.contains_operator_binary hu (Plain.applied_learn depth)).1 h
        exact .binary row (ih ha) hv (ih hb)

/-- What is derived is found. Over an aligned spec nothing that is cut off could have led to a
program: where a state accepts nothing, nothing is derived. -/
theorem Derives.contains_learn (h : Derives states depth spec p) (hne : states ≠ [])
    (hl : spec.length = states.length) : (Plain.learn states depth .start spec).contains p := by
  have nonempty : ∀ {spec : Spec}, spec.length = states.length → spec.outputs ≠ [] := by
    intro spec hl hnil
    rw [Spec.length, hnil] at hl
    exact hne (List.eq_nil_of_length_eq_zero hl.symm)
  have hu : ∀ {depth symbol} {spec : Spec}, spec.isUnsatisfiable →
      (Plain.learn states depth symbol spec).isEmpty := Plain.isEmpty_learn
  induction h with
  | @lit depth spec k hk =>
    have h := Spec.not_isUnsatisfiable hl
      (Derives.lit hk : Derives states depth spec (.lit k)).satisfiedBy
    exact Plain.contains_learn_start.2
      ⟨h, .inl ⟨k, Spec.mem_common.2 ⟨nonempty hl, hk⟩, rfl⟩⟩
  | @elementAt depth spec position hp =>
    have h := Spec.not_isUnsatisfiable hl
      (Derives.elementAt hp : Derives states (depth + 1) spec _).satisfiedBy
    refine Plain.contains_learn_start.2 ⟨h, .inr ⟨depth, .elementAt, rfl, ?_⟩⟩
    refine (Plain.contains_operator_elementAt fun _ _ => hu).2 ⟨_, rfl, ?_⟩
    exact Plain.contains_learn_constant.2 ⟨position, Spec.mem_common.2
      ⟨nonempty (Witness.length_freeSpec hl), forall_mem_elementPosition.2 hp⟩, rfl⟩
  | @binary depth spec op left right a b values row ha hv hb iha ihb =>
    have h := Spec.not_isUnsatisfiable hl (Derives.binary row ha hv hb).satisfiedBy
    refine Plain.contains_learn_start.2 ⟨h, .inr ⟨depth, op, rfl, ?_⟩⟩
    rw [row.of_eq]
    refine (Plain.contains_operator_binary (fun _ _ => hu) (Plain.applied_learn depth)).2 ?_
    exact ⟨a, b, values, rfl, iha (Witness.length_freeSpec hl), hv,
      ihb (Witness.length_dependentSpec hl (Program.length_of_valuesOn hv))⟩

/-- **The learned space is what is derived**, in every state a search can be in. -/
theorem contains_iff_derives {s : Search} {space : Graph} (hs : s.Reachable states)
    (hne : states ≠ []) (hl : spec.length = states.length)
    (h : (Search.attempt (Search.learn states depth .start spec) s).1 = .ok space) (p : Program) :
    space.contains p ↔ Derives states depth spec p := by
  rw [← Space.contains_shape, hs.learn_eq h]
  exact ⟨derives_of_contains_learn, fun h => h.contains_learn hne hl⟩

/-- A spec that accepts two values on one of two states, after something else was learned: the sum of
the elements is found, and so it is derived. -/
theorem derives_sum_elements :
    ∃ space, (Search.attempt (Search.learn [[.ofNat 1, .ofNat 2], [.ofNat 5, .ofNat 2]] 2 .start
        ⟨[.ofList [.ofNat 3, .ofNat 4], .singleton (.ofNat 7)]⟩)
        (Search.attempt (Search.learn [[.ofNat 1, .ofNat 2], [.ofNat 5, .ofNat 2]] 1 .start
          (.exact [.ofNat 2, .ofNat 2])) (.start {})).2).1 = .ok space ∧
      space.contains (.sum (.elementAt (.ofNat 0)) (.elementAt (.ofNat 1))) ∧
      Derives [[.ofNat 1, .ofNat 2], [.ofNat 5, .ofNat 2]] 2
        ⟨[.ofList [.ofNat 3, .ofNat 4], .singleton (.ofNat 7)]⟩
        (.sum (.elementAt (.ofNat 0)) (.elementAt (.ofNat 1))) := by
  have hfound : (Search.attempt (Search.learn [[.ofNat 1, .ofNat 2], [.ofNat 5, .ofNat 2]] 2 .start
      ⟨[.ofList [.ofNat 3, .ofNat 4], .singleton (.ofNat 7)]⟩)
      (Search.attempt (Search.learn [[.ofNat 1, .ofNat 2], [.ofNat 5, .ofNat 2]] 1 .start
        (.exact [.ofNat 2, .ofNat 2])) (.start {})).2).1.toOption.any
        (·.contains (.sum (.elementAt (.ofNat 0)) (.elementAt (.ofNat 1)))) := by
    decide +kernel
  obtain ⟨space, hspace, hp⟩ := exists_ok_of_any hfound
  refine ⟨space, hspace, hp, ?_⟩
  exact (contains_iff_derives (.learn (.start {}) 1 .start _) (by simp) (by decide) hspace _).1 hp

end

/-! ### Soundness -/

/-- **A search is sound**, in every state it can be in: whatever it learns for a spec meets it, and a
program for the start symbol is one of the grammar, nested no deeper than was allowed. So the
programs of a version space give the output of every example. -/
theorem learn_sound :
    (∀ (states : List Input) (s : Search) (depth : Nat) (symbol : Symbol) (spec : Spec)
      (space : Graph), s.Reachable states →
        (Search.attempt (Search.learn states depth symbol spec) s).1 = .ok space →
          ∀ p, space.contains p → spec.satisfiedBy states p ∧
            (symbol = .start → p.Conforms ∧ p.depth ≤ depth)) ∧
      ∀ (examples : List Example) (config : Config) (clock : Clock) (space : Graph),
        versionSpace examples config clock = .ok space →
          ∀ p, space.contains p → ∀ e ∈ examples, p.run e.input = .ok e.output := by
  constructor
  · intro states s depth symbol spec space hs h p hp
    rw [← Space.contains_shape, hs.learn_eq h] at hp
    have hd := derives_of_contains_learn hp
    exact ⟨hd.satisfiedBy, fun _ => ⟨hd.conforms, hd.depth_le⟩⟩
  · intro examples config clock space h p hp
    rw [← Space.contains_shape, (versionSpace_eq_ok h).2] at hp
    exact Spec.fits_iff.1 (derives_of_contains_learn hp).satisfiedBy

/-- The quotient of six and three, found by a search that learned something before, and by one that
did not. -/
theorem learn_sound_div_elements :
    (∃ space, (Search.attempt (Search.learn [[.ofNat 6, .ofNat 3]] 2 .start (.exact [.ofNat 2]))
        (Search.attempt (Search.learn [[.ofNat 6, .ofNat 3]] 1 .start (.exact [.ofNat 3]))
          (.start {})).2).1 = .ok space ∧
      space.contains (.div (.elementAt (.ofNat 0)) (.elementAt (.ofNat 1))) ∧
      (Spec.exact [.ofNat 2]).satisfiedBy [[.ofNat 6, .ofNat 3]]
        (.div (.elementAt (.ofNat 0)) (.elementAt (.ofNat 1))) ∧
      (Program.div (.elementAt (.ofNat 0)) (.elementAt (.ofNat 1))).Conforms) ∧
    ∃ space, versionSpace [⟨[.ofNat 6, .ofNat 3], .ofNat 2⟩] {} = .ok space ∧
      space.contains (.div (.elementAt (.ofNat 0)) (.elementAt (.ofNat 1))) ∧
      (Program.div (.elementAt (.ofNat 0)) (.elementAt (.ofNat 1))).run [.ofNat 6, .ofNat 3] =
        .ok (.ofNat 2) := by
  constructor
  · have hlearned : (Search.attempt
        (Search.learn [[.ofNat 6, .ofNat 3]] 2 .start (.exact [.ofNat 2]))
        (Search.attempt (Search.learn [[.ofNat 6, .ofNat 3]] 1 .start (.exact [.ofNat 3]))
          (.start {})).2).1.toOption.any
          (·.contains (.div (.elementAt (.ofNat 0)) (.elementAt (.ofNat 1)))) := by
      decide +kernel
    obtain ⟨space, hspace, hp⟩ := exists_ok_of_any hlearned
    obtain ⟨hsat, hstart⟩ := learn_sound.1 _ _ 2 .start _ space
      (.learn (.start {}) 1 .start (.exact [.ofNat 3])) hspace _ hp
    exact ⟨space, hspace, hp, hsat, (hstart rfl).1⟩
  · have hversion : (versionSpace [⟨[.ofNat 6, .ofNat 3], .ofNat 2⟩] {}).toOption.any
        (·.contains (.div (.elementAt (.ofNat 0)) (.elementAt (.ofNat 1)))) := by
      decide +kernel
    obtain ⟨space, hspace, hp⟩ := exists_ok_of_any hversion
    exact ⟨space, hspace, hp, learn_sound.2 _ _ _ space hspace _ hp _ (List.mem_singleton_self _)⟩

end ArithLearn
