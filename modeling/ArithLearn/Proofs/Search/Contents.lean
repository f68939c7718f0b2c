/-
Which programs the plain search finds, level by level.

`contains_learn_start`: a literal every state accepts, or an application
from the table of operators. `contains_operator_binary` and
`contains_operator_elementAt` say which applications: the operands are
found one level less deep, for the specs the witnesses give. Nothing is
left there of the checks that cut a search short, nor of the splitting of
an operand: what is cut is empty, and the parts of a space hold what the
space holds, by values (`offers_parts`).
-/
import ArithLearn.Proofs.Spec
import ArithLearn.Proofs.Search.Plain

namespace ArithLearn

namespace Plain

variable {states : List Input} {lower : Symbol → Spec → Space Unit}

theorem contains_literals {spec : Spec} {p : Program} :
    (literals spec).contains p ↔ ∃ k ∈ spec.common, p = .lit k := by
  rw [literals, Space.contains_leaf, SortedSet.mem_image]
  constructor
  · intro h
    obtain ⟨k, hk, rfl⟩ := h
    exact ⟨k, hk, rfl⟩
  · intro h
    obtain ⟨k, hk, rfl⟩ := h
    exact ⟨k, hk, rfl⟩

/-! ### Operators -/

/-- One of the spaces holds the program. -/
def Among (ss : List (Space Unit)) (p : Program) : Prop := ∃ s ∈ ss, s.contains p

theorem contains_operator {o : Operator} {spec : Spec} {p : Program} :
    (operator states lower o spec).contains p ↔
      Among (params states lower o spec o.searched [.inputLeaf ()] []) p := by
  simp [operator, Among]

section Params

variable {o : Operator} {spec paramSpec : Spec} {i : Nat} {symbol : Symbol} {w : Witness}
  {rest : List (Nat × Symbol × Witness)} {children : List (Space Unit)}
  {chosen : List (Nat × List Value)} {p : Program}

theorem among_params_nil :
    Among (params states lower o spec [] children chosen) p ↔
      (Space.joinOf () o.op children).contains p := by
  simp [params, Among]

/-- A parameter no other depends on is learned, and that is that. -/
theorem among_params_cons (hw : w.spec? states spec (chosen.lookup ·) = some paramSpec)
    (hu : paramSpec.isUnsatisfiable → (lower symbol paramSpec).isEmpty)
    (hd : ¬ o.isDependency i) :
    Among (params states lower o spec ((i, symbol, w) :: rest) children chosen) p ↔
      ¬ (lower symbol paramSpec).isEmpty ∧
        Among (params states lower o spec rest (children ++ [lower symbol paramSpec]) chosen) p := by
  rw [params, hw]
  by_cases he : (lower symbol paramSpec).isEmpty
  · simp [he, Among]
  · have hu : ¬ paramSpec.isUnsatisfiable := fun h => he (hu h)
    simp [he, hu, hd]

/-- A parameter that others depend on is split, and they are learned for each part. -/
theorem among_params_cons_of_isDependency
    (hw : w.spec? states spec (chosen.lookup ·) = some paramSpec)
    (hu : paramSpec.isUnsatisfiable → (lower symbol paramSpec).isEmpty)
    (hd : o.isDependency i) :
    Among (params states lower o spec ((i, symbol, w) :: rest) children chosen) p ↔
      ¬ (lower symbol paramSpec).isEmpty ∧ ∃ c ∈ (lower symbol paramSpec).parts states,
        Among (params states lower o spec rest (children ++ [c.2]) ((i, c.1) :: chosen)) p := by
  rw [params, hw]
  by_cases he : (lower symbol paramSpec).isEmpty
  · simp [he, Among]
  · have hu : ¬ paramSpec.isUnsatisfiable := fun h => he (hu h)
    dsimp only
    rw [if_neg hu, if_neg he, if_pos hd]
    constructor
    · intro h
      obtain ⟨s, hs, hp⟩ := h
      obtain ⟨c, hc, hs⟩ := List.mem_flatMap.1 hs
      exact ⟨he, c, hc, s, hs, hp⟩
    · intro h
      obtain ⟨_, c, hc, s, hs, hp⟩ := h
      exact ⟨s, List.mem_flatMap.2 ⟨c, hc, hs⟩, hp⟩

end Params

section Rows

variable {spec : Spec} {p : Program}

/-- Once the left operand is one of a part, the right one is learned for the values of the part. -/
theorem among_params_right {op : Op} {left : Input → SortedSet Value → SortedSet Value}
    {right : Input → SortedSet Value → Value → SortedSet Value}
    (hu : ∀ symbol spec, spec.isUnsatisfiable → (lower symbol spec).isEmpty) (c : Part) :
    Among (params states lower (.binary op left right) spec [(2, .start, .dependent 1 right)]
      [.inputLeaf (), c.2] [(1, c.1)]) p ↔
      ∃ a b, p = .apply op [a, b] ∧ c.2.contains a ∧
        (lower .start (Witness.dependentSpec right states spec c.1)).contains b := by
  have hd : ¬ (Operator.binary op left right).isDependency 2 := by
    simp [Operator.isDependency, Operator.binary, Witness.dependsOn?]
  rw [among_params_cons rfl (hu _ _) hd, among_params_nil, List.cons_append, List.singleton_append,
    Space.contains_joinOf_binary]
  constructor
  · exact fun h => h.2
  · intro h
    obtain ⟨a, b, rfl, ha, hb⟩ := h
    exact ⟨by simp [Space.not_isEmpty_of_contains hb], a, b, rfl, ha, hb⟩

/-- The applications of an operator with two operands. -/
theorem contains_operator_binary {op : Op} {left : Input → SortedSet Value → SortedSet Value}
    {right : Input → SortedSet Value → Value → SortedSet Value}
    (hu : ∀ symbol spec, spec.isUnsatisfiable → (lower symbol spec).isEmpty)
    (ha : ∀ symbol spec, (lower symbol spec).Applied) :
    (operator states lower (.binary op left right) spec).contains p ↔
      ∃ a b values, p = .apply op [a, b] ∧
        (lower .start (Witness.freeSpec left states spec)).contains a ∧
        a.valuesOn states = some values ∧
        (lower .start (Witness.dependentSpec right states spec values)).contains b := by
  have hs : (Operator.binary op left right).searched =
      [(1, .start, .free left), (2, .start, .dependent 1 right)] := rfl
  rw [contains_operator, hs, among_params_cons_of_isDependency rfl (hu _ _) rfl]
  constructor
  · intro h
    obtain ⟨_, c, hc, h⟩ := h
    obtain ⟨a, b, rfl, hca, hb⟩ := (among_params_right hu c).1 h
    obtain ⟨hla, hv⟩ := (offers_parts (ha _ _)).1 ⟨c, hc, rfl, hca⟩
    exact ⟨a, b, c.1, rfl, hla, hv, hb⟩
  · intro h
    obtain ⟨a, b, values, rfl, hla, hv, hb⟩ := h
    obtain ⟨c, hc, rfl, hca⟩ := (offers_parts (ha _ _)).2 ⟨hla, hv⟩
    refine ⟨by simp [Space.not_isEmpty_of_contains hla], c, hc, ?_⟩
    exact (among_params_right hu c).2 ⟨a, b, rfl, hca, hb⟩

/-- The readings of an element. -/
theorem contains_operator_elementAt
    (hu : ∀ symbol spec, spec.isUnsatisfiable → (lower symbol spec).isEmpty) :
    (operator states lower (.of .elementAt) spec).contains p ↔
      ∃ q, p = .apply .elementAt [q] ∧
        (lower .constant (Witness.freeSpec elementPosition states spec)).contains q := by
  have hd : ¬ (Operator.of .elementAt).isDependency 1 := by
    simp [Operator.isDependency, Operator.of, Witness.dependsOn?]
  have hs : (Operator.of .elementAt).searched = [(1, .constant, .free elementPosition)] := rfl
  rw [contains_operator, hs, among_params_cons rfl (hu _ _) hd, among_params_nil,
    List.singleton_append, Space.contains_joinOf_unary]
  constructor
  · exact fun h => h.2
  · intro h
    obtain ⟨q, rfl, hq⟩ := h
    exact ⟨by simp [Space.not_isEmpty_of_contains hq], q, rfl, hq⟩

end Rows

/-! ### Levels -/

/-- What stands for a parameter in a join: the space learned for it, or a part of that. -/
def Operand (states : List Input) (lower : Symbol → Spec → Space Unit) (symbol : Symbol)
    (s : Space Unit) : Prop :=
  ∃ spec, ¬ spec.isUnsatisfiable ∧
    (s = lower symbol spec ∨ ∃ c ∈ (lower symbol spec).parts states, s = c.2)

/-- The joins found for an operator stand over what there was, and an operand for each parameter
searched. -/
theorem exists_of_mem_params {o : Operator} {spec : Spec}
    {searched : List (Nat × Symbol × Witness)} {cs : List (Space Unit)}
    {chosen : List (Nat × List Value)} {s : Space Unit}
    (h : s ∈ params states lower o spec searched cs chosen) :
    ∃ operands, s = .joinOf () o.op (cs ++ operands) ∧
      List.Forall₂ (fun param t => Operand states lower param.2.1 t) searched operands := by
  induction searched generalizing cs chosen with
  | nil =>
    rw [params, List.mem_singleton] at h
    exact ⟨[], by simp [h], .nil⟩
  | cons param rest ih =>
    obtain ⟨i, symbol, w⟩ := param
    -- What the rest adds to a first operand.
    have hcons : ∀ {t chosen'}, Operand states lower symbol t →
        s ∈ params states lower o spec rest (cs ++ [t]) chosen' →
        ∃ operands, s = .joinOf () o.op (cs ++ operands) ∧ List.Forall₂
          (fun param t => Operand states lower param.2.1 t) ((i, symbol, w) :: rest) operands := by
      intro t chosen' ht h
      obtain ⟨operands, rfl, hall⟩ := ih h
      exact ⟨t :: operands, by simp, .cons ht hall⟩
    unfold params at h
    split at h
    · simp at h
    · rename_i paramSpec _
      by_cases hu : paramSpec.isUnsatisfiable
      · simp [hu] at h
      by_cases he : (lower symbol paramSpec).isEmpty
      · simp [he] at h
      rw [if_neg hu, if_neg he] at h
      by_cases hd : o.isDependency i
      · rw [if_pos hd] at h
        obtain ⟨c, hmem, h⟩ := List.mem_flatMap.1 h
        exact hcons ⟨paramSpec, hu, .inr ⟨c, hmem, rfl⟩⟩ h
      · rw [if_neg hd] at h
        exact hcons ⟨paramSpec, hu, .inl rfl⟩ h

/-- They stand over the input and at least one argument, if any parameter is searched. -/
theorem applied_params {o : Operator} {spec : Spec} (hl : ∀ symbol spec, (lower symbol spec).Applied)
    {searched : List (Nat × Symbol × Witness)} (hne : searched ≠ []) {s : Space Unit}
    (h : s ∈ params states lower o spec searched [.inputLeaf ()] []) : s.Applied := by
  obtain ⟨operands, rfl, hall⟩ := exists_of_mem_params h
  obtain ⟨param, rest, rfl⟩ := List.exists_cons_of_ne_nil hne
  obtain ⟨t, ts, _, _, rfl⟩ := List.forall₂_cons_left_iff.1 hall
  refine .joinOf fun c hc => ?_
  obtain ⟨_, _, spec, _, rfl | ⟨part, hpart, rfl⟩⟩ := exists_of_forall₂ hall.flip hc
  · exact hl _ _
  · exact applied_of_mem_parts (hl _ _) hpart

theorem op_of (op : Op) : (Operator.of op).op = op := by
  cases op <;> rfl

theorem searched_ne_nil (op : Op) : (Operator.of op).searched ≠ [] := by
  cases op <;> simp [Operator.of, Operator.binary, Operator.searched]

/-- The members of a start union: the literals, and the applications of every operator, where any
are allowed. -/
theorem mem_members {operators? : Option (Op → Spec → Space Unit)} {spec : Spec}
    {m : Space.Member Unit} :
    m ∈ Symbol.start.productions.flatMap (members operators? spec) ↔
      m = ⟨literals spec, true⟩ ∨
        ∃ op operators, operators? = some operators ∧ m = ⟨operators op spec, false⟩ := by
  rw [List.mem_flatMap]
  constructor
  · intro h
    obtain ⟨op | _, _, hm⟩ := h
    · cases operators? with
      | none => simp [members] at hm
      | some operators => exact .inr ⟨op, operators, rfl, List.mem_singleton.1 hm⟩
    · exact .inl (List.mem_singleton.1 hm)
  · intro h
    rcases h with rfl | ⟨op, operators, rfl, rfl⟩
    · exact ⟨.literal, by decide, by simp [members]⟩
    · exact ⟨.op op, by cases op <;> decide, by simp [members]⟩

theorem applied_level {operators? : Option (Op → Spec → Space Unit)} {symbol : Symbol} {spec : Spec}
    (ho : ∀ operators, operators? = some operators → ∀ op, (operators op spec).Applied) :
    (level operators? symbol spec).Applied := by
  unfold level
  split
  · exact .union (by simp)
  cases symbol with
  | input => exact .union (by simp)
  | constant => exact .leaf _ _
  | start =>
    refine .unionOf fun m hm => ?_
    rcases mem_members.1 hm with rfl | ⟨op, operators, h, rfl⟩
    · exact .leaf _ _
    · exact ho operators h op

theorem applied_learn (depth : Nat) (symbol : Symbol) (spec : Spec) :
    (learn states depth symbol spec).Applied := by
  induction depth generalizing symbol spec with
  | zero => exact applied_level (by simp)
  | succ depth ih =>
    refine applied_level fun operators h op => ?_
    cases h
    refine .unionOf fun m hm => ?_
    obtain ⟨s, hs, rfl⟩ := List.mem_map.1 hm
    exact applied_params ih (searched_ne_nil op) hs

theorem isEmpty_learn {depth : Nat} {symbol : Symbol} {spec : Spec} (h : spec.isUnsatisfiable) :
    (learn states depth symbol spec).isEmpty := by
  rw [learn_of_isUnsatisfiable h]
  simp

theorem contains_learn_input {depth : Nat} {spec : Spec} {p : Program} :
    ¬ (learn states depth .input spec).contains p := by
  cases depth <;> simp only [learn, level, built] <;> split <;> simp

theorem not_contains_of_isUnsatisfiable {depth : Nat} {symbol : Symbol} {spec : Spec}
    (h : spec.isUnsatisfiable) {p : Program} : ¬ (learn states depth symbol spec).contains p :=
  Space.isEmpty_iff.1 (isEmpty_learn h) p

/-- A state that accepts nothing accepts no literal, so nothing is cut off here. -/
theorem contains_learn_constant {depth : Nat} {spec : Spec} {p : Program} :
    (learn states depth .constant spec).contains p ↔ ∃ k ∈ spec.common, p = .lit k := by
  by_cases hu : spec.isUnsatisfiable
  · refine iff_of_false (not_contains_of_isUnsatisfiable hu) ?_
    intro h
    obtain ⟨k, hk, _⟩ := h
    obtain ⟨outputs, ho, hno⟩ := Spec.isUnsatisfiable_iff.1 hu
    exact hno k ((Spec.mem_common.1 hk).2 outputs ho)
  · rw [learn_constant hu, contains_literals]

theorem contains_level_start {operators? : Option (Op → Spec → Space Unit)} {spec : Spec}
    {p : Program} (hu : ¬ spec.isUnsatisfiable) :
    (level operators? .start spec).contains p ↔ (literals spec).contains p ∨
      ∃ op operators, operators? = some operators ∧ (operators op spec).contains p := by
  rw [level, if_neg hu, built, Space.contains_unionOf]
  constructor
  · intro h
    obtain ⟨m, hm, hp⟩ := h
    rcases mem_members.1 hm with rfl | ⟨op, operators, h, rfl⟩
    · exact .inl hp
    · exact .inr ⟨op, operators, h, hp⟩
  · intro h
    rcases h with hp | ⟨op, operators, h, hp⟩
    · exact ⟨_, mem_members.2 (.inl rfl), hp⟩
    · exact ⟨_, mem_members.2 (.inr ⟨op, operators, h, rfl⟩), hp⟩

/-- The literals every state accepts are found at any depth, and the applications of an operator
at those above zero. -/
theorem contains_learn_start {depth : Nat} {spec : Spec} {p : Program} :
    (learn states depth .start spec).contains p ↔ ¬ spec.isUnsatisfiable ∧
      ((∃ k ∈ spec.common, p = .lit k) ∨ ∃ d op, depth = d + 1 ∧
        (operator states (learn states d) (.of op) spec).contains p) := by
  by_cases hu : spec.isUnsatisfiable
  · exact iff_of_false (not_contains_of_isUnsatisfiable hu) fun h => h.1 hu
  rw [and_iff_right hu]
  cases depth with
  | zero =>
    rw [learn, contains_level_start hu, contains_literals]
    simp
  | succ depth =>
    rw [learn, contains_level_start hu, contains_literals]
    simp

end Plain

end ArithLearn
