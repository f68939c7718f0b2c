/-
What the witnesses find, value by value.

`Inverse op left right` names the two witnesses of a binary operator. The
left one finds exactly the elements that give an accepted result together
with a partner, an element of another place (`Inverse.mem_left`). The right
one finds no value but those that give an accepted result
(`Inverse.gives_of_mem_right`), and it finds every partner of the left
operand that gives one exactly (`Inverse.mem_right_of_mem`), also
under a zero, where the result says nothing about the operand.
-/
import ArithLearn.Witness
import ArithLearn.Proofs.Arithmetic

namespace ArithLearn

/-- The values stand at two places of the input that are not the same. -/
def Partners (v : Input) (a b : Value) : Prop :=
  ∃ i j : Nat, i ≠ j ∧ v[i]? = some a ∧ v[j]? = some b

theorem Partners.mem_right {v : Input} {a b : Value} (h : Partners v a b) : b ∈ v := by
  obtain ⟨_, _, _, _, hb⟩ := h
  exact List.mem_of_getElem? hb

/-! ### Pairs of elements -/

theorem mem_pairs {α : Type} {as : List α} {a b : α} :
    (a, b) ∈ pairs as ↔ ∃ i j : Nat, i < j ∧ as[i]? = some a ∧ as[j]? = some b := by
  induction as with
  | nil => simp [pairs]
  | cons c as ih =>
    simp only [pairs, List.mem_append, List.mem_map, Prod.mk.injEq, ih]
    constructor
    · intro h
      rcases h with ⟨x, hx, rfl, rfl⟩ | ⟨i, j, hij, ha, hb⟩
      · obtain ⟨j, hj⟩ := List.getElem?_of_mem hx
        exact ⟨0, j + 1, by omega, by simp, by simpa using hj⟩
      · exact ⟨i + 1, j + 1, by omega, by simpa using ha, by simpa using hb⟩
    · intro h
      obtain ⟨i, j, hij, ha, hb⟩ := h
      obtain ⟨j, rfl⟩ : ∃ k, j = k + 1 := ⟨j - 1, by omega⟩
      rw [List.getElem?_cons_succ] at hb
      cases i with
      | zero =>
        rw [List.getElem?_cons_zero, Option.some.injEq] at ha
        exact .inl ⟨b, List.mem_of_getElem? hb, ha, rfl⟩
      | succ i =>
        rw [List.getElem?_cons_succ] at ha
        exact .inr ⟨i, j, by omega, ha, hb⟩

theorem mem_orderedPairs {v : Input} {a b : Value} : (a, b) ∈ orderedPairs v ↔ Partners v a b := by
  simp only [orderedPairs, List.mem_flatMap, List.mem_map, Prod.exists, Prod.mk.injEq,
    List.mk_mem_zipIdx_iff_getElem?, List.mem_eraseIdx_iff_getElem?]
  constructor
  · intro h
    obtain ⟨a, i, ha, b, ⟨j, hj, hb⟩, rfl, rfl⟩ := h
    exact ⟨i, j, Ne.symm hj, ha, hb⟩
  · intro h
    obtain ⟨i, j, hij, ha, hb⟩ := h
    exact ⟨a, i, ha, b, ⟨j, Ne.symm hij, hb⟩, rfl, rfl⟩

/-- Partners make a pair, the one or the other way round. -/
theorem partners_iff_mem_pairs {v : Input} {a b : Value} :
    Partners v a b ↔ (a, b) ∈ pairs v ∨ (b, a) ∈ pairs v := by
  simp only [mem_pairs]
  constructor
  · intro h
    obtain ⟨i, j, hij, ha, hb⟩ := h
    rcases Nat.lt_or_gt_of_ne hij with h | h
    · exact .inl ⟨i, j, h, ha, hb⟩
    · exact .inr ⟨j, i, h, hb, ha⟩
  · intro h
    rcases h with ⟨i, j, hij, ha, hb⟩ | ⟨i, j, hij, hb, ha⟩
    · exact ⟨i, j, by omega, ha, hb⟩
    · exact ⟨j, i, by omega, ha, hb⟩

/-- For a commutative operation it is enough to try each pair once. -/
theorem mem_either_of_pairs {v : Input} {a : Value} {outputs : SortedSet Value}
    {f : Value → Value → Option Value} (comm : ∀ x y, f x y = f y x)
    {found : Value → List (Value × Value)}
    (hf : ∀ o x y, (x, y) ∈ found o ↔ (x, y) ∈ pairs v ∧ f x y = some o) :
    a ∈ (outputs.toList.flatMap found).flatMap (fun (x, y) => [x, y]) ↔
      ∃ b, Partners v a b ∧ ∃ o ∈ outputs, f a b = some o := by
  simp only [List.mem_flatMap, Prod.exists, List.mem_cons, List.not_mem_nil, or_false, hf,
    partners_iff_mem_pairs]
  constructor
  · intro h
    obtain ⟨x, y, ⟨o, ho, hp, h⟩, rfl | rfl⟩ := h
    · exact ⟨y, .inl hp, o, ho, h⟩
    · exact ⟨x, .inr hp, o, ho, by rw [comm, h]⟩
  · intro h
    obtain ⟨b, hp | hp, o, ho, h⟩ := h
    · exact ⟨a, b, ⟨o, ho, hp, h⟩, .inl rfl⟩
    · exact ⟨b, a, ⟨o, ho, hp, by rw [comm, h]⟩, .inr rfl⟩

/-! ### Left operands -/

theorem mem_sumLeft {v : Input} {outputs : SortedSet Value} {a : Value} :
    a ∈ sumLeft v outputs ↔
      ∃ b, Partners v a b ∧ ∃ o ∈ outputs, a.toInt + b.toInt = o.toInt := by
  have hf : ∀ o x y, (x, y) ∈ sumPairs v o ↔ (x, y) ∈ pairs v ∧ x.add? y = some o := by
    simp [sumPairs]
  rw [sumLeft, SortedSet.mem_ofList, mem_either_of_pairs Value.add?_comm hf]
  simp only [Value.add?_eq_some]

theorem mem_mulLeft {v : Input} {outputs : SortedSet Value} {a : Value} :
    a ∈ mulLeft v outputs ↔
      ∃ b, Partners v a b ∧ ∃ o ∈ outputs, a.toInt * b.toInt = o.toInt := by
  have hf : ∀ o x y, (x, y) ∈ mulPairs v o ↔ (x, y) ∈ pairs v ∧ x.mul? y = some o := by
    simp [mulPairs]
  rw [mulLeft, SortedSet.mem_ofList, mem_either_of_pairs Value.mul?_comm hf]
  simp only [Value.mul?_eq_some]

theorem mem_divLeft {v : Input} {outputs : SortedSet Value} {a : Value} :
    a ∈ divLeft v outputs ↔
      ∃ b, Partners v a b ∧ ∃ o ∈ outputs, b.toInt ≠ 0 ∧ a.toInt = b.toInt * o.toInt := by
  simp only [divLeft, SortedSet.mem_ofList, divPairs, List.mem_map, List.mem_flatMap,
    List.mem_filter, Prod.exists, mem_orderedPairs, decide_eq_true_eq, Value.exactDiv?_eq_some]
  constructor
  · intro h
    obtain ⟨_, b, ⟨o, ho, hp, h⟩, rfl⟩ := h
    exact ⟨b, hp, o, ho, h⟩
  · intro h
    obtain ⟨b, hp, o, ho, h⟩ := h
    exact ⟨a, b, ⟨o, ho, hp, h⟩, rfl⟩

/-! ### Right operands -/

theorem mem_sumRight {v : Input} {outputs : SortedSet Value} {a b : Value} :
    b ∈ sumRight v outputs a ↔ ∃ o ∈ outputs, a.toInt + b.toInt = o.toInt := by
  simp only [sumRight, SortedSet.mem_ofList, List.mem_filterMap, Value.sub?_eq_some]
  constructor
  · intro h
    obtain ⟨o, ho, h⟩ := h
    exact ⟨o, ho, by omega⟩
  · intro h
    obtain ⟨o, ho, h⟩ := h
    exact ⟨o, ho, by omega⟩

theorem mem_mulRight {v : Input} {outputs : SortedSet Value} {a b : Value} :
    b ∈ mulRight v outputs a ↔
      (a = .zero ∧ .zero ∈ outputs ∧ b ∈ v) ∨
        (a ≠ .zero ∧ ∃ o ∈ outputs, a.toInt * b.toInt = o.toInt) := by
  unfold mulRight
  by_cases ha : a = .zero
  · by_cases h0 : Value.zero ∈ outputs
    · simp [ha, SortedSet.contains_iff.2 h0, h0]
    · simp [ha, h0]
  · rw [if_neg ha]
    simp only [SortedSet.mem_filter, SortedSet.mem_ofList, List.mem_filterMap,
      Value.exactDiv?_eq_some, Option.any_eq_true, Value.mul?_eq_some, SortedSet.contains_iff]
    have ha' : a.toInt ≠ 0 := fun h => ha (Value.eq_zero_iff.2 h)
    constructor
    · intro h
      obtain ⟨_, o, h, ho⟩ := h
      exact .inr ⟨ha, o, ho, h⟩
    · intro h
      rcases h with ⟨h, _⟩ | ⟨_, o, ho, h⟩
      · exact absurd h ha
      · exact ⟨⟨o, ho, ha', h.symm⟩, o, h, ho⟩

theorem mem_divRight {v : Input} {outputs : SortedSet Value} {a b : Value} :
    b ∈ divRight v outputs a ↔
      (a = .zero ∧ .zero ∈ outputs ∧ b ∈ v ∧ b ≠ .zero) ∨
        (a ≠ .zero ∧ ∃ o ∈ outputs, b.toInt ≠ 0 ∧ a.toInt = b.toInt * o.toInt) := by
  unfold divRight
  by_cases ha : a = .zero
  · by_cases h0 : Value.zero ∈ outputs
    · simp [ha, SortedSet.contains_iff.2 h0, h0]
    · simp [ha, h0]
  · rw [if_neg ha]
    simp only [SortedSet.mem_filter, SortedSet.mem_ofList, List.mem_filterMap,
      Value.exactDiv?_eq_some, Option.any_eq_true, SortedSet.contains_iff]
    have ha' : a.toInt ≠ 0 := fun h => ha (Value.eq_zero_iff.2 h)
    constructor
    · intro h
      obtain ⟨_, o, h, ho⟩ := h
      exact .inr ⟨ha, o, ho, h⟩
    · intro h
      rcases h with ⟨h, _⟩ | ⟨_, o, ho, h⟩
      · exact absurd h ha
      · -- The quotient of a numerator other than zero is not zero either.
        have ho' : o.toInt ≠ 0 := fun h0 => ha' (by rw [h.2, h0, Int.mul_zero])
        exact ⟨⟨o, ho, ho', by rw [h.2, Int.mul_comm]⟩, o, h, ho⟩

theorem mem_elementPosition {v : Input} {outputs : SortedSet Value} {p : Value} :
    p ∈ elementPosition v outputs ↔
      0 ≤ p.toInt ∧ ∃ n ∈ outputs, v[p.toInt.toNat]? = some n := by
  simp only [elementPosition, SortedSet.mem_ofList, List.mem_flatMap, positionsOf,
    List.mem_filterMap, Prod.exists, List.mk_mem_zipIdx_iff_getElem?]
  constructor
  · intro h
    obtain ⟨n, hn, a, i, ha, h⟩ := h
    by_cases han : a = n
    · rw [if_pos han, Value.ofInt?_eq_some] at h
      have hi : p.toInt.toNat = i := by omega
      exact ⟨by omega, n, hn, by rw [hi, ha, han]⟩
    · rw [if_neg han] at h
      cases h
  · intro h
    obtain ⟨hp, n, hn, h⟩ := h
    refine ⟨n, hn, n, p.toInt.toNat, h, ?_⟩
    rw [if_pos rfl, Value.ofInt?_eq_some]
    omega

/-! ### The witnesses of an operator -/

/-- A binary operator and its two witnesses. -/
inductive Inverse : Op → (Input → SortedSet Value → SortedSet Value) →
    (Input → SortedSet Value → Value → SortedSet Value) → Prop
  | sum : Inverse .sum sumLeft sumRight
  | mul : Inverse .mul mulLeft mulRight
  | div : Inverse .div divLeft divRight

namespace Inverse

variable {op : Op} {left : Input → SortedSet Value → SortedSet Value}
  {right : Input → SortedSet Value → Value → SortedSet Value}
  {v : Input} {outputs : SortedSet Value} {a b : Value}

theorem isBinary (h : Inverse op left right) : op.IsBinary := by
  cases h <;> constructor

theorem exists_of_isBinary (h : op.IsBinary) : ∃ left right, Inverse op left right := by
  cases h with
  | sum => exact ⟨_, _, .sum⟩
  | mul => exact ⟨_, _, .mul⟩
  | div => exact ⟨_, _, .div⟩

/-- The left witness finds the elements that have a partner. -/
theorem mem_left (h : Inverse op left right) :
    a ∈ left v outputs ↔
      ∃ b, Partners v a b ∧ ∃ o ∈ outputs, op.Exactly a.toInt b.toInt o.toInt := by
  cases h with
  | sum => exact mem_sumLeft
  | mul => exact mem_mulLeft
  | div => exact mem_divLeft

/-- What the right witness finds gives an accepted result. -/
theorem gives_of_mem_right (h : Inverse op left right) (hb : b ∈ right v outputs a) :
    ∃ o ∈ outputs, op.Exactly a.toInt b.toInt o.toInt := by
  cases h with
  | sum => exact mem_sumRight.1 hb
  | mul =>
    rcases mem_mulRight.1 hb with ⟨rfl, h0, _⟩ | ⟨_, h⟩
    · exact ⟨.zero, h0, by simp [Op.Exactly, Op.Gives]⟩
    · exact h
  | div =>
    rcases mem_divRight.1 hb with ⟨rfl, h0, _, hne⟩ | ⟨_, h⟩
    · exact ⟨.zero, h0, fun h => hne (Value.eq_zero_iff.2 h), by simp⟩
    · exact h

/-- An element of the input that gives an accepted result is found. -/
theorem mem_right_of_mem (h : Inverse op left right) (hv : b ∈ v) {o : Value} (ho : o ∈ outputs)
    (hg : op.Exactly a.toInt b.toInt o.toInt) : b ∈ right v outputs a := by
  cases h with
  | sum => exact mem_sumRight.2 ⟨o, ho, hg⟩
  | mul =>
    by_cases ha : a = .zero
    · have ho0 : o = .zero := by
        rw [Value.eq_zero_iff, ← hg, ha, Value.toInt_zero, Int.zero_mul]
      exact mem_mulRight.2 (.inl ⟨ha, ho0 ▸ ho, hv⟩)
    · exact mem_mulRight.2 (.inr ⟨ha, o, ho, hg⟩)
  | div =>
    obtain ⟨hb0, hab⟩ := hg
    by_cases ha : a = .zero
    · have ho0 : o = .zero := by
        rw [ha, Value.toInt_zero, eq_comm, Int.mul_eq_zero] at hab
        exact Value.eq_zero_iff.2 (hab.resolve_left hb0)
      exact mem_divRight.2 (.inl ⟨ha, ho0 ▸ ho, hv, fun h => hb0 (Value.eq_zero_iff.1 h)⟩)
    · exact mem_divRight.2 (.inr ⟨ha, o, ho, hb0, hab⟩)

/-- With more accepted results, no fewer elements are found. -/
theorem left_mono (h : Inverse op left right) {outputs' : SortedSet Value}
    (hsub : ∀ n ∈ outputs, n ∈ outputs') (ha : a ∈ left v outputs) : a ∈ left v outputs' := by
  obtain ⟨b, partners, o, ho, hexact⟩ := h.mem_left.1 ha
  exact h.mem_left.2 ⟨b, partners, o, hsub o ho, hexact⟩

/-- What the right witness finds for one of the accepted results, it finds for that result beside any
others. -/
theorem mem_right_of_gives (h : Inverse op left right) (hb : b ∈ right v outputs a) {n : Value}
    (hg : op.Gives a.toInt b.toInt n.toInt) {outputs' : SortedSet Value} (hn : n ∈ outputs') :
    b ∈ right v outputs' a := by
  cases h with
  | sum => exact mem_sumRight.2 ⟨n, hn, hg⟩
  | mul =>
    rcases mem_mulRight.1 hb with ⟨rfl, _, hv⟩ | ⟨ha, _⟩
    · have hn0 : n = .zero := by
        rw [Value.eq_zero_iff, ← hg, Value.toInt_zero, Int.zero_mul]
      exact mem_mulRight.2 (.inl ⟨rfl, hn0 ▸ hn, hv⟩)
    · exact mem_mulRight.2 (.inr ⟨ha, n, hn, hg⟩)
  | div =>
    rcases mem_divRight.1 hb with ⟨rfl, _, hv, hb0⟩ | ⟨ha, o, _, hb0, hab⟩
    · have hn0 : n = .zero := by
        rw [Value.eq_zero_iff, ← hg.2, Value.toInt_zero, Int.zero_tdiv]
      exact mem_divRight.2 (.inl ⟨rfl, hn0 ▸ hn, hv, hb0⟩)
    · have hno : n.toInt = o.toInt := by
        rw [← hg.2, hab, Int.mul_tdiv_cancel_left _ hb0]
      exact mem_divRight.2 (.inr ⟨ha, n, hn, hb0, by rw [hab, hno]⟩)

/-- With more accepted results, nothing less is found beside a left operand. -/
theorem right_mono (h : Inverse op left right) {outputs' : SortedSet Value}
    (hsub : ∀ n ∈ outputs, n ∈ outputs') (hb : b ∈ right v outputs a) : b ∈ right v outputs' a := by
  obtain ⟨o, ho, hexact⟩ := h.gives_of_mem_right hb
  exact h.mem_right_of_gives hb (Op.exactly_iff.1 hexact).1 (hsub o ho)

end Inverse

end ArithLearn
