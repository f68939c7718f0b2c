/-
The witnesses against the operators they read backwards.

A left witness finds what trying every two elements of the input finds
(`left_eq_tried`), although it tries a pair of a sum or a product in one
order only. A right one finds, beside a left operand that is not zero,
every value at all that gives an accepted result, and under a zero the
elements of the input (`right_inverts`). Both are held against
`Op.applyTo`, the operator as a program runs it. What faults there, by a
zero denominator or a result out of range, is found by neither.
-/
import ArithLearn.Proofs.Evaluation
import ArithLearn.Proofs.Witness

namespace ArithLearn

namespace Op

/-- Whether the operator, run on two operands, has one of the results. -/
def accepts (op : Op) (v : Input) (outputs : SortedSet Value) (a b : Value) : Bool :=
  match op.applyTo v [.defined a, .defined b] with
  | .ok (.defined n) => outputs.contains n
  | _ => false

variable {op : Op} {v : Input} {outputs : SortedSet Value}

/-- On values an operator is run as it is computed. -/
theorem applyTo_defined (args : List Value) {n : Value} :
    op.applyTo v (args.map .defined) = .ok (.defined n) ↔ op.compute v args = .ok n := by
  rw [applyTo, Outcome.values?_map_defined]
  cases hc : op.compute v args <;> simp [hc, Except.map]

theorem accepts_iff_applyTo {a b : Value} : op.accepts v outputs a b ↔
    ∃ n ∈ outputs, op.applyTo v [.defined a, .defined b] = .ok (.defined n) := by
  unfold accepts
  split
  · next n hn => simp [hn]
  · next hno =>
    refine iff_of_false Bool.false_ne_true fun h => ?_
    obtain ⟨n, _, hn⟩ := h
    exact hno n hn

theorem accepts_iff {a b : Value} :
    op.accepts v outputs a b ↔ ∃ n ∈ outputs, op.Gives a.toInt b.toInt n.toInt := by
  have happly : ∀ n, op.applyTo v [.defined a, .defined b] = .ok (.defined n) ↔
      op.Gives a.toInt b.toInt n.toInt := by
    intro n
    rw [← compute_binary (v := v)]
    exact applyTo_defined [a, b]
  simp only [accepts_iff_applyTo, happly]

/-- An accepted result with nothing left over: for a quotient, the numerator is a multiple. -/
theorem exists_exactly_iff {a b : Value} : (∃ n ∈ outputs, op.Exactly a.toInt b.toInt n.toInt) ↔
    op.accepts v outputs a b ∧ (op = .div → b.toInt ∣ a.toInt) := by
  simp only [accepts_iff, exactly_iff, ← and_assoc, exists_and_right]

end Op

variable {v : Input} {outputs : SortedSet Value}

/-! ### Left operands -/

/-- The left operands found by trying: the elements with which, and with an element of another place,
the operator has an accepted result. A numerator has to be a multiple of the denominator. -/
def tried (op : Op) (v : Input) (outputs : SortedSet Value) : SortedSet Value :=
  .ofList (v.zipIdx.flatMap fun (a, i) => v.zipIdx.filterMap fun (b, j) =>
    if i ≠ j ∧ op.accepts v outputs a b ∧ (op = .div → b.toInt ∣ a.toInt) then some a else none)

theorem mem_tried {op : Op} {a : Value} : a ∈ tried op v outputs ↔
    ∃ b, Partners v a b ∧ op.accepts v outputs a b ∧ (op = .div → b.toInt ∣ a.toInt) := by
  simp only [tried, SortedSet.mem_ofList, List.mem_flatMap, List.mem_filterMap, Prod.exists,
    List.mk_mem_zipIdx_iff_getElem?, Option.ite_none_right_eq_some, Option.some.injEq]
  constructor
  · intro h
    obtain ⟨a, i, ha, b, j, hb, ⟨hij, haccepts⟩, rfl⟩ := h
    exact ⟨b, ⟨i, j, hij, ha, hb⟩, haccepts⟩
  · intro h
    obtain ⟨b, ⟨i, j, hij, ha, hb⟩, haccepts⟩ := h
    exact ⟨a, i, ha, b, j, hb, ⟨hij, haccepts⟩, rfl⟩

theorem Inverse.left_eq {op : Op} {left : Input → SortedSet Value → SortedSet Value}
    {right : Input → SortedSet Value → Value → SortedSet Value} (row : Inverse op left right) :
    left v outputs = tried op v outputs := by
  refine SortedSet.eq_of_mem_iff fun a => ?_
  rw [row.mem_left, mem_tried]
  exact exists_congr fun b => and_congr_right fun _ => Op.exists_exactly_iff

/-- **The left operands, and the positions of elements, are those that trying finds.** -/
theorem left_eq_tried (v : Input) (outputs : SortedSet Value) :
    sumLeft v outputs = tried .sum v outputs ∧ mulLeft v outputs = tried .mul v outputs ∧
      divLeft v outputs = tried .div v outputs ∧
      ∀ p, p ∈ elementPosition v outputs ↔
        ∃ n ∈ outputs, Op.elementAt.applyTo v [.defined p] = .ok (.defined n) := by
  refine ⟨Inverse.sum.left_eq, Inverse.mul.left_eq, Inverse.div.left_eq, fun p => ?_⟩
  have happly : ∀ n, Op.elementAt.applyTo v [.defined p] = .ok (.defined n) ↔
      0 ≤ p.toInt ∧ v[p.toInt.toNat]? = some n := by
    intro n
    rw [← Op.compute_elementAt]
    exact Op.applyTo_defined [p]
  rw [mem_elementPosition]
  simp only [happly, ← exists_and_left, and_left_comm]

/-! ### Right operands -/

/-- Beside a left operand that is not zero, each accepted result is solved for. -/
theorem Inverse.mem_right {op : Op} {left : Input → SortedSet Value → SortedSet Value}
    {right : Input → SortedSet Value → Value → SortedSet Value} (row : Inverse op left right)
    {a b : Value} (ha : a ≠ .zero) : b ∈ right v outputs a ↔
      op.accepts v outputs a b ∧ (op = .div → b.toInt ∣ a.toInt) := by
  rw [← Op.exists_exactly_iff]
  cases row with
  | sum => exact mem_sumRight
  | mul =>
    rw [mem_mulRight]
    simp [ha, Op.Exactly, Op.Gives]
  | div =>
    rw [mem_divRight]
    simp [ha, Op.Exactly]

/-- **The right operands are those that give an accepted result beside the left one**, among all
values, and for a quotient without a remainder. A product with zero and a quotient of zero say
nothing of the right operand, and there it is one of the elements of the input. No operand that is
found makes the operator fault. -/
theorem right_inverts (v : Input) (outputs : SortedSet Value) (a : Value) :
    (∀ b, b ∈ sumRight v outputs a ↔ Op.sum.accepts v outputs a b) ∧
      (a ≠ .zero → ∀ b,
        (b ∈ mulRight v outputs a ↔ Op.mul.accepts v outputs a b) ∧
        (b ∈ divRight v outputs a ↔ b.toInt ∣ a.toInt ∧ Op.div.accepts v outputs a b)) ∧
      (a = .zero → ∀ b,
        (b ∈ mulRight v outputs a ↔ .zero ∈ outputs ∧ b ∈ v) ∧
        (b ∈ divRight v outputs a ↔ .zero ∈ outputs ∧ b ∈ v ∧ b ≠ .zero)) ∧
      ∀ op left right, Inverse op left right → ∀ b ∈ right v outputs a,
        ∃ n ∈ outputs, op.applyTo v [.defined a, .defined b] = .ok (.defined n) := by
  refine ⟨fun b => ?_, fun ha b => ⟨?_, ?_⟩, fun ha b => ⟨?_, ?_⟩, fun op left right row b hb => ?_⟩
  · rw [mem_sumRight, Op.accepts_iff]
    rfl
  · rw [Inverse.mul.mem_right ha]
    simp
  · rw [Inverse.div.mem_right ha, and_comm]
    simp
  · simp [mem_mulRight, ha]
  · simp [mem_divRight, ha]
  · have haccepts := (Op.exists_exactly_iff (v := v)).1 (row.gives_of_mem_right hb)
    exact Op.accepts_iff_applyTo.1 haccepts.1

/-- At the edge of the range: halved and negated, the least value is an accepted result. It is a
multiple of minus one as well, but there the quotient is out of range. Under a zero the elements of
the input are found that are not zero themselves. -/
theorem right_inverts_least :
    let least : Value := { toInt := -9223372036854775808 }
    let outputs : SortedSet Value := .ofList [least, { toInt := 4611686018427387904 }]
    { toInt := -2 } ∈ divRight [] outputs least ∧ { toInt := -1 } ∉ divRight [] outputs least ∧
      .ofNat 3 ∈ divRight [.ofNat 3, .zero] (.singleton .zero) .zero ∧
      ∃ n ∈ outputs, Op.div.applyTo [] [.defined least, .defined { toInt := -2 }] =
        .ok (.defined n) := by
  intro least outputs
  have hleast := (right_inverts [] outputs least).2.1 (by decide)
  have hminusTwo : { toInt := -2 } ∈ divRight [] outputs least :=
    (hleast _).2.2 ⟨by decide, by decide⟩
  refine ⟨hminusTwo, fun h => ?_, ?_, ?_⟩
  · exact absurd ((hleast _).2.1 h).2 (by decide)
  · exact ((right_inverts _ _ .zero).2.2.1 rfl _).2.2 ⟨by simp, by simp, by decide⟩
  · exact (right_inverts [] outputs least).2.2.2 _ _ _ .div _ hminusTwo

end ArithLearn
