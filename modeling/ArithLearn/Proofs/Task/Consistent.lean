/-
What the examples of a simple task are worth, however great their elements.

The program of a simple task is chosen before its inputs. A quotient gets
inputs it is defined on, and an element can always be read, but a sum or a
product may be out of range; then the output is zero and not what the
program gives (`ensures_simpleTask`). There is no task at all if a multiple
that is to be divided is out of range. Up to the root of the greatest value
none of this can happen (`simpleTask_consistent`); beyond, it does
(`simpleTask_overflows`).
-/
import ArithLearn.Proofs.Evaluation.Exact
import ArithLearn.Proofs.Task

namespace ArithLearn

/-- The program adds or multiplies two elements of the input, and the result is out of range. -/
def Program.Overflows (v : Input) (p : Program) : Prop :=
  ∃ op x y, (op = .sum ∨ op = .mul) ∧ x ∈ v ∧ y ∈ v ∧ p.run v = .error (.overflow op x y)

namespace Generator

variable {g : Generator} {op : Op} {i j : Nat} {v : Input} {x y : Value}

/-- The program does with the elements what the operator does with two values. -/
theorem run_overElements (hi : i < 2 ^ 63) (hj : j < 2 ^ 63) (hx : v[i]? = some x)
    (hy : v[j]? = some y) (hop : op ≠ .elementAt) :
    (overElements op i j).run v = op.compute v [x, y] := by
  have hleft := Program.value?_eq_some.1 (value?_element hi hx)
  have hright := Program.value?_eq_some.1 (value?_element hj hy)
  unfold overElements
  rw [if_neg hop]
  cases hc : op.compute v [x, y] <;>
    simp [Program.run, Program.apply, Program.eval, Program.evalAll, hleft, hright, bind,
      Except.bind, Op.applyTo, Outcome.values?, hc, Except.map]

/-- A sum or a product of elements has a value or overflows. -/
theorem value_or_overflows (hi : i < 2 ^ 63) (hj : j < 2 ^ 63) (hx : v[i]? = some x)
    (hy : v[j]? = some y) (hop : op = .sum ∨ op = .mul) :
    (∃ n, (overElements op i j).run v = .ok n) ∨ (overElements op i j).Overflows v := by
  obtain ⟨n, hn⟩ : ∃ n, op.exact v [x.toInt, y.toInt] = some n := by
    rcases hop with rfl | rfl
    · exact ⟨_, rfl⟩
    · exact ⟨_, rfl⟩
  have hne : op ≠ .elementAt := by rcases hop with rfl | rfl <;> simp
  have hrun := run_overElements hi hj hx hy hne
  rw [Op.compute_of_exact hn] at hrun
  cases hrange : Value.ofInt? n with
  | some m => exact .inl ⟨m, by rw [hrun, hrange]⟩
  | none =>
    refine .inr ⟨op, x, y, hop, List.mem_of_getElem? hx, List.mem_of_getElem? hy, ?_⟩
    rw [hrun, hrange]

theorem ensures_divisible (hij : g.Distinct i j) :
    Ensures (g.divisible i j) (Suits .div i j) := by
  refine succeeds_array.lift.ensures.bind fun v hv =>
    succeeds_value.lift.ensures.bind fun quotient _ => ?_
  exact (Ensures.of_option _).bind fun product hproduct => .pure (hij.suits_set hv.1 hv.2 hproduct)

/-- On the inputs that are drawn for a program it has a value, or overflows. -/
theorem ensures_inputFor (hlength : g.length < 2 ^ 63) (hij : g.Distinct i j) :
    Ensures (g.inputFor op i j) fun v =>
      (∃ n, (overElements op i j).run v = .ok n) ∨ (overElements op i j).Overflows v := by
  have hi : i < 2 ^ 63 := Nat.lt_trans hij.left_lt hlength
  have hj : j < 2 ^ 63 := Nat.lt_trans hij.right_lt hlength
  have hsuits : ∀ v, Suits op i j v → ∃ n, (overElements op i j).run v = .ok n := by
    intro v hv
    obtain ⟨_, n, hn⟩ := hv.recoverable hij.ne hi hj
    exact ⟨n, Program.run_eq_ok.2 hn⟩
  unfold inputFor
  split
  · rename_i hop
    subst hop
    exact (ensures_divisible hij).imp fun v hv => .inl (hsuits v hv)
  · rename_i hop
    refine succeeds_array.lift.ensures.imp fun v hv => ?_
    obtain ⟨x, y, hx, hy, _⟩ := hij.elements hv.1 hv.2
    cases op with
    | sum => exact value_or_overflows hi hj hx hy (.inl rfl)
    | mul => exact value_or_overflows hi hj hx hy (.inr rfl)
    | div => exact absurd rfl hop
    | elementAt => exact .inl (hsuits v ⟨x, y, hx, hy, fun h => by cases h⟩)

/-- The output of a sample is zero where the program has no value. -/
theorem ensures_sample {p : Program} {input : OptionT Draw Input}
    (hinput : Ensures input fun v => (∃ n, p.run v = .ok n) ∨ p.Overflows v) :
    Ensures (sample p input) fun e =>
      p.run e.input = .ok e.output ∨ p.Overflows e.input ∧ e.output = .zero := by
  refine hinput.bind fun v hv => .pure ?_
  rcases hv with ⟨n, hn⟩ | hover
  · left
    rw [hn]
    rfl
  · right
    refine ⟨hover, ?_⟩
    obtain ⟨op, x, y, _, _, _, hrun⟩ := hover
    rw [hrun]
    rfl

theorem ensures_simpleTask (hlength : g.length < 2 ^ 63) (examples : Nat) :
    Ensures (OptionT.mk (g.simpleTask examples)) fun task =>
      task.examples.length = examples ∧ ∀ e ∈ task.examples,
        task.program.run e.input = .ok e.output ∨
          task.program.Overflows e.input ∧ e.output = .zero := by
  refine (Draw.succeeds_index 4).lift.ensures.bind fun k _ => ?_
  refine (succeeds_positions hlength).ensures.bind fun ij hij => ?_
  obtain ⟨i, j⟩ := ij
  have hinput := @ensures_inputFor g (Op.all.getD k .sum) i j hlength hij
  exact ((ensures_sample hinput).times examples).bind fun es hes => .pure hes

theorem maxValue_ofSize_le {length : Nat} {maxValue : Value} {bound : Int}
    (h : maxValue.toInt ≤ bound) (hbound : 1 ≤ bound) :
    (ofSize length maxValue).maxValue.toInt ≤ bound := by
  unfold ofSize
  split
  · exact h
  · exact hbound

theorem length_ofSize_lt {length : Nat} {maxValue : Value} {bound : Nat} (h : length < bound)
    (hbound : 2 < bound) : (ofSize length maxValue).length < bound := by
  unfold ofSize
  split <;> exact max_lt hbound h

/-- **The examples of a simple task are what its program does**, whatever the place in the stream,
and there is a task, if no product of two elements is out of range and the positions are values.
For elements of any size an example is what the program does or one on which it overflows, with
zero for an output. -/
theorem simpleTask_consistent (length examples : Nat) (maxValue : Value) (stream : Stream) :
    let drawn := (((ofSize length maxValue).simpleTask examples).run stream).1
    (length < 2 ^ 63 → maxValue.toInt ≤ 3037000499 →
        ∃ task, drawn = some task ∧
          ∀ e ∈ task.examples, task.program.run e.input = .ok e.output) ∧
      ∀ task, drawn = some task →
        task.examples.length = examples ∧ ∀ e ∈ task.examples,
          task.program.run e.input = .ok e.output ∨
            task.program.Overflows e.input ∧ e.output = .zero := by
  intro drawn
  refine ⟨fun hlength hmax => ?_, fun task htask => ?_⟩
  · obtain ⟨task, htask, _, hconsistent⟩ :=
      (succeeds_simpleTask (maxValue_ofSize_le hmax (by decide))
        (length_ofSize_lt hlength (by decide)) examples).exists_run stream
    exact ⟨task, htask, hconsistent.run⟩
  · have hlength := length_lt_of_simpleTask htask
    exact (ensures_simpleTask hlength examples).of_run htask

/-- With elements up to the bound the greatest products are in range. -/
theorem simpleTask_consistent_product :
    let drawn := (((ofSize 2 (.ofNat 3037000499)).simpleTask 1).run (.ofSeed 5)).1
    2 < 2 ^ 63 ∧ (Value.ofNat 3037000499).toInt ≤ 3037000499 ∧
      ∃ task, drawn = some task ∧ task.examples.length = 1 ∧
        task.program = .mul (.elementAt (.ofNat 1)) (.elementAt (.ofNat 0)) ∧
        task.examples = [⟨[.ofNat 1588793832, .ofNat 2524725854], .ofNat 4011268864326132528⟩] ∧
        task.program.run [.ofNat 1588793832, .ofNat 2524725854] =
          .ok (.ofNat 4011268864326132528) := by
  intro drawn
  obtain ⟨hexists, hall⟩ := simpleTask_consistent 2 1 (.ofNat 3037000499) (.ofSeed 5)
  obtain ⟨task, htask, hrun⟩ := hexists (by decide) (by decide)
  have hdrawn : drawn.any fun task =>
      task.program = .mul (.elementAt (.ofNat 1)) (.elementAt (.ofNat 0)) ∧ task.examples =
        [⟨[.ofNat 1588793832, .ofNat 2524725854], .ofNat 4011268864326132528⟩] := by
    decide +kernel
  rw [show drawn = some task from htask] at hdrawn
  obtain ⟨hprogram, hexamples⟩ := of_decide_eq_true hdrawn
  obtain ⟨hlength, _⟩ := hall task htask
  refine ⟨by decide, by decide, task, htask, hlength, hprogram, hexamples, ?_⟩
  refine hrun ⟨[.ofNat 1588793832, .ofNat 2524725854], .ofNat 4011268864326132528⟩ ?_
  rw [hexamples]
  exact List.mem_singleton_self _

/-- Among elements of any size there are two whose sum is out of range, and the output recorded for
them is zero; and there is a multiple out of range, so that there is no task. -/
theorem simpleTask_overflows :
    let greatest : Value := .ofNat (2 ^ 63 - 1)
    let left : Value := .ofNat 5554791383628731086
    let right : Value := .ofNat 6484010720840662403
    (∃ task, (((ofSize 2 greatest).simpleTask 1).run (.ofSeed 3)).1 = some task ∧
        task.program = .sum (.elementAt (.ofNat 1)) (.elementAt (.ofNat 0)) ∧
        task.examples = [⟨[right, left], .zero⟩] ∧
        task.program.run [right, left] = .error (.overflow .sum left right)) ∧
      (((ofSize 2 greatest).simpleTask 1).run (.ofSeed 4)).1 = none := by
  intro greatest left right
  have hdrawn : (((ofSize 2 greatest).simpleTask 1).run (.ofSeed 3)).1.any fun task =>
      task.program = .sum (.elementAt (.ofNat 1)) (.elementAt (.ofNat 0)) ∧
        task.examples = [⟨[right, left], .zero⟩] := by
    decide +kernel
  have hnone : (((ofSize 2 greatest).simpleTask 1).run (.ofSeed 4)).1.isNone := by
    decide +kernel
  obtain ⟨task, htask, hany⟩ := (Option.any_eq_true _ _).1 hdrawn
  obtain ⟨hprogram, hexamples⟩ := of_decide_eq_true hany
  refine ⟨⟨task, htask, hprogram, hexamples, ?_⟩, Option.isNone_iff_eq_none.1 hnone⟩
  rw [hprogram]
  rfl

end Generator

end ArithLearn
