/-
Programs drawn at random, and the tasks made of them.

The generator chooses an operator and draws both operands from the same
stream, one after the other. What holds of the program is therefore proved
of each place in the stream at once, by induction on the depth
(`succeeds_program`): it is one of the grammar, nested no deeper than asked,
and its positions are drawn as those of the inputs are (`Over`).

So a program and an input of one generator may come from places that have
nothing to do with each other, and still no position is outside. Evaluation
ends with the fault of one application in the program, and the readings are
never at fault (`Over.ofArithmetic`).
-/
import ArithLearn.Proofs.Derivation
import ArithLearn.Proofs.Evaluation.Exact
import ArithLearn.Proofs.Task.Consistent

namespace ArithLearn

/-- The faults of numbers: a divisor that is zero, or a result out of range. -/
inductive Fault.OfArithmetic : Fault → Prop
  | divisionByZero (numerator : Value) : OfArithmetic (.divisionByZero numerator)
  | overflow (op : Op) (lhs rhs : Value) : OfArithmetic (.overflow op lhs rhs)

namespace Program

variable {length : Nat} {p q : Program} {v : Input} {e : Fault}

theorem Conforms.wellFormed (h : p.Conforms) : p.WellFormed := by
  induction h with
  | lit k => exact .lit k
  | elementAt position => exact .app rfl (by simpa using .lit position)
  | binary hop _ _ iha ihb =>
    refine .app ?_ (by simpa using ⟨iha, ihb⟩)
    cases hop <;> rfl

/-- The programs of the grammar that read at positions below `length`, taken as values. -/
inductive Over (length : Nat) : Program → Prop
  | lit (n : Value) : Over length (.lit n)
  | elementAt {k : Nat} (lt : k < length) : Over length (.elementAt (.ofBits k))
  | binary {op : Op} {a b : Program} (hop : op.IsBinary) (left : Over length a)
      (right : Over length b) : Over length (.apply op [a, b])

namespace Over

theorem conforms (h : p.Over length) : p.Conforms := by
  induction h with
  | lit n => exact .lit n
  | elementAt => exact .elementAt _
  | binary hop _ _ iha ihb => exact .binary hop iha ihb

/-- The applications in it are over the same positions. -/
theorem of_mem_applications (h : p.Over length) (hq : q ∈ p.applications) : q.Over length := by
  induction h with
  | lit n => simp [applications] at hq
  | @elementAt k lt =>
    obtain rfl : q = .elementAt (.ofBits k) := by
      simpa [Program.elementAt, apply, applications, applicationsAll] using hq
    exact .elementAt lt
  | @binary op a b hop left right iha ihb =>
    have hcases : q ∈ a.applications ∨ q ∈ b.applications ∨ q = .apply op [a, b] := by
      simpa [apply, applications, applicationsAll] using hq
    rcases hcases with ha | hb | rfl
    · exact iha ha
    · exact ihb hb
    · exact .binary hop left right

/-- A reading in it is at a position of every input of the length. -/
theorem inside {params : List Program} {position : Value}
    (h : (Program.app .elementAt (.input :: params)).Over length)
    (hparams : params.mapM (·.exactValue? v) = some [position]) (hlength : length < 2 ^ 63) :
    0 ≤ position.toInt ∧ position.toInt < length := by
  generalize hq : Program.app .elementAt (.input :: params) = q at h
  cases h with
  | lit n => cases hq
  | binary hop => cases hq; cases hop
  | @elementAt k lt =>
    cases hq
    obtain rfl : position = .ofBits k := by
      have hlit : (Program.lit (.ofBits k)).exactValue? v = some (.ofBits k) :=
        exactValue?_eq_some.2 rfl
      simpa [hlit, eq_comm] using hparams
    rw [Value.toInt_ofBits (by omega)]
    omega

/-- On an input of that length only arithmetic can go wrong. -/
theorem ofArithmetic (h : p.Over length) (hv : v.length = length) (hlength : length < 2 ^ 63)
    (hrun : p.run v = .error e) : e.OfArithmetic := by
  rcases h.conforms.wellFormed.agrees (v := v) with ⟨n, heval, _⟩ | ⟨e', q, heval, hfirst, hoffends⟩
  · simp [run, heval] at hrun
  · obtain rfl : e' = e := by simpa [run, heval] using hrun
    have hq : q.Over length := h.of_mem_applications (List.mem_of_find?_eq_some hfirst)
    obtain ⟨op, params, operands, rfl, hoperands, hfaulty⟩ := hoffends
    cases hfaulty with
    | zeroDivisor a => exact .divisionByZero a
    | overflow => exact .overflow _ _ _
    | outside hout => exact absurd (hv ▸ hq.inside hoperands hlength) hout

end Over

end Program

namespace Generator

variable {g : Generator} {p : Program}

/-! ### Programs -/

theorem succeeds_position :
    Succeeds g.position fun position => ∃ k, k < g.length ∧ position = .ofBits k := by
  have hlength := g.two_le_length
  exact (Draw.succeeds_below (by omega)).bind fun k hk => .pure ⟨k, hk, rfl⟩

theorem succeeds_literal : Succeeds (g.value 0) fun _ => True := fun _ => ⟨_, rfl, trivial⟩

/-- What is drawn at a depth is one of the programs up to it, wherever the stream stands. -/
theorem succeeds_program (depth : Nat) :
    Succeeds (g.program depth) fun p => p.Over g.length ∧ p.depth ≤ depth := by
  induction depth with
  | zero => exact succeeds_literal.bind fun n _ => .pure ⟨.lit n, Nat.le_refl _⟩
  | succ depth ih =>
    -- The second operand is drawn from where the first one left the stream, which can be anywhere:
    -- the hypothesis is about every place.
    have binary : ∀ {op : Op}, op.IsBinary → Succeeds (do
        let a ← g.program depth
        let b ← g.program depth
        pure (Program.apply op [a, b])) fun p => p.Over g.length ∧ p.depth ≤ depth + 1 := by
      intro op hop
      refine ih.bind fun a ha => ih.bind fun b hb => .pure ⟨.binary hop ha.1 hb.1, ?_⟩
      rw [Program.depth_binary]
      omega
    refine (Draw.succeeds_below (by decide)).bind fun choice _ => ?_
    split
    · refine succeeds_position.bind fun position hposition => .pure ?_
      obtain ⟨k, hk, rfl⟩ := hposition
      refine ⟨.elementAt hk, ?_⟩
      rw [Program.depth_elementAt]
      omega
    · exact succeeds_literal.bind fun n _ => .pure ⟨.lit n, Nat.zero_le _⟩
    · exact binary .sum
    · exact binary .mul
    · exact binary .div

/-! ### Tasks -/

/-- Among the inputs only those count on which the program has a value. -/
theorem ensures_exampleOf : Ensures (g.exampleOf p) fun e => p.run e.input = .ok e.output := by
  refine succeeds_array.lift.ensures.bind fun v _ => (Ensures.of_option _).bind fun n hn => .pure ?_
  cases hrun : p.run v with
  | error e => simp [hrun, Except.toOption] at hn
  | ok m =>
    obtain rfl : m = n := by simpa [hrun, Except.toOption] using hn
    rfl

/-- A task is made of the program of one attempt, whichever that is. -/
theorem ensures_task (depth examples attempts : Nat) :
    Ensures (OptionT.mk (g.task depth examples attempts)) fun task =>
      (task.program.Over g.length ∧ task.program.depth ≤ depth) ∧
        task.examples.length = examples ∧
          ∀ e ∈ task.examples, task.program.run e.input = .ok e.output := by
  induction attempts with
  | zero =>
    intro stream task htask
    cases htask
  | succ attempts ih =>
    refine .draw (succeeds_program depth) fun p hp => ?_
    have hfound := (@ensures_exampleOf g p).times examples
    exact hfound.orElse (fun found h => .pure ⟨hp, h⟩) ih

/-- **A random program is one of the grammar, nested no deeper than asked**, wherever the stream
stands. On the inputs of the same generator, wherever they are drawn, it has a value, or it divides
by zero or overflows; this is for inputs as long as arrays can be. And a task has as many examples
as asked, each of them what its program does. -/
theorem program_conforms (length : Nat) (maxValue : Value) (depth : Nat) (stream : Stream) :
    let g := ofSize length maxValue
    let p := ((g.program depth).run stream).1
    (p.Conforms ∧ p.depth ≤ depth) ∧
      (∀ stream' v e, (g.array.run stream').1 = v → v.length < 2 ^ 63 → p.run v = .error e →
        e.OfArithmetic) ∧
      ∀ examples attempts task, ((g.task depth examples attempts).run stream).1 = some task →
        (task.program.Conforms ∧ task.program.depth ≤ depth) ∧ task.examples.length = examples ∧
          ∀ e ∈ task.examples, task.program.run e.input = .ok e.output := by
  intro g p
  obtain ⟨hover, hdepth⟩ := (@succeeds_program g depth).of_run stream
  refine ⟨⟨hover.conforms, hdepth⟩, ?_, fun examples attempts task h => ?_⟩
  · rintro stream' v e rfl hv hrun
    have hlength := ((@succeeds_array g).of_run stream').1
    exact hover.ofArithmetic hlength (hlength ▸ hv) hrun
  · obtain ⟨⟨htask, htaskDepth⟩, hexamples⟩ := (ensures_task depth examples attempts).of_run h
    exact ⟨⟨htask.conforms, htaskDepth⟩, hexamples⟩

/-- A quotient by zero is drawn, which has a value on no input. So the first attempt at a task is given
up, and the task is made in the second. -/
theorem program_conforms_quotient :
    let g := ofSize 2 (.ofNat 4)
    let p : Program := .mul (.mul (.lit (.ofNat 4)) (.lit (.ofNat 3)))
      (.div (.lit (.ofNat 3)) (.lit .zero))
    let v : Input := [.ofNat 2, .ofNat 3]
    ((g.program 2).run (.ofSeed 25)).1 = p ∧ p.Conforms ∧ p.depth ≤ 2 ∧
      (g.array.run (.ofSeed 1)).1 = v ∧ v.length < 2 ^ 63 ∧
      p.run v = .error (.divisionByZero (.ofNat 3)) ∧
      (Fault.divisionByZero (.ofNat 3)).OfArithmetic ∧
      ∃ task, ((g.task 2 2 2).run (.ofSeed 25)).1 = some task ∧
        task.program = .elementAt (.ofNat 0) ∧
        task.examples =
          [⟨[.ofNat 1, .ofNat 2], .ofNat 1⟩, ⟨[.ofNat 2, .ofNat 3], .ofNat 2⟩] ∧
        task.program.Conforms ∧ task.program.depth ≤ 2 ∧ task.examples.length = 2 ∧
        ∀ e ∈ task.examples, task.program.run e.input = .ok e.output := by
  intro g p v
  obtain ⟨⟨hconforms, hdepth⟩, hfaults, htasks⟩ := program_conforms 2 (.ofNat 4) 2 (.ofSeed 25)
  have hp : ((g.program 2).run (.ofSeed 25)).1 = p := by decide +kernel
  have hv : (g.array.run (.ofSeed 1)).1 = v := by decide +kernel
  have hrun : p.run v = .error (.divisionByZero (.ofNat 3)) := by decide +kernel
  have hdrawn : (((g.task 2 2 2).run (.ofSeed 25)).1).any fun task =>
      task.program = .elementAt (.ofNat 0) ∧ task.examples =
        [⟨[.ofNat 1, .ofNat 2], .ofNat 1⟩, ⟨[.ofNat 2, .ofNat 3], .ofNat 2⟩] := by
    decide +kernel
  obtain ⟨task, htask, hany⟩ := (Option.any_eq_true _ _).1 hdrawn
  obtain ⟨hprogram, hexamples⟩ := of_decide_eq_true hany
  obtain ⟨⟨hconforms', hdepth'⟩, hlength, hconsistent⟩ := htasks 2 2 task htask
  rw [show ((g.program 2).run (.ofSeed 25)).1 = p from hp] at hconforms hdepth hfaults
  refine ⟨hp, hconforms, hdepth, hv, by decide, hrun, ?_, task, htask, hprogram, hexamples,
    hconforms', hdepth', hlength, hconsistent⟩
  exact hfaults (.ofSeed 1) v _ hv (by decide) hrun

end Generator

end ArithLearn
