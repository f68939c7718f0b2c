/-
Running a program, against computing with integers of any size.

`exact` is what a program comes to where no result is out of range: sums,
products and quotients of integers, and elements at integer positions. It
has no value where a divisor is zero or a position is none of the input's.
A program that is written as it should be (`WellFormed`) runs to its exact
value if each application in it has one in range. If not, it ends with the
fault of the first application without one, in the order of evaluation: the
arguments from left to right, and then the operator (`run_exact`).
-/
import ArithLearn.Proofs.Evaluation

namespace ArithLearn

/-! ### Operators -/

namespace Op

/-- The result of an operator on integers, whatever its size. -/
def exact (v : Input) (op : Op) (args : List Int) : Option Int :=
  match op, args with
  | .sum, [a, b] => some (a + b)
  | .mul, [a, b] => some (a * b)
  | .div, [a, b] => if b = 0 then none else some (a.tdiv b)
  | .elementAt, [p] => if p < 0 then none else v[p.toNat]?.map (·.toInt)
  | _, _ => none

/-- What is wrong with an operator on these operands, and the fault that says so. -/
inductive Faulty (v : Input) : Op → List Value → Fault → Prop
  | zeroDivisor (a : Value) : Faulty v .div [a, .zero] (.divisionByZero a)
  | outside {p : Value} (h : ¬ (0 ≤ p.toInt ∧ p.toInt < v.length)) :
      Faulty v .elementAt [p] (.indexOutOfBounds p v.length)
  | overflow {op : Op} {a b : Value} {n : Int} (result : op.exact v [a.toInt, b.toInt] = some n)
      (range : n < -9223372036854775808 ∨ 9223372036854775808 ≤ n) :
      Faulty v op [a, b] (.overflow op a b)

variable {v : Input} {op : Op} {args : List Value} {n : Value} {e : Fault}

theorem exact_binary {a b c : Int} : op.exact v [a, b] = some c ↔ op.Gives a b c := by
  cases op <;> simp [exact, Gives]

theorem exact_elementAt {p c : Int} :
    exact v .elementAt [p] = some c ↔ 0 ≤ p ∧ v[p.toNat]?.map (·.toInt) = some c := by
  unfold exact
  by_cases hp : p < 0
  · have hp' : ¬ 0 ≤ p := by omega
    simp [hp, hp']
  · have hp' : 0 ≤ p := by omega
    simp [hp, hp']

/-- An operator has its exact result, if that is in range. -/
theorem compute_eq_ok :
    op.compute v args = .ok n ↔ op.exact v (args.map (·.toInt)) = some n.toInt := by
  match args with
  | [a, b] => rw [compute_binary, List.map_cons, List.map_singleton, exact_binary]
  | [p] =>
    cases op with
    | sum | mul | div => simp [compute, exact]
    | elementAt =>
      rw [compute_elementAt, List.map_singleton, exact_elementAt]
      simp [Value.toInt_inj]
  | [] | _ :: _ :: _ :: _ => cases op <;> simp [compute, exact]

/-- The exact result of two operands decides between a value and an overflow. -/
theorem compute_of_exact {a b : Value} {n : Int} (h : op.exact v [a.toInt, b.toInt] = some n) :
    op.compute v [a, b] =
      match Value.ofInt? n with
      | some m => .ok m
      | none => .error (.overflow op a b) := by
  have hgives := exact_binary.1 h
  cases op with
  | sum =>
    obtain rfl : a.toInt + b.toInt = n := hgives
    rfl
  | mul =>
    obtain rfl : a.toInt * b.toInt = n := hgives
    rfl
  | div =>
    obtain ⟨hb, rfl⟩ := hgives
    have hdiv : a.div? b = Value.ofInt? (a.toInt.tdiv b.toInt) := if_neg hb
    rw [← hdiv]
    exact if_neg fun h => hb (Value.eq_zero_iff.1 h)
  | elementAt => exact hgives.elim

/-- Only a divisor that is zero leaves two operands without an exact result. -/
theorem eq_div_of_exact_eq_none {a b : Value} (hop : op.IsBinary)
    (h : op.exact v [a.toInt, b.toInt] = none) : op = .div ∧ b = .zero := by
  cases hop with
  | sum | mul => cases h
  | div => exact ⟨rfl, Value.eq_zero_iff.2 (by simpa [exact] using h)⟩

theorem compute_div_zero {a : Value} :
    compute .div v [a, .zero] = .error (.divisionByZero a) := rfl

theorem faulty_of_compute_binary {a b : Value} (hop : op.IsBinary)
    (h : op.compute v [a, b] = .error e) : op.Faulty v [a, b] e := by
  cases hexact : op.exact v [a.toInt, b.toInt] with
  | none =>
    obtain ⟨rfl, rfl⟩ := eq_div_of_exact_eq_none hop hexact
    obtain rfl : Fault.divisionByZero a = e := Except.error.inj (compute_div_zero.symm.trans h)
    exact .zeroDivisor a
  | some n =>
    rw [compute_of_exact hexact] at h
    cases hrange : Value.ofInt? n with
    | some m => simp [hrange] at h
    | none =>
      obtain rfl : Fault.overflow op a b = e := by simpa [hrange] using h
      exact .overflow hexact (Value.ofInt?_eq_none.1 hrange)

theorem compute_elementAt_outside {p : Value} (h : ¬ (0 ≤ p.toInt ∧ p.toInt < v.length)) :
    compute .elementAt v [p] = .error (.indexOutOfBounds p v.length) := by
  by_cases hp : p.toInt < 0
  · exact if_pos hp
  · have hget : v[p.toInt.toNat]? = none := List.getElem?_eq_none (by omega)
    simp only [compute, hp, if_false, hget]

/-- There is an element exactly at the positions from zero up to the length. -/
theorem compute_elementAt_eq_error {p : Value} :
    compute .elementAt v [p] = .error e ↔
      ¬ (0 ≤ p.toInt ∧ p.toInt < v.length) ∧ e = .indexOutOfBounds p v.length := by
  constructor
  · intro h
    have hout : ¬ (0 ≤ p.toInt ∧ p.toInt < v.length) := by
      rintro ⟨hp, hlt⟩
      obtain ⟨c, hget⟩ : ∃ c, v[p.toInt.toNat]? = some c :=
        ⟨_, List.getElem?_eq_getElem (by omega)⟩
      rw [compute_elementAt.2 ⟨hp, hget⟩] at h
      cases h
    rw [compute_elementAt_outside hout] at h
    cases h
    exact ⟨hout, rfl⟩
  · rintro ⟨hout, rfl⟩
    exact compute_elementAt_outside hout

/-- What is wrong with an operator is what it answers. -/
theorem Faulty.compute_eq (h : op.Faulty v args e) : op.compute v args = .error e := by
  cases h with
  | zeroDivisor a => exact compute_div_zero
  | outside h => exact compute_elementAt_eq_error.2 ⟨h, rfl⟩
  | overflow result range => rw [compute_of_exact result, Value.ofInt?_eq_none.2 range]

/-- On as many operands as it takes, an operator without a result says what is wrong. -/
theorem faulty_of_compute (hargs : args.length = op.arity) (h : op.compute v args = .error e) :
    op.Faulty v args e := by
  cases op with
  | elementAt =>
    obtain ⟨p, rfl⟩ := List.length_eq_one_iff.1 hargs
    obtain ⟨hout, rfl⟩ := compute_elementAt_eq_error.1 h
    exact .outside hout
  | sum | mul | div =>
    obtain ⟨a, b, rfl⟩ := List.length_eq_two.1 hargs
    exact faulty_of_compute_binary (by constructor) h

end Op

namespace Program

variable {v : Input} {p q : Program} {ps : List Program} {n : Value} {e e' : Fault}

/-! ### Programs -/

/-- Each operator stands over the input and as many arguments as it takes, and the input stands
nowhere else. -/
inductive WellFormed : Program → Prop
  | lit (n : Value) : WellFormed (.lit n)
  | app {op : Op} {params : List Program} (length : params.length = op.arity)
      (each : ∀ a ∈ params, WellFormed a) : WellFormed (.app op (.input :: params))

mutual

/-- What a program comes to on the input `v` if no result is too large, where it comes to
anything. -/
def exact (v : Input) : Program → Option Int
  | .input => none
  | .lit n => some n.toInt
  | .app op (.input :: params) => do op.exact v (← exactAll v params)
  | .app _ _ => none

def exactAll (v : Input) : List Program → Option (List Int)
  | [] => some []
  | p :: ps => do
    let n ← exact v p
    let ns ← exactAll v ps
    some (n :: ns)

end

/-- The exact value of a program, if it has one in range. -/
def exactValue? (v : Input) (p : Program) : Option Value := (p.exact v).bind Value.ofInt?

mutual

/-- The applications in a program in the order in which they are evaluated: those in the arguments
from left to right, and then the application itself. -/
def applications : Program → List Program
  | .input | .lit _ => []
  | .app op args => applicationsAll args ++ [.app op args]

def applicationsAll : List Program → List Program
  | [] => []
  | p :: ps => applications p ++ applicationsAll ps

end

/-- The first of several programs that has no exact value in range. -/
def offender? (v : Input) (qs : List Program) : Option Program :=
  qs.find? fun q => (q.exactValue? v).isNone

/-- The fault says what is wrong with the application, and of which operands. -/
def Offends (v : Input) (q : Program) (e : Fault) : Prop :=
  ∃ op params operands, q = .app op (.input :: params) ∧
    params.mapM (·.exactValue? v) = some operands ∧ op.Faulty v operands e

theorem exactValue?_eq_some : p.exactValue? v = some n ↔ p.exact v = some n.toInt := by
  unfold exactValue?
  cases p.exact v <;> simp [Value.ofInt?_eq_some]

theorem exactAll_of_mapM {ns : List Value} (h : ps.mapM (·.exactValue? v) = some ns) :
    exactAll v ps = some (ns.map (·.toInt)) := by
  induction ps generalizing ns with
  | nil =>
    cases h
    rfl
  | cons p ps ih =>
    obtain ⟨n, ns, hp, hps, rfl⟩ := mapM_cons_eq_some.1 h
    simp [exactAll, exactValue?_eq_some.1 hp, ih hps]

/-- On operands that have exact values in range, an application has the one of its operator. -/
theorem exactValue?_app {op : Op} {operands : List Value}
    (h : ps.mapM (·.exactValue? v) = some operands) :
    (app op (.input :: ps)).exactValue? v = some n ↔ op.compute v operands = .ok n := by
  rw [exactValue?_eq_some, Op.compute_eq_ok, exact, exactAll_of_mapM h]
  rfl

theorem Offends.unique (h : q.Offends v e) (h' : q.Offends v e') : e = e' := by
  obtain ⟨op, params, operands, rfl, hoperands, hfaulty⟩ := h
  obtain ⟨_, _, operands', heq, hoperands', hfaulty'⟩ := h'
  cases heq
  obtain rfl : operands = operands' := Option.some.inj (hoperands.symm.trans hoperands')
  exact Except.error.inj (hfaulty.compute_eq.symm.trans hfaulty'.compute_eq)

theorem offender?_append (v : Input) (qs rs : List Program) :
    offender? v (qs ++ rs) = (offender? v qs).or (offender? v rs) :=
  List.find?_append

/-- Evaluation ends with the exact value, or with the fault of the first offender. -/
def Agrees (v : Input) (p : Program) : Prop :=
  (∃ n, p.eval v = .ok (.defined n) ∧ p.exactValue? v = some n ∧
    offender? v p.applications = none) ∨
  ∃ e q, p.eval v = .error e ∧ offender? v p.applications = some q ∧ q.Offends v e

/-- The arguments have all their exact values, or the evaluation ends with the first offender in
them. -/
theorem evalAll_agrees (h : ∀ p ∈ ps, p.Agrees v) :
    (∃ ns : List Value, evalAll v ps = .ok (ns.map .defined) ∧
      ps.mapM (·.exactValue? v) = some ns ∧ offender? v (applicationsAll ps) = none) ∨
    ∃ e q, evalAll v ps = .error e ∧ offender? v (applicationsAll ps) = some q ∧
      q.Offends v e := by
  induction ps with
  | nil => exact .inl ⟨[], rfl, rfl, rfl⟩
  | cons p ps ih =>
    simp only [applicationsAll, offender?_append]
    rcases h p (by simp) with ⟨n, heval, hvalue, hnone⟩ | ⟨e, q, heval, hfirst, hq⟩
    · rcases ih fun a ha => h a (by simp [ha]) with
        ⟨ns, hevals, hvalues, hnones⟩ | ⟨e, q, hevals, hfirst, hq⟩
      · refine .inl ⟨n :: ns, ?_, ?_, ?_⟩
        · simp [evalAll, heval, hevals, bind, Except.bind]
        · exact mapM_cons_eq_some.2 ⟨n, ns, hvalue, hvalues, rfl⟩
        · rw [hnone, hnones]
          rfl
      · refine .inr ⟨e, q, ?_, ?_, hq⟩
        · simp [evalAll, heval, hevals, bind, Except.bind]
        · rw [hnone, hfirst]
          rfl
    · refine .inr ⟨e, q, ?_, ?_, hq⟩
      · simp [evalAll, heval, bind, Except.bind]
      · rw [hfirst]
        rfl

/-- After the arguments it is for the operator to have a result or to be at fault. -/
theorem agrees_app {op : Op} {operands : List Value} (hlength : ps.length = op.arity)
    (hevals : evalAll v ps = .ok (operands.map .defined))
    (hvalues : ps.mapM (·.exactValue? v) = some operands)
    (hnone : offender? v (applicationsAll ps) = none) : (app op (.input :: ps)).Agrees v := by
  have hoperands : operands.length = op.arity := by
    rw [(mapM_eq_some_iff_getElem?.1 hvalues).1, hlength]
  have hfirst : offender? v (app op (.input :: ps)).applications =
      offender? v [app op (.input :: ps)] := by
    show offender? v (applicationsAll ps ++ [app op (.input :: ps)]) = _
    rw [offender?_append, hnone]
    rfl
  rw [Agrees, hfirst]
  cases hc : op.compute v operands with
  | ok n =>
    have hvalue := (exactValue?_app hvalues).2 hc
    refine .inl ⟨n, ?_, hvalue, ?_⟩
    · simp [eval, hevals, bind, Except.bind, Op.applyTo, Outcome.values?_map_defined, hc, Except.map]
    · simp [offender?, hvalue]
  | error e =>
    have hvalue : (app op (.input :: ps)).exactValue? v = none :=
      Option.eq_none_iff_forall_ne_some.2 fun n hn => by simp [(exactValue?_app hvalues).1 hn] at hc
    refine .inr ⟨e, app op (.input :: ps), ?_, ?_, op, ps, operands, rfl, hvalues, ?_⟩
    · simp [eval, hevals, bind, Except.bind, Op.applyTo, Outcome.values?_map_defined, hc, Except.map]
    · simp [offender?, hvalue]
    · exact Op.faulty_of_compute hoperands hc

theorem WellFormed.agrees (h : p.WellFormed) : p.Agrees v := by
  induction h with
  | lit n => exact .inl ⟨n, by simp [eval], exactValue?_eq_some.2 rfl, rfl⟩
  | @app op params length _ ih =>
    rcases evalAll_agrees ih with ⟨ns, hevals, hvalues, hnone⟩ | ⟨e, q, hevals, hfirst, hq⟩
    · exact agrees_app length hevals hvalues hnone
    · refine .inr ⟨e, q, ?_, ?_, hq⟩
      · simp [eval, hevals, bind, Except.bind]
      · show offender? v (applicationsAll params ++ [.app op (.input :: params)]) = some q
        rw [offender?_append, hfirst]
        rfl

/-- The faults of programs that are not written as they should be, or that stand for nothing. -/
theorem Offends.kind (h : q.Offends v e) : (∀ op expected found, e ≠ .arity op expected found) ∧
    e ≠ .notAnInteger ∧ e ≠ .undefined := by
  obtain ⟨op, params, operands, rfl, _, hfaulty⟩ := h
  cases hfaulty <;> simp

theorem offender?_eq_none {qs : List Program} :
    offender? v qs = none ↔ ∀ q ∈ qs, (q.exactValue? v).isSome := by
  simp [offender?, Option.isSome_iff_ne_none]

/-- **A program runs to its exact value if each of its applications has one in range, and else to the
fault of the first that has not**, which says what is wrong there and with which operands. -/
theorem WellFormed.run_exact (h : p.WellFormed) :
    (∀ n, p.run v = .ok n ↔
      p.exactValue? v = some n ∧ ∀ q ∈ p.applications, (q.exactValue? v).isSome) ∧
    (∀ e, p.run v = .error e ↔ ∃ q, offender? v p.applications = some q ∧ q.Offends v e) ∧
    (∀ op expected found, p.run v ≠ .error (.arity op expected found)) ∧
    p.run v ≠ .error .notAnInteger ∧ p.run v ≠ .error .undefined := by
  simp only [← offender?_eq_none]
  rcases h.agrees (v := v) with ⟨n, heval, hvalue, hnone⟩ | ⟨e, q, heval, hfirst, hq⟩
  · have hrun : p.run v = .ok n := by simp [run, heval]
    simp [hrun, hvalue, hnone]
  · have hrun : p.run v = .error e := by simp [run, heval]
    have hunique : ∀ e', q.Offends v e' ↔ e = e' :=
      fun e' => ⟨fun h => hq.unique h, fun h => h ▸ hq⟩
    simp [hrun, hfirst, hunique, hq.kind]

/-- A product out of range and a divisor that is zero: the product comes first. -/
theorem run_exact_in_order :
    let p : Program := sum (mul (elementAt (.ofNat 0)) (.lit (.ofNat 2)))
      (div (.lit (.ofNat 1)) (elementAt (.ofNat 1)))
    let large : Value := .ofNat 4611686018427387904
    p.WellFormed ∧ p.run [.ofNat 3, .ofNat 1] = .ok (.ofNat 7) ∧
      p.run [large, .zero] = .error (.overflow .mul large (.ofNat 2)) ∧
      p.run [.ofNat 3, .zero] = .error (.divisionByZero (.ofNat 1)) := by
  intro p large
  have hlit : ∀ n, WellFormed (.lit n) := .lit
  have helement : ∀ n, (elementAt n).WellFormed := fun n => .app rfl (by simpa using hlit n)
  have hmul : (mul (elementAt (.ofNat 0)) (.lit (.ofNat 2))).WellFormed :=
    .app rfl (by simpa using ⟨helement _, hlit _⟩)
  have hdiv : (div (.lit (.ofNat 1)) (elementAt (.ofNat 1))).WellFormed :=
    .app rfl (by simpa using ⟨hlit _, helement _⟩)
  have hp : p.WellFormed := .app rfl (by simpa using ⟨hmul, hdiv⟩)
  refine ⟨hp, ?_, ?_, ?_⟩
  · exact (hp.run_exact.1 _).2 (by decide +kernel)
  · refine (hp.run_exact.2.1 _).2 ⟨mul (elementAt (.ofNat 0)) (.lit (.ofNat 2)), by decide +kernel, ?_⟩
    exact ⟨.mul, _, [large, .ofNat 2], rfl, by decide +kernel,
      .overflow rfl (.inr (by decide +kernel))⟩
  · refine (hp.run_exact.2.1 _).2 ⟨div (.lit (.ofNat 1)) (elementAt (.ofNat 1)), by decide +kernel, ?_⟩
    exact ⟨.div, _, [.ofNat 1, .zero], rfl, by decide +kernel, .zeroDivisor _⟩

end Program

end ArithLearn
