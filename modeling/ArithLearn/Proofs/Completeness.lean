/-
Which programs a search cannot miss.

The right operand of an application is solved for, but the left one is
looked for among the elements of the input, and only beside a partner. So
not every program that fits is found. `Recoverable` describes those for
which this is no restriction: the operands of each application have the
values of two elements, of different places, and a division leaves no
remainder. Which places may differ from state to state.
-/
import ArithLearn.Proofs.Derivation

namespace ArithLearn

namespace Program

/-- The programs whose operands have values that can be read off the input. -/
inductive Recoverable (v : Input) : Program → Prop
  | lit (k : Value) : Recoverable v (.lit k)
  | elementAt (position : Value) : Recoverable v (.elementAt position)
  | binary {op : Op} {a b : Program} {x y : Value} (hop : op.IsBinary) (ha : Recoverable v a)
      (hb : Recoverable v b) (hx : a.value? v = some x) (hy : b.value? v = some y)
      (partners : Partners v x y) (hdiv : op = .div → y.toInt ∣ x.toInt) :
      Recoverable v (.apply op [a, b])

namespace Recoverable

variable {v : Input} {p : Program}

theorem conforms (h : Recoverable v p) : p.Conforms := by
  induction h with
  | lit k => exact .lit k
  | elementAt position => exact .elementAt position
  | binary hop _ _ _ _ _ _ iha ihb => exact .binary hop iha ihb

/-- The operands of a recoverable application. -/
theorem operands {op : Op} {a b : Program} (h : Recoverable v (.apply op [a, b])) :
    Recoverable v a ∧ Recoverable v b ∧ ∃ x y, a.value? v = some x ∧ b.value? v = some y ∧
      Partners v x y ∧ (op = .div → y.toInt ∣ x.toInt) := by
  generalize hp : apply op [a, b] = p at h
  cases h with
  | lit k => cases hp
  | elementAt position => cases hp
  | binary hop ha hb hx hy partners hdiv =>
    cases hp
    exact ⟨ha, hb, _, _, hx, hy, partners, hdiv⟩

/-- The value of a recoverable application is exactly what its operator gives. -/
theorem exactly {op : Op} {a b : Program} {n : Value} (h : Recoverable v (.apply op [a, b]))
    (hn : (Program.apply op [a, b]).value? v = some n) :
    ∃ x y, a.value? v = some x ∧ b.value? v = some y ∧ Partners v x y ∧
      op.Exactly x.toInt y.toInt n.toInt := by
  obtain ⟨_, _, x, y, hx, hy, partners, hdiv⟩ := h.operands
  obtain ⟨x', y', hx', hy', hg⟩ := value?_binary.1 hn
  obtain rfl : x' = x := Option.some.inj (hx'.symm.trans hx)
  obtain rfl : y' = y := Option.some.inj (hy'.symm.trans hy)
  exact ⟨x', y', hx, hy, partners, Op.exactly_iff.2 ⟨hg, hdiv⟩⟩

end Recoverable

end Program

variable {states : List Input}

/-- A recoverable program is derived for every aligned spec that it meets. -/
theorem derives_of_recoverable {depth : Nat} {spec : Spec} {p : Program} (hne : states ≠ [])
    (hl : spec.length = states.length) (hd : p.depth ≤ depth)
    (hr : ∀ v ∈ states, p.Recoverable v) (hs : spec.satisfiedBy states p) :
    Derives states depth spec p := by
  have hconf : p.Conforms := by
    obtain ⟨v, hv⟩ := List.exists_mem_of_ne_nil states hne
    exact (hr v hv).conforms
  refine .of_operands (Q := fun spec p => spec.length = states.length ∧
    spec.satisfiedBy states p ∧ ∀ v ∈ states, p.Recoverable v) ?_ ?_ hconf hd ⟨hl, hs, hr⟩
  · intro spec p h
    exact ⟨h.1, h.2.1⟩
  · intro op left right row spec a b h
    obtain ⟨hl, hs, hr⟩ := h
    have hvalue : ∀ v ∈ states, ∃ x, a.value? v = some x := by
      intro v hv
      obtain ⟨_, _, x, _, hx, _⟩ := (hr v hv).operands
      exact ⟨x, hx⟩
    obtain ⟨values, hvalues⟩ := Program.exists_valuesOn_iff.2 hvalue
    have hexactly : spec.OnEach states fun v outputs => ∃ n ∈ outputs, ∃ x y, a.value? v = some x ∧
        b.value? v = some y ∧ Partners v x y ∧ op.Exactly x.toInt y.toInt n.toInt := by
      refine (Spec.satisfiedBy_iff.1 hs).imp ?_
      intro v hv outputs h
      obtain ⟨n, hn, hval⟩ := h
      exact ⟨n, hn, (hr v hv).exactly hval⟩
    -- Beside its partner, the left value is one of those the left witness finds.
    have hleft : (Witness.freeSpec left states spec).satisfiedBy states a := by
      refine Spec.satisfiedBy_iff.2 (Witness.onEach_freeSpec.2 (hexactly.imp ?_))
      intro v _ outputs h
      obtain ⟨n, hn, x, y, hx, _, partners, hexact⟩ := h
      exact ⟨x, row.mem_left.2 ⟨y, partners, n, hn, hexact⟩, hx⟩
    -- Being an element itself, the right value is found even beside a zero.
    have hright : (Witness.dependentSpec right states spec values).satisfiedBy states b := by
      refine Spec.satisfiedBy_iff.2 ((Witness.onEach_dependentSpec hvalues).2 (hexactly.imp ?_))
      intro v _ outputs h x' hx'
      obtain ⟨n, hn, x, y, hx, hy, partners, hexact⟩ := h
      obtain rfl : x' = x := Option.some.inj (hx'.symm.trans hx)
      exact ⟨y, row.mem_right_of_mem partners.mem_right hn hexact, hy⟩
    exact ⟨values, hvalues,
      ⟨Witness.length_freeSpec hl, hleft, fun v hv => (hr v hv).operands.1⟩,
      ⟨Witness.length_dependentSpec hl (Program.length_of_valuesOn hvalues), hright,
        fun v hv => (hr v hv).operands.2.1⟩⟩

/-- **A search misses no recoverable program**: one that is nested no deeper than allowed and gives
the output of every example is in the version space, if it is recoverable on every input. -/
theorem contains_of_recoverable {examples : List Example} {config : Config} {clock : Clock}
    {space : Graph} {p : Program} (h : versionSpace examples config clock = .ok space)
    (hd : p.depth ≤ config.limits.maxDepth) (hr : ∀ e ∈ examples, p.Recoverable e.input)
    (hrun : ∀ e ∈ examples, p.run e.input = .ok e.output) : space.contains p := by
  obtain ⟨hne, hshape⟩ := versionSpace_eq_ok h
  have hstates : examples.map (·.input) ≠ [] := by simpa using hne
  have hderives := derives_of_recoverable hstates Spec.length_exact hd (by simpa using hr)
    (Spec.fits_iff.2 hrun)
  rw [← Space.contains_shape, hshape]
  exact hderives.contains_learn hstates Spec.length_exact

/-- The first element times three, where three stands at another place on each input. -/
theorem contains_mul_lit :
    ∃ space, versionSpace
        [⟨[.ofNat 2, .ofNat 3], .ofNat 6⟩, ⟨[.ofNat 5, .ofNat 7, .ofNat 3], .ofNat 15⟩] {} =
          .ok space ∧
      space.contains (.mul (.elementAt (.ofNat 0)) (.lit (.ofNat 3))) := by
  have hok : (versionSpace
      [⟨[.ofNat 2, .ofNat 3], .ofNat 6⟩, ⟨[.ofNat 5, .ofNat 7, .ofNat 3], .ofNat 15⟩]
        {}).toOption.any fun _ => true := by
    decide +kernel
  obtain ⟨space, hspace, _⟩ := exists_ok_of_any hok
  refine ⟨space, hspace, contains_of_recoverable hspace (by decide) ?_ ?_⟩
  · have hmul : ∀ {v : Input} {x : Value}, (Program.elementAt (.ofNat 0)).value? v = some x →
        Partners v x (.ofNat 3) →
          (Program.mul (.elementAt (.ofNat 0)) (.lit (.ofNat 3))).Recoverable v :=
      fun hx partners => .binary .mul (.elementAt _) (.lit _) hx Program.value?_lit partners (by simp)
    simp only [List.mem_cons, List.not_mem_nil, or_false, forall_eq_or_imp, forall_eq]
    exact ⟨hmul (x := .ofNat 2) (by decide) ⟨0, 1, by decide, rfl, rfl⟩,
      hmul (x := .ofNat 5) (by decide) ⟨0, 2, by decide, rfl, rfl⟩⟩
  · decide

end ArithLearn
