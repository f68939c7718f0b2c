/-
What a program is worth, from what its arguments are worth.

`value?_app`: an application has a value on an input exactly when all its
arguments have one and the operator has a result on these. `valuesOn_app`
says the same of the values on all states at once, which is what clusters
are keyed by: there the arguments come as columns, a list over the states
for each, and the operator reads them row by row.
-/
import ArithLearn.Space.Cluster
import ArithLearn.Proofs.Arithmetic
import Mathlib.Data.List.Forall2

namespace ArithLearn

/-! ### Maps that may fail -/

section MapM

variable {α β : Type} {f : α → Option β} {xs : List α} {ys : List β}

theorem mapM_cons_eq_some {x : α} :
    (x :: xs).mapM f = some ys ↔ ∃ z zs, f x = some z ∧ xs.mapM f = some zs ∧ ys = z :: zs := by
  rw [List.mapM_cons]
  cases f x with
  | none => simp
  | some z => cases xs.mapM f <;> simp [eq_comm]

theorem mapM_eq_some : xs.mapM f = some ys ↔ List.Forall₂ (fun x y => f x = some y) xs ys := by
  induction xs generalizing ys with
  | nil => simp [eq_comm]
  | cons x xs ih =>
    rw [mapM_cons_eq_some, List.forall₂_cons_left_iff]
    constructor
    · intro h
      obtain ⟨z, zs, hz, hzs, rfl⟩ := h
      exact ⟨z, zs, hz, ih.1 hzs, rfl⟩
    · intro h
      obtain ⟨z, zs, hz, hzs, rfl⟩ := h
      exact ⟨z, zs, hz, ih.2 hzs, rfl⟩

theorem exists_mapM_eq_some : (∃ ys, xs.mapM f = some ys) ↔ ∀ x ∈ xs, ∃ y, f x = some y := by
  induction xs with
  | nil => simp
  | cons x xs ih =>
    simp only [mapM_cons_eq_some, List.forall_mem_cons, ← ih]
    constructor
    · intro h
      obtain ⟨_, z, zs, hz, hzs, _⟩ := h
      exact ⟨⟨z, hz⟩, zs, hzs⟩
    · intro h
      obtain ⟨⟨z, hz⟩, zs, hzs⟩ := h
      exact ⟨z :: zs, z, zs, hz, hzs, rfl⟩

/-- Place by place. -/
theorem mapM_eq_some_iff_getElem? :
    xs.mapM f = some ys ↔ ys.length = xs.length ∧
      ∀ (i : Nat) x y, xs[i]? = some x → ys[i]? = some y → f x = some y := by
  rw [mapM_eq_some]
  constructor
  · intro h
    refine ⟨h.length_eq.symm, fun i x y hx hy => ?_⟩
    obtain ⟨hi, rfl⟩ := List.getElem?_eq_some_iff.1 hx
    obtain ⟨hj, rfl⟩ := List.getElem?_eq_some_iff.1 hy
    exact h.get hi hj
  · intro h
    obtain ⟨hl, h⟩ := h
    refine List.forall₂_iff_get.2 ⟨hl.symm, fun i hx hy => ?_⟩
    exact h i _ _ (List.getElem?_eq_getElem hx) (List.getElem?_eq_getElem hy)

end MapM

/-! ### One input -/

theorem Outcome.values?_map_defined (ns : List Value) :
    Outcome.values? (ns.map .defined) = some ns := by
  induction ns with
  | nil => rfl
  | cons n ns ih => simp [Outcome.values?, ih]

namespace Program

variable {v : Input} {p : Program} {ps : List Program} {n : Value}

theorem run_eq_ok : p.run v = .ok n ↔ p.value? v = some n := by
  rw [value?_eq_some, run]
  split <;> simp_all

@[simp] theorem value?_lit {k : Value} : (lit k).value? v = some k := by
  simp [value?, eval]

/-- Arguments that evaluate have their values, or one of them has none. -/
theorem values?_of_evalAll {os : List Outcome} (h : evalAll v ps = .ok os) :
    Outcome.values? os = ps.mapM (·.value? v) := by
  induction ps generalizing os with
  | nil =>
    simp only [evalAll, Except.ok.injEq] at h
    subst h
    rfl
  | cons p ps ih =>
    simp only [evalAll, bind, Except.bind] at h
    rw [List.mapM_cons]
    cases hp : p.eval v with
    | error e => simp [hp] at h
    | ok o =>
      cases hps : evalAll v ps with
      | error e => simp [hp, hps] at h
      | ok os' =>
        simp only [hp, hps, Except.ok.injEq] at h
        subst h
        cases o with
        | undefined => simp [Outcome.values?, value?, hp]
        | defined m =>
          rw [← ih hps]
          cases hv : Outcome.values? os' <;> simp [Outcome.values?, value?, hp, hv]

theorem evalAll_of_mapM {args : List Value} (h : ps.mapM (·.value? v) = some args) :
    evalAll v ps = .ok (args.map .defined) := by
  induction ps generalizing args with
  | nil =>
    cases h
    rfl
  | cons p ps ih =>
    obtain ⟨n, ns, hp, hps, rfl⟩ := mapM_cons_eq_some.1 h
    simp [evalAll, value?_eq_some.1 hp, ih hps, bind, Except.bind]

theorem value?_app {op : Op} : (app op (.input :: ps)).value? v = some n ↔
    ∃ args, ps.mapM (·.value? v) = some args ∧ op.compute v args = .ok n := by
  rw [value?_eq_some]
  simp only [eval, bind, Except.bind]
  constructor
  · intro h
    cases hps : evalAll v ps with
    | error e => simp [hps] at h
    | ok os =>
      simp only [hps, Op.applyTo] at h
      cases hv : Outcome.values? os with
      | none => simp [hv] at h
      | some args =>
        refine ⟨args, by rw [← values?_of_evalAll hps, hv], ?_⟩
        cases hc : op.compute v args with
        | error e => simp [hv, hc, Except.map] at h
        | ok m => simpa [hv, hc, Except.map] using h
  · intro h
    obtain ⟨args, hargs, hc⟩ := h
    simp [evalAll_of_mapM hargs, Op.applyTo, Outcome.values?_map_defined, hc, Except.map]

theorem value?_elementAt {position : Value} :
    (elementAt position).value? v = some n ↔
      0 ≤ position.toInt ∧ v[position.toInt.toNat]? = some n := by
  rw [elementAt, apply, value?_app, ← Op.compute_elementAt]
  simp

theorem value?_binary {op : Op} {a b : Program} :
    (apply op [a, b]).value? v = some n ↔ ∃ x y, a.value? v = some x ∧ b.value? v = some y ∧
      op.Gives x.toInt y.toInt n.toInt := by
  rw [apply, value?_app]
  constructor
  · intro h
    obtain ⟨_, hargs, hc⟩ := h
    obtain ⟨x, _, hx, hrest, rfl⟩ := mapM_cons_eq_some.1 hargs
    obtain ⟨y, _, hy, hnil, rfl⟩ := mapM_cons_eq_some.1 hrest
    cases hnil
    exact ⟨x, y, hx, hy, Op.compute_binary.1 hc⟩
  · intro h
    obtain ⟨x, y, hx, hy, hg⟩ := h
    exact ⟨[x, y], by simp [hx, hy], Op.compute_binary.2 hg⟩

/-! ### All states -/

variable {states : List Input} {values : List Value}

theorem valuesOn_nil : p.valuesOn [] = some values ↔ values = [] := by
  simp [valuesOn, eq_comm]

theorem valuesOn_cons : p.valuesOn (v :: states) = some values ↔
    ∃ n ns, p.value? v = some n ∧ p.valuesOn states = some ns ∧ values = n :: ns :=
  mapM_cons_eq_some

theorem exists_valuesOn_iff :
    (∃ values, p.valuesOn states = some values) ↔ ∀ v ∈ states, ∃ n, p.value? v = some n :=
  exists_mapM_eq_some

/-- The values on all states are what evaluation gives there, defined on each. -/
theorem valuesOn_eq_some : p.valuesOn states = some values ↔
    states.map (p.eval ·) = values.map fun n => .ok (.defined n) := by
  rw [valuesOn, mapM_eq_some, ← List.forall₂_eq_eq_eq, List.forall₂_map_left_iff,
    List.forall₂_map_right_iff]
  simp only [value?_eq_some]

theorem length_of_valuesOn (h : p.valuesOn states = some values) : values.length = states.length :=
  (mapM_eq_some_iff_getElem?.1 h).1

theorem getElem?_of_valuesOn (h : p.valuesOn states = some values) {s : Nat} (hs : states[s]? = some v) :
    p.value? v = values[s]? := by
  obtain ⟨hl, hv⟩ := mapM_eq_some_iff_getElem?.1 h
  obtain ⟨hs', rfl⟩ := List.getElem?_eq_some_iff.1 hs
  have hn := List.getElem?_eq_getElem (l := values) (i := s) (by omega)
  rw [hn, hv s _ _ hs hn]

/-- A row of the columns holds the values of the programs on its state. -/
theorem mapM_column {columns : List (List Value)} (h : ps.mapM (·.valuesOn states) = some columns)
    {s : Nat} (hs : states[s]? = some v) :
    columns.mapM (·[s]?) = ps.mapM (·.value? v) := by
  induction ps generalizing columns with
  | nil =>
    cases h
    rfl
  | cons p ps ih =>
    obtain ⟨column, rest, hp, hps, rfl⟩ := mapM_cons_eq_some.1 h
    rw [List.mapM_cons, List.mapM_cons, ih hps, getElem?_of_valuesOn hp hs]

end Program

/-- The values of an operator, state by state. -/
theorem Op.valuesOn_eq_some {op : Op} {states : List Input} {columns : List (List Value)}
    {values : List Value} : op.valuesOn states columns = some values ↔
      values.length = states.length ∧
        ∀ (s : Nat) v n, states[s]? = some v → values[s]? = some n →
          ∃ args, columns.mapM (·[s]?) = some args ∧ op.compute v args = .ok n := by
  have row : ∀ (v : Input) (s : Nat) (n : Value),
      (do let args ← columns.mapM fun column => column[s]?; (op.compute v args).toOption) =
        some n ↔ ∃ args, columns.mapM (·[s]?) = some args ∧ op.compute v args = .ok n := by
    intro v s n
    cases columns.mapM fun column => column[s]? with
    | none => simp
    | some args => cases hc : op.compute v args <;> simp [hc, Except.toOption]
  rw [Op.valuesOn, mapM_eq_some_iff_getElem?, List.length_zipIdx]
  refine and_congr_right fun _ => ?_
  constructor
  · intro h s v n hv hn
    exact (row v s n).1 (h s (v, s) n (by simp [hv]) hn)
  · intro h s x n hx hn
    obtain ⟨v, hv, rfl⟩ : ∃ v, states[s]? = some v ∧ (v, s) = x := by simpa using hx
    exact (row v s n).2 (h s v n hv hn)

/-- The values of an application on all states are those of its operator on the columns of its
arguments. -/
theorem Program.valuesOn_app {op : Op} {states : List Input} {ps : List Program}
    {values : List Value} : (app op (.input :: ps)).valuesOn states = some values ↔
      ∃ columns, ps.mapM (·.valuesOn states) = some columns ∧
        op.valuesOn states columns = some values := by
  constructor
  · intro h
    obtain ⟨hl, hv⟩ := mapM_eq_some_iff_getElem?.1 h
    have hcol : ∀ p ∈ ps, ∃ column, p.valuesOn states = some column := by
      intro p hp
      refine exists_valuesOn_iff.2 fun v hvs => ?_
      obtain ⟨s, hs⟩ := List.getElem?_of_mem hvs
      have hn := List.getElem?_eq_getElem (l := values) (i := s)
        (by have := (List.getElem?_eq_some_iff.1 hs).1; omega)
      obtain ⟨args, hargs, _⟩ := value?_app.1 (hv s v _ hs hn)
      exact exists_mapM_eq_some.1 ⟨args, hargs⟩ p hp
    obtain ⟨columns, hc⟩ := exists_mapM_eq_some.2 hcol
    refine ⟨columns, hc, Op.valuesOn_eq_some.2 ⟨hl, fun s v n hs hn => ?_⟩⟩
    rw [mapM_column hc hs]
    exact value?_app.1 (hv s v n hs hn)
  · intro h
    obtain ⟨columns, hc, h⟩ := h
    obtain ⟨hl, hv⟩ := Op.valuesOn_eq_some.1 h
    refine mapM_eq_some_iff_getElem?.2 ⟨hl, fun s v n hs hn => ?_⟩
    rw [value?_app, ← mapM_column hc hs]
    exact hv s v n hs hn

end ArithLearn
