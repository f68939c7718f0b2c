/-
Specs, state by state.

`Spec.OnEach` relates every state to what the spec accepts there. Meeting a
spec is such a relation (`satisfiedBy_iff`), and the specs the witnesses
make for operands ask of each state what the witness says for it
(`onEach_freeSpec`, `onEach_dependentSpec`). With these, what is said of a
whole spec is proved for one state at a time.
-/
import ArithLearn.Synthesis
import ArithLearn.Proofs.Evaluation

namespace ArithLearn

namespace Spec

variable {states : List Input} {spec : Spec} {p : Program} {v : Input} {outputs : SortedSet Value}
  {P Q : Input → SortedSet Value → Prop}

theorem isUnsatisfiable_iff : spec.isUnsatisfiable ↔ ∃ outputs ∈ spec.outputs, ∀ n, n ∉ outputs := by
  simp [isUnsatisfiable, SortedSet.isEmpty_iff]

theorem mem_common {n : Value} :
    n ∈ spec.common ↔ spec.outputs ≠ [] ∧ ∀ outputs ∈ spec.outputs, n ∈ outputs := by
  have mem_foldl : ∀ (rest : List (SortedSet Value)) (first : SortedSet Value),
      n ∈ rest.foldl .inter first ↔ ∀ outputs ∈ first :: rest, n ∈ outputs := by
    intro rest
    induction rest with
    | nil => simp
    | cons outputs rest ih => simp [ih, and_assoc]
  obtain ⟨outputs⟩ := spec
  cases outputs with
  | nil => simp [common]
  | cons first rest =>
    rw [common, mem_foldl]
    simp

/-- The relation holds of each state and what the spec accepts there. -/
def OnEach (states : List Input) (spec : Spec) (P : Input → SortedSet Value → Prop) : Prop :=
  ∀ (s : Nat) v outputs, states[s]? = some v → spec.outputs[s]? = some outputs → P v outputs

theorem OnEach.imp (h : spec.OnEach states P)
    (hPQ : ∀ v ∈ states, ∀ outputs, P v outputs → Q v outputs) : spec.OnEach states Q :=
  fun s v outputs hv ho => hPQ v (List.mem_of_getElem? hv) outputs (h s v outputs hv ho)

theorem onEach_of_forall_mem {P : SortedSet Value → Prop} (h : ∀ outputs ∈ spec.outputs, P outputs) :
    spec.OnEach states fun _ outputs => P outputs :=
  fun _ _ outputs _ ho => h outputs (List.mem_of_getElem? ho)

/-- Over an aligned spec every state accepts something or other. -/
theorem OnEach.exists_outputs (h : spec.OnEach states P) (hl : spec.length = states.length)
    (hv : v ∈ states) : ∃ outputs, P v outputs := by
  obtain ⟨s, hv⟩ := List.getElem?_of_mem hv
  have hlt : s < states.length := (List.getElem?_eq_some_iff.1 hv).1
  rw [← hl] at hlt
  exact ⟨_, h s v _ hv (List.getElem?_eq_getElem hlt)⟩

theorem OnEach.exists_state (h : spec.OnEach states P) (hl : spec.length = states.length)
    (ho : outputs ∈ spec.outputs) : ∃ v, P v outputs := by
  obtain ⟨s, ho⟩ := List.getElem?_of_mem ho
  have hlt : s < spec.length := (List.getElem?_eq_some_iff.1 ho).1
  rw [hl] at hlt
  exact ⟨_, h s _ outputs (List.getElem?_eq_getElem hlt) ho⟩

theorem onEach_single : OnEach [v] ⟨[outputs]⟩ P ↔ P v outputs := by
  constructor
  · exact fun h => h 0 v outputs rfl rfl
  · intro h s v' outputs' hv ho
    rwa [List.mem_singleton.1 (List.mem_of_getElem? hv),
      List.mem_singleton.1 (List.mem_of_getElem? ho)]

/-- The spec of examples. -/
theorem onEach_exact {examples : List Example} :
    OnEach (examples.map (·.input)) (exact (examples.map (·.output))) P ↔
      ∀ e ∈ examples, P e.input (.singleton e.output) := by
  constructor
  · intro h e he
    obtain ⟨s, hs⟩ := List.getElem?_of_mem he
    exact h s _ _ (by simp [hs]) (by simp [exact, hs])
  · intro h s v outputs hv ho
    obtain ⟨e, he, rfl⟩ : ∃ e, examples[s]? = some e ∧ e.input = v := by simpa using hv
    obtain rfl : SortedSet.singleton e.output = outputs := by simpa [exact, he] using ho
    exact h e (List.mem_of_getElem? he)

/-! ### Meeting a spec -/

theorem accepts_iff : accepts outputs v p ↔ ∃ n ∈ outputs, p.value? v = some n := by
  unfold accepts
  cases p.value? v <;> simp

theorem satisfiedBy_iff : spec.satisfiedBy states p ↔
    spec.OnEach states fun v outputs => ∃ n ∈ outputs, p.value? v = some n := by
  rw [satisfiedBy, List.all_eq_true]
  constructor
  · intro h s v outputs hv ho
    refine accepts_iff.1 (h (v, outputs) ?_)
    exact List.mem_of_getElem? (List.getElem?_zip_eq_some.2 ⟨hv, ho⟩)
  · intro h h hmem
    obtain ⟨v, outputs⟩ := h
    obtain ⟨s, hs⟩ := List.getElem?_of_mem hmem
    obtain ⟨hv, ho⟩ := List.getElem?_zip_eq_some.1 hs
    exact accepts_iff.2 (h s v outputs hv ho)

/-- A spec asks of a program what it asks on each state alone. -/
theorem satisfiedBy_iff_single : spec.satisfiedBy states p ↔
    spec.OnEach states fun v outputs => satisfiedBy ⟨[outputs]⟩ [v] p := by
  simp only [satisfiedBy_iff, onEach_single]

/-- An aligned spec that some program meets accepts something on every state. -/
theorem not_isUnsatisfiable (hl : spec.length = states.length) (h : spec.satisfiedBy states p) :
    ¬ spec.isUnsatisfiable := by
  rw [isUnsatisfiable_iff]
  intro h
  obtain ⟨outputs, ho, hno⟩ := h
  obtain ⟨v, n, hn, _⟩ := (satisfiedBy_iff.1 h).exists_state hl ho
  exact hno n hn

/-- Fitting the examples is giving the output of each. -/
theorem fits_iff {examples : List Example} :
    fits examples p ↔ ∀ e ∈ examples, p.run e.input = .ok e.output := by
  rw [fits, satisfiedBy_iff, onEach_exact]
  simp [Program.run_eq_ok]

theorem length_exact {examples : List Example} :
    (exact (examples.map (·.output))).length = (examples.map (·.input)).length := by
  simp [exact, length]

end Spec

/-! ### The specs of operands -/

namespace Witness

open Spec

variable {states : List Input} {spec : Spec} {P : Input → SortedSet Value → Prop}

theorem length_freeSpec {f : Input → SortedSet Value → SortedSet Value}
    (h : spec.length = states.length) : (freeSpec f states spec).length = states.length := by
  rw [Spec.length] at h
  simp [freeSpec, Spec.length, h]

theorem length_dependentSpec {f : Input → SortedSet Value → Value → SortedSet Value}
    {chosen : List Value} (h : spec.length = states.length) (hc : chosen.length = states.length) :
    (dependentSpec f states spec chosen).length = states.length := by
  rw [Spec.length] at h
  simp [dependentSpec, Spec.length, h, hc]

theorem forall_mem_freeSpec {f : Input → SortedSet Value → SortedSet Value}
    {P : SortedSet Value → Prop} : (∀ found ∈ (freeSpec f states spec).outputs, P found) ↔
      spec.OnEach states fun v outputs => P (f v outputs) := by
  constructor
  · intro h s v outputs hv ho
    exact h _ (List.mem_of_getElem? (List.getElem?_zipWith_eq_some.2 ⟨v, outputs, hv, ho, rfl⟩))
  · intro h found hmem
    obtain ⟨s, hs⟩ := List.getElem?_of_mem hmem
    obtain ⟨v, outputs, hv, ho, rfl⟩ := List.getElem?_zipWith_eq_some.1 hs
    exact h s v outputs hv ho

theorem onEach_freeSpec {f : Input → SortedSet Value → SortedSet Value} :
    (freeSpec f states spec).OnEach states P ↔
      spec.OnEach states fun v outputs => P v (f v outputs) := by
  constructor
  · intro h s v outputs hv ho
    exact h s v _ hv (List.getElem?_zipWith_eq_some.2 ⟨v, outputs, hv, ho, rfl⟩)
  · intro h s v found hv hfound
    obtain ⟨v', outputs, hv', ho, rfl⟩ := List.getElem?_zipWith_eq_some.1 hfound
    obtain rfl : v' = v := Option.some.inj (hv'.symm.trans hv)
    exact h s _ outputs hv ho

/-- Where the values chosen are those of a program, the spec asks what the witness says beside its
value on each state. -/
theorem onEach_dependentSpec {f : Input → SortedSet Value → Value → SortedSet Value}
    {a : Program} {values : List Value} (ha : a.valuesOn states = some values) :
    (dependentSpec f states spec values).OnEach states P ↔
      spec.OnEach states fun v outputs => ∀ x, a.value? v = some x → P v (f v outputs x) := by
  have hget : ∀ {s : Nat} {found : SortedSet Value},
      (dependentSpec f states spec values).outputs[s]? = some found ↔ ∃ v outputs x,
        states[s]? = some v ∧ spec.outputs[s]? = some outputs ∧ a.value? v = some x ∧
          f v outputs x = found := by
    intro s found
    rw [dependentSpec, List.getElem?_zipWith_eq_some]
    constructor
    · intro h
      obtain ⟨⟨v, outputs⟩, x, hz, hx, h⟩ := h
      obtain ⟨hv, ho⟩ := List.getElem?_zip_eq_some.1 hz
      exact ⟨v, outputs, x, hv, ho, by rw [Program.getElem?_of_valuesOn ha hv, hx], h⟩
    · intro h
      obtain ⟨v, outputs, x, hv, ho, hx, h⟩ := h
      rw [Program.getElem?_of_valuesOn ha hv] at hx
      exact ⟨(v, outputs), x, List.getElem?_zip_eq_some.2 ⟨hv, ho⟩, hx, h⟩
  constructor
  · intro h s v outputs hv ho x hx
    exact h s v _ hv (hget.2 ⟨v, outputs, x, hv, ho, hx, rfl⟩)
  · intro h s v found hv hfound
    obtain ⟨v', outputs, x, hv', ho, hx, rfl⟩ := hget.1 hfound
    obtain rfl : v' = v := Option.some.inj (hv'.symm.trans hv)
    exact h s _ outputs hv ho x hx

end Witness

end ArithLearn
