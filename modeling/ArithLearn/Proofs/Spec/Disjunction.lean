/-
A spec as the disjoint union of the exact ones among it.

To accept several values on a state is to leave open which of them it is to
be. `Spec.combinations` goes through all ways of deciding, in the order of
the values (`pairwise_combinations`), and a program that meets the spec has
decided on one of them: it meets the exact spec of its own values, and of no
others (`satisfiedBy_iff_existsUnique`).
-/
import ArithLearn.Proofs.Combinations

namespace ArithLearn

namespace Spec

variable {states : List Input} {spec : Spec} {p : Program} {values : List Value}

theorem pairwise_combinations (spec : Spec) :
    spec.combinations.Pairwise (List.Lex fun m n => m.toInt < n.toInt) := by
  refine pairwise_choices (List.forall_mem_map.2 fun outputs _ => ?_)
  exact outputs.ascending.imp Int.compare_eq_lt.1

/-- There is no way of deciding exactly where a state accepts nothing. -/
theorem combinations_eq_nil (hne : spec.outputs ≠ []) :
    spec.combinations = [] ↔ spec.isUnsatisfiable := by
  obtain ⟨first, rest, hcons⟩ := List.exists_cons_of_ne_nil hne
  rw [combinations, isUnsatisfiable, hcons, List.map_cons, choices, ← List.map_cons,
    tuples_eq_nil, List.mem_map, List.any_eq_true]
  simp only [SortedSet.isEmpty, List.isEmpty_iff]

/-- To meet an exact spec is to have its values. -/
theorem satisfiedBy_exact_iff (hl : values.length = states.length) :
    (exact values).satisfiedBy states p ↔ p.valuesOn states = some values := by
  refine ⟨valuesOn_of_exact hl, fun hv => satisfiedBy_iff.2 fun i v outputs hstate ho => ?_⟩
  obtain ⟨n, hn, rfl⟩ : ∃ n, values[i]? = some n ∧ SortedSet.singleton n = outputs := by
    simpa [exact] using ho
  exact ⟨n, by simp, by rw [Program.getElem?_of_valuesOn hv hstate, hn]⟩

/-- What has a combination of accepted values meets the spec. -/
theorem satisfiedBy_of_mem_combinations (hc : values ∈ spec.combinations)
    (hv : p.valuesOn states = some values) : spec.satisfiedBy states p := by
  have hmem := (mem_combinations.1 hc).2
  refine satisfiedBy_iff.2 fun i v outputs hstate ho => ?_
  obtain ⟨hi, rfl⟩ := List.getElem?_eq_some_iff.1 ho
  have hlt : i < values.length := by rwa [hmem.length_eq]
  refine ⟨values[i], hmem.get hlt hi, ?_⟩
  rw [Program.getElem?_of_valuesOn hv hstate, List.getElem?_eq_getElem hlt]

/-- A program that meets an aligned spec has values on all states. -/
theorem exists_valuesOn (hl : spec.length = states.length) (hs : spec.satisfiedBy states p) :
    ∃ values, p.valuesOn states = some values := by
  refine Program.exists_valuesOn_iff.2 fun v hv => ?_
  obtain ⟨_, n, _, hn⟩ := (satisfiedBy_iff.1 hs).exists_outputs hl hv
  exact ⟨n, hn⟩

theorem satisfiedBy_iff_existsUnique (hne : states ≠ []) (hl : spec.length = states.length) :
    spec.satisfiedBy states p ↔
      ∃! values, values ∈ spec.combinations ∧ (exact values).satisfiedBy states p := by
  constructor
  · intro hs
    obtain ⟨values, hv⟩ := exists_valuesOn hl hs
    have hlength : values.length = states.length := Program.length_of_valuesOn hv
    refine ⟨values, ⟨mem_combinations_of_satisfiedBy hne hl hs hv, ?_⟩, ?_⟩
    · exact (satisfiedBy_exact_iff hlength).2 hv
    · rintro values' ⟨hc, hs'⟩
      have hv' := valuesOn_of_exact (length_of_mem_combinations hl hc).1 hs'
      exact Option.some.inj (hv'.symm.trans hv)
  · intro h
    obtain ⟨values, ⟨hc, hs⟩, _⟩ := h
    exact satisfiedBy_of_mem_combinations hc
      (valuesOn_of_exact (length_of_mem_combinations hl hc).1 hs)

/-- **A spec is the disjoint union of its combinations.** Over at least one state these are, in
lexicographic order, exactly the lists of one accepted value for each state, and there is none
exactly if some state accepts nothing. What meets the spec meets the exact spec of one of them, and
of one only, and what meets one of those meets the spec. -/
theorem combinations_divide (hne : states ≠ []) (hl : spec.length = states.length) :
    spec.combinations.Pairwise (List.Lex fun m n => m.toInt < n.toInt) ∧
      (∀ values, values ∈ spec.combinations ↔
        List.Forall₂ (fun n outputs => n ∈ outputs) values spec.outputs) ∧
      (spec.combinations = [] ↔ spec.isUnsatisfiable) ∧
      ∀ p, spec.satisfiedBy states p ↔
        ∃! values, values ∈ spec.combinations ∧ (exact values).satisfiedBy states p := by
  have houtputs : spec.outputs ≠ [] := by
    intro hnil
    rw [Spec.length, hnil, List.length_nil] at hl
    exact hne (List.eq_nil_of_length_eq_zero hl.symm)
  refine ⟨pairwise_combinations spec, fun values => ?_, combinations_eq_nil houtputs, fun p => ?_⟩
  · rw [mem_combinations, and_iff_right houtputs]
  · exact satisfiedBy_iff_existsUnique hne hl

/-- Two values on one of two states: the first elements meet the second combination, and no other.
With nothing accepted on the other state there is none. -/
theorem combinations_divide_elements :
    let states : List Input := [[.ofNat 5, .ofNat 3], [.ofNat 7]]
    let spec : Spec := ⟨[.ofList [.ofNat 3, .ofNat 5], .singleton (.ofNat 7)]⟩
    let dead : Spec := ⟨[.ofList [.ofNat 3, .ofNat 5], .empty]⟩
    states ≠ [] ∧ spec.length = states.length ∧ dead.length = states.length ∧
      spec.combinations = [[.ofNat 3, .ofNat 7], [.ofNat 5, .ofNat 7]] ∧
      (exact [.ofNat 5, .ofNat 7]).satisfiedBy states (.elementAt (.ofNat 0)) ∧
      (∃! values, values ∈ spec.combinations ∧
        (exact values).satisfiedBy states (.elementAt (.ofNat 0))) ∧
      dead.combinations = [] := by
  intro states spec dead
  have hstates : states ≠ [] := by simp [states]
  obtain ⟨_, _, _, hunique⟩ := @combinations_divide states spec hstates rfl
  obtain ⟨_, _, hdead, _⟩ := @combinations_divide states dead hstates rfl
  refine ⟨hstates, rfl, rfl, by decide +kernel, by decide +kernel, ?_, hdead.2 (by decide +kernel)⟩
  exact (hunique _).1 (by decide +kernel)

end Spec

end ArithLearn
