/-
One search for all combinations of accepted outputs, beside a search for
each of them.

A spec may accept several outputs on a state. The search does not try them
one after another: it learns one space for all, and splits that by what its
programs compute. So each cluster stands for one combination, and whatever
a search for this combination alone finds is in it. It can hold more than
that: a left operand may have been looked for on behalf of one output, and
the right one solved for beside it on behalf of another
(`cluster_exceeds_combination`). `Program.Proposed` are the programs to
which this does not happen, and of these a cluster holds exactly what the
search for its combination finds (`cluster_of_combination`).
-/
import ArithLearn.Proofs.Intersection
import ArithLearn.Proofs.Search.Cluster

namespace ArithLearn

/-! ### Derivations over one state, for other outputs -/

namespace Program

/-- The programs whose left operands have, on this input, a partner beside which they would give
what the application itself gives. -/
inductive Proposed (v : Input) : Program → Prop
  | lit (k : Value) : Proposed v (.lit k)
  | elementAt (position : Value) : Proposed v (.elementAt position)
  | binary {op : Op} {a b : Program} {x y n : Value} (hop : op.IsBinary) (ha : Proposed v a)
      (hb : Proposed v b) (hx : a.value? v = some x) (hn : (apply op [a, b]).value? v = some n)
      (partners : Partners v x y) (hexact : op.Exactly x.toInt y.toInt n.toInt) :
      Proposed v (.apply op [a, b])

/-- The operands of a proposed application. -/
theorem Proposed.operands {v : Input} {op : Op} {a b : Program}
    (h : Proposed v (.apply op [a, b])) : Proposed v a ∧ Proposed v b ∧
      ∃ x y n, a.value? v = some x ∧ (apply op [a, b]).value? v = some n ∧ Partners v x y ∧
        op.Exactly x.toInt y.toInt n.toInt := by
  generalize hp : apply op [a, b] = p at h
  cases h with
  | lit k => cases hp
  | elementAt position => cases hp
  | binary hop ha hb hx hn partners hexact =>
    cases hp
    exact ⟨ha, hb, _, _, _, hx, hn, partners, hexact⟩

end Program

section

variable {states : List Input} {depth : Nat} {spec : Spec} {p : Program} {v : Input}
  {outputs outputs' : SortedSet Value}

/-- Over one state, meeting a spec is having an accepted value. -/
theorem Spec.satisfiedBy_single :
    Spec.satisfiedBy ⟨[outputs]⟩ [v] p ↔ ∃ n ∈ outputs, p.value? v = some n := by
  rw [Spec.satisfiedBy_iff, Spec.onEach_single]

/-- What is derived for some outputs is derived for others too, if its value is one of these, and
they are no fewer or its left operands are looked for on behalf of its own values. -/
theorem Derives.of_outputs (h : Derives [v] depth ⟨[outputs]⟩ p)
    (hs : Spec.satisfiedBy ⟨[outputs']⟩ [v] p)
    (hor : (∀ n ∈ outputs, n ∈ outputs') ∨ p.Proposed v) : Derives [v] depth ⟨[outputs']⟩ p := by
  refine .of_operands (Q := fun spec p => ∃ outputs outputs', spec = ⟨[outputs']⟩ ∧
    (∃ d, Derives [v] d ⟨[outputs]⟩ p) ∧ Spec.satisfiedBy ⟨[outputs']⟩ [v] p ∧
    ((∀ n ∈ outputs, n ∈ outputs') ∨ p.Proposed v)) ?_ ?_ h.conforms h.depth_le
    ⟨outputs, outputs', rfl, ⟨depth, h⟩, hs, hor⟩
  · intro spec p h
    obtain ⟨_, _, rfl, _, hs, _⟩ := h
    exact ⟨rfl, hs⟩
  · intro op left right row spec a b h
    obtain ⟨outputs, outputs', rfl, ⟨d, h⟩, hs, hor⟩ := h
    obtain ⟨below, x, ha, hx, hb⟩ := h.operands row
    obtain ⟨x₁, hx₁, hax₁⟩ := Spec.satisfiedBy_single.1 ha.satisfiedBy
    obtain rfl : x₁ = x := Option.some.inj (hax₁.symm.trans hx)
    obtain ⟨y, hy, hby⟩ := Spec.satisfiedBy_single.1 hb.satisfiedBy
    obtain ⟨n, hn, hvalue⟩ := Spec.satisfiedBy_single.1 hs
    have hgives : op.Gives x₁.toInt y.toInt n.toInt := by
      obtain ⟨x', y', hx', hy', hg⟩ := Program.value?_binary.1 hvalue
      obtain rfl : x' = x₁ := Option.some.inj (hx'.symm.trans hx)
      obtain rfl : y' = y := Option.some.inj (hy'.symm.trans hby)
      exact hg
    have hleft : x₁ ∈ left v outputs' := by
      rcases hor with hsub | hprop
      · exact row.left_mono hsub hx₁
      · obtain ⟨_, _, x', y', n', hx', hn', partners, hexact⟩ := hprop.operands
        obtain rfl : x' = x₁ := Option.some.inj (hx'.symm.trans hx)
        obtain rfl : n' = n := Option.some.inj (hn'.symm.trans hvalue)
        exact row.mem_left.2 ⟨y', partners, n', hn, hexact⟩
    have hright : y ∈ right v outputs' x₁ := row.mem_right_of_gives hy hgives hn
    have hvalues : a.valuesOn [v] = some [x₁] :=
      Program.valuesOn_cons.2 ⟨x₁, [], hx, Program.valuesOn_nil.2 rfl, rfl⟩
    refine ⟨[x₁], hvalues,
      ⟨_, _, rfl, ⟨below, ha⟩, Spec.satisfiedBy_single.2 ⟨x₁, hleft, hx⟩, ?_⟩,
      ⟨_, _, rfl, ⟨below, hb⟩, Spec.satisfiedBy_single.2 ⟨y, hright, hby⟩, ?_⟩⟩
    · rcases hor with hsub | hprop
      · exact .inl fun _ => row.left_mono hsub
      · exact .inr hprop.operands.1
    · rcases hor with hsub | hprop
      · exact .inl fun _ => row.right_mono hsub
      · exact .inr hprop.operands.2.1

/-! ### Combinations of outputs -/

theorem Spec.mem_combinations {values : List Value} : values ∈ spec.combinations ↔
    spec.outputs ≠ [] ∧ List.Forall₂ (fun n outputs => n ∈ outputs) values spec.outputs := by
  obtain ⟨outputs⟩ := spec
  cases outputs with
  | nil => simp [combinations, choices]
  | cons first rest =>
    simp only [combinations, List.map_cons, choices, mem_tuples, ne_eq, reduceCtorEq,
      not_false_eq_true, true_and]
    rw [← List.map_cons, List.forall₂_map_right_iff]
    rfl

/-- A combination of outputs has one for each state, and there is a state. -/
theorem Spec.length_of_mem_combinations {values : List Value} (hl : spec.length = states.length)
    (h : values ∈ spec.combinations) : values.length = states.length ∧ states ≠ [] := by
  obtain ⟨hne, hmem⟩ := Spec.mem_combinations.1 h
  refine ⟨hmem.length_eq.trans hl, ?_⟩
  rintro rfl
  exact hne (List.eq_nil_of_length_eq_zero hl)

/-- The values of a program that meets an aligned spec are a combination of accepted ones. -/
theorem Spec.mem_combinations_of_satisfiedBy {values : List Value} (hne : states ≠ [])
    (hl : spec.length = states.length) (hs : spec.satisfiedBy states p)
    (hv : p.valuesOn states = some values) : values ∈ spec.combinations := by
  have hlength : values.length = states.length := Program.length_of_valuesOn hv
  rw [Spec.length] at hl
  refine mem_combinations.2 ⟨?_, List.forall₂_iff_get.2 ⟨by omega, fun i hi ho => ?_⟩⟩
  · exact fun h => hne (List.eq_nil_of_length_eq_zero (by rw [← hl, h]; rfl))
  · have hstate : states[i]? = some states[i] := List.getElem?_eq_getElem (by omega)
    obtain ⟨n, hn, hvalue⟩ := satisfiedBy_iff.1 hs i _ _ hstate (List.getElem?_eq_getElem ho)
    rw [Program.getElem?_of_valuesOn hv hstate, List.getElem?_eq_getElem hi] at hvalue
    cases hvalue
    exact hn

/-- What gives a combination of outputs has these values. -/
theorem Spec.valuesOn_of_exact {values : List Value} (hl : values.length = states.length)
    (hs : (Spec.exact values).satisfiedBy states p) : p.valuesOn states = some values := by
  refine mapM_eq_some_iff_getElem?.2 ⟨hl, fun i v n hv hn => ?_⟩
  obtain ⟨m, hm, hvalue⟩ := satisfiedBy_iff.1 hs i v (.singleton n) hv (by simp [exact, hn])
  rw [SortedSet.mem_singleton] at hm
  rw [hvalue, hm]

/-- What is derived for a combination of accepted outputs is derived for the spec. -/
theorem Derives.of_combination {values : List Value} (hne : states ≠ [])
    (hl : spec.length = states.length) (hc : values ∈ spec.combinations)
    (h : Derives states depth (.exact values) p) : Derives states depth spec p := by
  have hmem := (Spec.mem_combinations.1 hc).2
  refine derives_of_onEach hne hl fun i v outputs hv ho => ?_
  obtain ⟨hi, rfl⟩ := List.getElem?_eq_some_iff.1 ho
  have hlt : i < values.length := by rw [hmem.length_eq]; exact hi
  have hn : values[i] ∈ spec.outputs[i] := hmem.get hlt hi
  have hsub : ∀ n ∈ SortedSet.singleton values[i], n ∈ spec.outputs[i] := by
    intro n h
    rw [SortedSet.mem_singleton] at h
    rwa [h]
  have hd := h.onEach i v (.singleton values[i]) hv (by simp [Spec.exact, hlt])
  obtain ⟨n, hn, hvalue⟩ := Spec.satisfiedBy_single.1 hd.satisfiedBy
  exact hd.of_outputs (Spec.satisfiedBy_single.2 ⟨n, hsub n hn, hvalue⟩) (.inl hsub)

/-- A program whose left operands are looked for on behalf of its own values is derived for these, if
it is derived at all. -/
theorem Derives.to_combination {values : List Value} (hne : states ≠ [])
    (hl : spec.length = states.length) (h : Derives states depth spec p)
    (hv : p.valuesOn states = some values) (hp : ∀ v ∈ states, p.Proposed v) :
    Derives states depth (.exact values) p := by
  have hlength : (Spec.exact values).length = states.length := by
    simp [Spec.exact, Spec.length, Program.length_of_valuesOn hv]
  refine derives_of_onEach hne hlength fun i v outputs hstate ho => ?_
  obtain ⟨n, hn, rfl⟩ : ∃ n, values[i]? = some n ∧ SortedSet.singleton n = outputs := by
    simpa [Spec.exact] using ho
  have hvalue : p.value? v = some n := by rw [Program.getElem?_of_valuesOn hv hstate, hn]
  have hi : i < states.length := (List.getElem?_eq_some_iff.1 hstate).1
  rw [← hl] at hi
  have hd := h.onEach i v _ hstate (List.getElem?_eq_getElem hi)
  refine hd.of_outputs (Spec.satisfiedBy_single.2 ⟨n, by simp, hvalue⟩) (.inr ?_)
  exact hp v (List.mem_of_getElem? hstate)

/-- Without states there is no telling what is wanted, and nothing is learned. -/
theorem Plain.not_contains_of_outputs_eq_nil (hnil : spec.outputs = []) :
    ¬ (Plain.learn states depth .start spec).contains p := by
  have hcommon : ∀ {spec : Spec}, spec.outputs = [] → ∀ k, k ∉ spec.common :=
    fun hnil k hk => (Spec.mem_common.1 hk).1 hnil
  have hfree : ∀ {spec : Spec} left, spec.outputs = [] →
      (Witness.freeSpec left states spec).outputs = [] := by
    intro spec left hnil
    simp [Witness.freeSpec, hnil]
  induction depth generalizing spec p with
  | zero =>
    intro h
    obtain ⟨_, ⟨k, hk, _⟩ | ⟨_, _, hd, _⟩⟩ := Plain.contains_learn_start.1 h
    · exact hcommon hnil k hk
    · omega
  | succ depth ih =>
    intro h
    obtain ⟨_, ⟨k, hk, _⟩ | ⟨_, op, hd, hop⟩⟩ := Plain.contains_learn_start.1 h
    · exact hcommon hnil k hk
    · cases hd
      rcases eq_elementAt_or_inverse op with rfl | ⟨left, right, row⟩
      · obtain ⟨q, _, hq⟩ :=
          (Plain.contains_operator_elementAt fun _ _ => Plain.isEmpty_learn).1 hop
        obtain ⟨k, hk, _⟩ := Plain.contains_learn_constant.1 hq
        exact hcommon (hfree _ hnil) k hk
      · rw [row.of_eq] at hop
        obtain ⟨_, _, _, _, ha, _⟩ := (Plain.contains_operator_binary
          (fun _ _ => Plain.isEmpty_learn) (Plain.applied_learn depth)).1 hop
        exact ih (hfree left hnil) ha

/-- What a program learned for a spec gives on the states is one of its combinations. -/
theorem Plain.mem_combinations_of_contains {values : List Value}
    (hl : spec.length = states.length) (h : (Plain.learn states depth .start spec).contains p)
    (hv : p.valuesOn states = some values) : values ∈ spec.combinations := by
  have hne : states ≠ [] := by
    intro hnil
    refine Plain.not_contains_of_outputs_eq_nil (List.eq_nil_of_length_eq_zero ?_) h
    rw [← Spec.length, hl, hnil]
    rfl
  exact Spec.mem_combinations_of_satisfiedBy hne hl (derives_of_contains_learn h).satisfiedBy hv

/-! ### Clusters of a learned space -/

/-- The clusters of a learned space have the shapes of the parts of what is learned, whether the
search's own clusterer splits it or another that has it at hand. -/
theorem Search.Reachable.clustersOf {s : Search} (hs : s.Reachable states) {space : Graph}
    {c : Clusterer}
    (h : (Search.attempt (Search.learn states depth .start spec) s).1 = .ok space)
    (hc : c = (Search.attempt (Search.learn states depth .start spec) s).2.clusterer ∨
      ∃ gs, Clusterer.Used states gs c ∧ space ∈ gs) :
    ∃ r, ClustersOf states (Plain.learn states depth .start spec) r
      ((space.cluster states).run c).1 := by
  have hserves : Search.Serves states c space := by
    rcases hc with rfl | ⟨gs, hused, hmem⟩
    · exact .learned hs h
    · exact .used hused hmem
  rw [← hs.learn_eq h]
  exact hserves.clustersOf

/-- **A cluster of a learned space belongs to a combination of accepted outputs**: it holds what the
space holds with these values. What a search for the combination alone learns is in it, and the
rest of it are programs that look for a left operand on behalf of another output than their own. -/
theorem cluster_of_combination {s : Search} {space : Graph} {c : Clusterer}
    (hs : s.Reachable states) (hl : spec.length = states.length)
    (h : (Search.attempt (Search.learn states depth .start spec) s).1 = .ok space)
    (hc : c = (Search.attempt (Search.learn states depth .start spec) s).2.clusterer ∨
      ∃ gs, Clusterer.Used states gs c ∧ space ∈ gs) :
    let clusters := ((space.cluster states).run c).1
    (∀ cluster ∈ clusters, cluster.values ∈ spec.combinations ∧ ∀ p,
        cluster.space.contains p ↔ space.contains p ∧ p.valuesOn states = some cluster.values) ∧
      ∀ (values : List Value) (s' : Search) (chosen : Graph), values ∈ spec.combinations →
        s'.Reachable states →
          (Search.attempt (Search.learn states depth .start (.exact values)) s').1 = .ok chosen →
            (∀ p, chosen.contains p → ∃ cluster ∈ clusters, cluster.values = values) ∧
              ∀ cluster ∈ clusters, cluster.values = values → ∀ p,
                (chosen.contains p → cluster.space.contains p) ∧
                  ((∀ v ∈ states, p.Proposed v) →
                    (cluster.space.contains p ↔ chosen.contains p)) := by
  intro clusters
  obtain ⟨r, hclusters⟩ := hs.clustersOf h hc
  obtain ⟨hcontains, hexists⟩ := hclusters.contains (Plain.applied_learn depth _ _)
  have hspace : ∀ p, space.contains p ↔ (Plain.learn states depth .start spec).contains p := by
    intro p
    rw [← Space.contains_shape, hs.learn_eq h]
  constructor
  · intro cluster hmem
    obtain ⟨hempty, hiff⟩ := hcontains cluster hmem
    obtain ⟨p, hp⟩ : ∃ p, cluster.space.contains p := by
      rw [← not_forall_not, ← Space.isEmpty_iff, hempty]
      exact Bool.false_ne_true
    obtain ⟨hlearn, hv⟩ := (hiff p).1 hp
    refine ⟨Plain.mem_combinations_of_contains hl hlearn hv, fun p => ?_⟩
    rw [hspace, hiff]
  · intro values s' chosen hvalues hs' h'
    obtain ⟨hlength, hne⟩ := Spec.length_of_mem_combinations hl hvalues
    have hderives : ∀ p, chosen.contains p ↔ Derives states depth (.exact values) p :=
      contains_iff_derives hs' hne (by simp [Spec.exact, Spec.length, hlength]) h'
    -- What the search for the combination finds, the one for the spec finds too.
    have hfound : ∀ p, chosen.contains p →
        (Plain.learn states depth .start spec).contains p ∧ p.valuesOn states = some values := by
      intro p hp
      have hd := (hderives p).1 hp
      exact ⟨(hd.of_combination hne hl hvalues).contains_learn hne hl,
        Spec.valuesOn_of_exact hlength hd.satisfiedBy⟩
    refine ⟨fun p hp => hexists p values (hfound p hp).1 (hfound p hp).2, ?_⟩
    rintro cluster hmem rfl p
    have hiff := (hcontains cluster hmem).2 p
    have hin : chosen.contains p → cluster.space.contains p := fun hp => hiff.2 (hfound p hp)
    refine ⟨hin, fun hprop => ⟨fun hp => ?_, hin⟩⟩
    obtain ⟨hlearn, hv⟩ := hiff.1 hp
    exact (hderives p).2 ((derives_of_contains_learn hlearn).to_combination hne hl hv hprop)

/-- Five or seven from one and four: the one is looked for as a left operand because four would make
it five, and the six beside it because seven is accepted too. The sum of the two is in the cluster
of seven, but a search for seven alone never looks for the one. -/
theorem cluster_exceeds_combination :
    let states : List Input := [[.ofNat 1, .ofNat 4]]
    let spec : Spec := ⟨[.ofList [.ofNat 5, .ofNat 7]]⟩
    let searched := Search.attempt (Search.learn states 1 .start spec) (.start {})
    let p : Program := .sum (.lit (.ofNat 1)) (.lit (.ofNat 6))
    ∃ space chosen, searched.1 = .ok space ∧
      (Search.attempt (Search.learn states 1 .start (.exact [.ofNat 7])) (.start {})).1 =
        .ok chosen ∧
      ∃ cluster ∈ ((space.cluster states).run searched.2.clusterer).1,
        cluster.values = [.ofNat 7] ∧ cluster.space.contains p ∧ ¬ chosen.contains p := by
  intro states spec searched p
  have hspace : searched.1.toOption.any fun space =>
      ((space.cluster states).run searched.2.clusterer).1.any fun cluster =>
        decide (cluster.values = [.ofNat 7]) && cluster.space.contains p := by
    decide +kernel
  have hchosen : (Search.attempt (Search.learn states 1 .start (.exact [.ofNat 7]))
      (.start {})).1.toOption.any fun chosen => !chosen.contains p := by
    decide +kernel
  obtain ⟨space, hspace, hclusters⟩ := exists_ok_of_any hspace
  obtain ⟨chosen, hchosen, hp⟩ := exists_ok_of_any hchosen
  obtain ⟨cluster, hmem, hcluster⟩ := List.any_eq_true.1 hclusters
  obtain ⟨hvalues, hcontains⟩ := (Bool.and_eq_true _ _).mp hcluster
  exact ⟨space, chosen, hspace, hchosen, cluster, hmem, of_decide_eq_true hvalues, hcontains,
    by simpa using hp⟩

/-- The sum of both elements is five, and so it is in the cluster of five exactly as a search for five
alone finds it. -/
theorem cluster_of_five :
    ∃ space chosen,
      (Search.attempt (Search.learn [[.ofNat 1, .ofNat 4]] 1 .start
        ⟨[.ofList [.ofNat 5, .ofNat 7]]⟩) (.start {})).1 = .ok space ∧
      (Search.attempt (Search.learn [[.ofNat 1, .ofNat 4]] 1 .start (.exact [.ofNat 5]))
        (.start {})).1 = .ok chosen ∧
      ∃ cluster ∈ ((space.cluster [[.ofNat 1, .ofNat 4]]).run
          (Search.attempt (Search.learn [[.ofNat 1, .ofNat 4]] 1 .start
            ⟨[.ofList [.ofNat 5, .ofNat 7]]⟩) (.start {})).2.clusterer).1,
        cluster.values = [.ofNat 5] ∧
          chosen.contains (.sum (.lit (.ofNat 1)) (.lit (.ofNat 4))) ∧
          (cluster.space.contains (.sum (.lit (.ofNat 1)) (.lit (.ofNat 4))) ↔
            chosen.contains (.sum (.lit (.ofNat 1)) (.lit (.ofNat 4)))) := by
  have hspace : (Search.attempt (Search.learn [[.ofNat 1, .ofNat 4]] 1 .start
      ⟨[.ofList [.ofNat 5, .ofNat 7]]⟩) (.start {})).1.toOption.any fun _ => true := by
    decide +kernel
  have hchosen : (Search.attempt (Search.learn [[.ofNat 1, .ofNat 4]] 1 .start (.exact [.ofNat 5]))
      (.start {})).1.toOption.any
        (·.contains (.sum (.lit (.ofNat 1)) (.lit (.ofNat 4)))) := by
    decide +kernel
  obtain ⟨space, hspace, _⟩ := exists_ok_of_any hspace
  obtain ⟨chosen, hchosen, hp⟩ := exists_ok_of_any hchosen
  have hproposed : ∀ v ∈ [[.ofNat 1, .ofNat 4]],
      (Program.sum (.lit (.ofNat 1)) (.lit (.ofNat 4))).Proposed v := by
    refine List.forall_mem_singleton.2 ?_
    exact .binary .sum (.lit _) (.lit _) Program.value?_lit (n := .ofNat 5) (by decide)
      (y := .ofNat 4) ⟨0, 1, by decide, rfl, rfl⟩ rfl
  have hall := (cluster_of_combination (.start {}) rfl hspace (.inl rfl)).2
  obtain ⟨hexists, hclusters⟩ := hall [.ofNat 5] (.start {}) chosen (by decide) (.start {}) hchosen
  obtain ⟨cluster, hmem, hvalues⟩ := hexists _ hp
  exact ⟨space, chosen, hspace, hchosen, cluster, hmem, hvalues, hp,
    (hclusters cluster hmem hvalues _).2 hproposed⟩

end

end ArithLearn
