/-
The best programs of a learned space, and of any other that is made so.

`Extractable` is what the argument needs of a graph: its labels tell nodes
apart, it is `Rankable`, and it is no bare list. All learned spaces are so
(`extractable_versionSpace`): joins are made over operands that were
learned or split off, and for the position of an element that is a list of
literals. `RanksExactly` is what follows (`topK_exact`).
-/
import ArithLearn.Proofs.Ranking.Exact
import ArithLearn.Proofs.Search.Contents

namespace ArithLearn

namespace Space

variable {ι : Type}

@[simp] theorem isLeaf_shape (s : Space ι) : s.shape.isLeaf = s.isLeaf := by
  cases s <;> simp [isLeaf]

/-- The labels have no part in it. -/
theorem Rankable.of_shape {s : Space ι} (h : s.shape.Rankable) : s.Rankable := by
  induction s using Space.induction with
  | leaf l ps =>
    rw [shape_leaf] at h
    cases h with
    | leaf terminal => exact .leaf terminal
  | union l ms ih =>
    rw [shape_union] at h
    cases h with
    | union members => exact .union fun m hm => ih m hm (members _ (List.mem_map.2 ⟨m, hm, rfl⟩))
  | join l op cs ih =>
    rw [shape_join] at h
    cases cs with
    | nil => cases h
    | cons c cs =>
      cases h with
      | join children position =>
        refine .join (fun s hs => ih s hs (children _ (List.mem_map.2 ⟨s, hs, rfl⟩))) ?_
        intro hop s hs
        have hmap : s.shape ∈ (cs.map shape).head? := by
          rw [List.head?_map]
          exact Option.mem_map_of_mem shape hs
        simpa using position hop _ hmap

theorem Rankable.unionOf {l : ι} {members : List (Member ι)}
    (h : ∀ m ∈ members, m.space.Rankable) : (unionOf l members).Rankable := by
  refine unionOf_cases (motive := Rankable) ?_ ?_
  · intro kept hk _
    refine .union fun s hs => ?_
    obtain ⟨m, hm, rfl⟩ := hk s hs
    exact h m hm
  · intro m hm _ _
    exact h m hm

theorem Rankable.joinOf {l : ι} {op : Op} {c : Space ι} {cs : List (Space ι)}
    (h : ∀ s ∈ c :: cs, s.Rankable) (hpos : op = .elementAt → ∀ s ∈ cs.head?, s.isLeaf) :
    (joinOf l op (c :: cs)).Rankable := by
  unfold Space.joinOf
  split
  · exact .union (by simp)
  · exact .join h hpos

theorem isLeaf_joinOf {l : ι} {op : Op} {cs : List (Space ι)} :
    (Space.joinOf l op cs).isLeaf = false := by
  unfold Space.joinOf
  split <;> rfl

theorem rankable_inputLeaf {l : ι} : (inputLeaf l).Rankable :=
  .leaf fun _ hp => .inl (SortedSet.mem_singleton.1 hp)

end Space

/-! ### Parts -/

section Parts

variable {states : List Input}

theorem isLeaf_of_mem_parts {s : Space Unit} (hs : s.isLeaf) {c : Part}
    (hc : c ∈ s.parts states) : c.2.isLeaf := by
  cases s with
  | leaf l ps =>
    obtain ⟨values, _, rfl⟩ := List.mem_map.1 hc
    rfl
  | union l ms => cases hs
  | join l op cs => cases hs

theorem rankable_of_mem_unite {shared : Bool} {parts : List Part} {c : Part}
    (h : ∀ d ∈ parts, d.2.Rankable) (hc : c ∈ Part.unite shared parts) : c.2.Rankable := by
  obtain ⟨members, heq, hmem⟩ := exists_of_mem_unite hc
  rw [heq]
  exact .unionOf fun m hm => h _ (hmem m hm)

/-- Parts can be ranked as their space can. -/
theorem rankable_of_mem_parts {s : Space Unit} (hs : s.Rankable) {c : Part}
    (hc : c ∈ s.parts states) : c.2.Rankable := by
  induction hs generalizing c with
  | leaf terminal =>
    obtain ⟨values, _, rfl⟩ := List.mem_map.1 hc
    exact .leaf fun p hp => terminal p (SortedSet.mem_filter.1 hp).1
  | union _ ih =>
    rw [Space.parts, Space.partsAll_eq] at hc
    refine rankable_of_mem_unite (fun d hd => ?_) hc
    obtain ⟨cs, hcs, hd⟩ := List.mem_flatten.1 hd
    obtain ⟨m, hm, rfl⟩ := List.mem_map.1 hcs
    exact ih m hm hd
  | @join l op input params children position ih =>
    rw [Space.parts, Space.partsAll_eq] at hc
    refine rankable_of_mem_unite (fun d hd => ?_) hc
    obtain ⟨combo, hcombo, hd⟩ := List.mem_filterMap.1 hd
    obtain ⟨values, _, rfl⟩ := Option.map_eq_some_iff.1 hd
    have hparts := List.forall₂_map_right_iff.1 (forall₂_of_mem_choices hcombo)
    refine .join (List.forall_mem_cons.2 ⟨children input (by simp), fun s hs => ?_⟩) ?_
    · obtain ⟨d, hd, rfl⟩ := List.mem_map.1 hs
      obtain ⟨t, ht, hd⟩ := exists_of_forall₂ hparts hd
      exact ih t (by simp [ht]) hd
    · intro hop s hs
      cases hparts with
      | nil => simp at hs
      | @cons d t combo params hdt _ =>
        have hleaf : t.isLeaf := position hop t rfl
        obtain rfl : d.2 = s := by simpa using hs
        exact isLeaf_of_mem_parts hleaf hdt

end Parts

/-! ### Learned spaces -/

namespace Plain

variable {states : List Input} {lower : Symbol → Spec → Space Unit}

theorem rankable_literals {spec : Spec} : (literals spec).Rankable := by
  refine .leaf fun p hp => .inr ?_
  obtain ⟨n, _, rfl⟩ := SortedSet.mem_image.1 hp
  exact ⟨n, rfl⟩

/-- The joins found for an operator can be ranked: where an element is read, only literals were
searched for its position. -/
theorem rankable_params {op : Op} {spec : Spec} (hl : ∀ symbol spec, (lower symbol spec).Rankable)
    (hconstant : ∀ spec, ¬ spec.isUnsatisfiable → (lower .constant spec).isLeaf) {s : Space Unit}
    (h : s ∈ params states lower (.of op) spec (Operator.of op).searched [.inputLeaf ()] []) :
    s.Rankable := by
  obtain ⟨operands, rfl, hall⟩ := exists_of_mem_params h
  refine .joinOf (List.forall_mem_cons.2 ⟨Space.rankable_inputLeaf, fun c hc => ?_⟩) ?_
  · obtain ⟨_, _, spec, _, rfl | ⟨part, hpart, rfl⟩⟩ := exists_of_forall₂ hall.flip hc
    · exact hl _ _
    · exact rankable_of_mem_parts (hl _ _) hpart
  · intro hop c hc
    obtain rfl : op = .elementAt := (op_of op).symm.trans hop
    obtain ⟨t, _, ht, hnil, rfl⟩ := List.forall₂_cons_left_iff.1 hall
    cases hnil
    obtain rfl : t = c := by simpa using hc
    obtain ⟨spec, hu, rfl | ⟨part, hpart, rfl⟩⟩ := ht
    · exact hconstant spec hu
    · exact isLeaf_of_mem_parts (hconstant spec hu) hpart

theorem rankable_level {operators? : Option (Op → Spec → Space Unit)} {symbol : Symbol}
    {spec : Spec}
    (ho : ∀ operators, operators? = some operators → ∀ op, (operators op spec).Rankable) :
    (level operators? symbol spec).Rankable := by
  unfold level
  split
  · exact .union (by simp)
  cases symbol with
  | input => exact .union (by simp)
  | constant => exact rankable_literals
  | start =>
    refine .unionOf fun m hm => ?_
    rcases mem_members.1 hm with rfl | ⟨op, operators, h, rfl⟩
    · exact rankable_literals
    · exact ho operators h op

theorem rankable_learn (depth : Nat) (symbol : Symbol) (spec : Spec) :
    (learn states depth symbol spec).Rankable := by
  induction depth generalizing symbol spec with
  | zero => exact rankable_level (by simp)
  | succ depth ih =>
    refine rankable_level fun operators h op => ?_
    cases h
    have hconstant : ∀ spec, ¬ spec.isUnsatisfiable →
        (learn states depth .constant spec).isLeaf := by
      intro spec hu
      rw [learn_constant hu]
      rfl
    refine .unionOf fun m hm => ?_
    obtain ⟨s, hs, rfl⟩ := List.mem_map.1 hm
    exact rankable_params ih hconstant hs

/-- A union that takes the place of a lone member takes that of an operator only, never that of the
literals. -/
theorem isLeaf_learn_start (depth : Nat) (spec : Spec) :
    (learn states depth .start spec).isLeaf = false := by
  have hlevel : ∀ operators? : Option (Op → Spec → Space Unit),
      (∀ operators, operators? = some operators → ∀ op, (operators op spec).isLeaf = false) →
      (level operators? .start spec).isLeaf = false := by
    intro operators? ho
    unfold level
    split
    · rfl
    refine Space.unionOf_cases (motive := fun s => s.isLeaf = false) (fun _ _ _ => rfl) ?_
    intro m hm hshared _
    rcases mem_members.1 hm with rfl | ⟨op, operators, h, rfl⟩
    · cases hshared
    · exact ho operators h op
  cases depth with
  | zero => exact hlevel none (by simp)
  | succ depth =>
    refine hlevel _ fun operators h op => ?_
    cases h
    refine Space.unionOf_cases (motive := fun s => s.isLeaf = false) (fun _ _ _ => rfl) ?_
    intro m hm _ _
    obtain ⟨s, hs, rfl⟩ := List.mem_map.1 hm
    obtain ⟨operands, rfl, _⟩ := exists_of_mem_params hs
    exact Space.isLeaf_joinOf

end Plain

/-! ### Best programs -/

namespace Space

/-- The best programs of the graph can be found with rankings cut down at each node. -/
structure Extractable (g : Graph) : Prop where
  coherent : Coherent [g]
  rankable : g.Rankable
  notLeaf : g.isLeaf = false

/-- Scored in natural numbers, the `k` best programs of the graph are what the ranking of all its
programs begins with. -/
structure RanksExactly (g : Graph) : Prop where
  /-- Wanting fewer gives the first of those that wanting more gives. -/
  take : ∀ k K, 1 ≤ k → k ≤ K → (g.topK k : List (Ranked Nat)) = (g.topK K).take k
  /-- Who wants all gets all, each once. -/
  nodup : ∀ K, 1 ≤ K → g.enumerate.length ≤ K →
    ((g.topK K : List (Ranked Nat)).map (·.program)).Nodup
  mem : ∀ K, 1 ≤ K → g.enumerate.length ≤ K →
    ∀ p, p ∈ (g.topK K : List (Ranked Nat)).map (·.program) ↔ g.contains p
  sorted : ∀ K, 1 ≤ K → (g.topK K : List (Ranked Nat)).Pairwise fun a b => b.score ≤ a.score
  score : ∀ K, 1 ≤ K → ∀ r ∈ (g.topK K : List (Ranked Nat)), r.score = r.program.score
  /-- What is not returned scores no higher than anything that is. -/
  rest : ∀ k, 1 ≤ k → ∀ r ∈ (g.topK k : List (Ranked Nat)), ∀ p, g.contains p →
    p ∉ (g.topK k : List (Ranked Nat)).map (·.program) → p.score ≤ r.score

/-- What is not a list is ranked by a last pick. -/
theorem exists_rankWith_eq {σ : Type} [Score σ] (pick : List (Ranked σ) → List (Ranked σ))
    {s : Space ι} (h : s.isLeaf = false) : ∃ entries, s.rankWith pick = pick entries := by
  cases s with
  | leaf l ps => cases h
  | union l ms => exact ⟨_, rankWith_union⟩
  | join l op cs => exact ⟨_, rankWith_join⟩

theorem Extractable.ranksExactly {g : Graph} (hg : g.Extractable) : g.RanksExactly := by
  obtain ⟨entries, hentries⟩ := exists_rankWith_eq (bestAll (σ := Nat)) hg.notLeaf
  have htop : ∀ k, 1 ≤ k → (g.topK k : List (Ranked Nat)) = (bestAll entries).take k := by
    intro k hk
    rw [topK_eq hg.coherent hk, hg.rankable.rankWith_best hg.notLeaf, hentries]
  have hmem : ∀ r ∈ bestAll entries, g.contains r.program ∧ r = r.program.ranked := by
    intro r hr
    rw [← hentries] at hr
    exact mem_rankWith (fun _ _ h => mem_of_mem_bestAll h) hr
  have hex : ∀ p, g.contains p → ∃ r ∈ bestAll entries, r.program = p := by
    intro p hp
    rw [← hentries]
    exact exists_mem_rankWith (fun _ _ h => exists_mem_bestAll h) hg.rankable.proper hp
  have hnodup := nodup_bestAll entries
  have hsorted : (bestAll entries).Pairwise fun a b => b.score ≤ a.score :=
    (pairwise_bestAll entries).imp precedes_iff_le.1
  have hall : ∀ K, g.enumerate.length ≤ K → (bestAll entries).take K = bestAll entries := by
    intro K hK
    have hsub : (bestAll entries).map (·.program) ⊆ g.enumerate := by
      intro p hp
      obtain ⟨r, hr, rfl⟩ := List.mem_map.1 hp
      exact (mem_enumerate hg.rankable.proper).2 (hmem r hr).1
    have hlen := (hnodup.subperm hsub).length_le
    rw [List.length_map] at hlen
    exact List.take_of_length_le (Nat.le_trans hlen hK)
  refine ⟨fun k K hk hkK => ?_, fun K hK hlen => ?_, fun K hK hlen p => ?_, fun K hK => ?_,
    fun K hK r hr => ?_, fun k hk r hr p hp hnot => ?_⟩
  · rw [htop k hk, htop K (Nat.le_trans hk hkK), List.take_take, Nat.min_eq_left hkK]
  · rw [htop K hK, hall K hlen]
    exact hnodup
  · rw [htop K hK, hall K hlen, List.mem_map]
    constructor
    · intro h
      obtain ⟨r, hr, rfl⟩ := h
      exact (hmem r hr).1
    · exact hex p
  · rw [htop K hK]
    exact hsorted.sublist (List.take_sublist _ _)
  · rw [htop K hK] at hr
    exact congrArg Ranked.score (hmem r (List.mem_of_mem_take hr)).2
  · rw [htop k hk] at hr hnot
    obtain ⟨q, hq, rfl⟩ := hex p hp
    rw [← List.take_append_drop k (bestAll entries)] at hq hsorted
    have hq : q ∈ (bestAll entries).drop k := (List.mem_append.1 hq).resolve_left fun h =>
      hnot (List.mem_map.2 ⟨q, h, rfl⟩)
    have hle : q.score ≤ r.score := (List.pairwise_append.1 hsorted).2.2 r hr q hq
    rwa [(hmem q (List.mem_of_mem_drop hq)).2] at hle

end Space

theorem extractable_versionSpace {examples : List Example} {config : Config} {clock : Clock}
    {space : Graph} (h : versionSpace examples config clock = .ok space) : space.Extractable := by
  obtain ⟨_, r, held, shape⟩ := found_versionSpace h
  refine ⟨coherent_of_holds (List.forall_mem_singleton.2 held), ?_, ?_⟩
  · refine Space.Rankable.of_shape ?_
    rw [shape]
    exact Plain.rankable_learn _ _ _
  · rw [← Space.isLeaf_shape, shape]
    exact Plain.isLeaf_learn_start _ _

namespace Space

/-- **The best programs of a space are found exactly**, although each node keeps no more than are
wanted; and so are those of all learned spaces. -/
theorem topK_exact :
    (∀ (examples : List Example) (config : Config) (clock : Clock) (space : Graph),
      versionSpace examples config clock = .ok space → space.Extractable) ∧
    ∀ g : Graph, g.Extractable → g.RanksExactly :=
  ⟨fun _ _ _ _ h => extractable_versionSpace h, fun _ h => h.ranksExactly⟩

/-- Of the nine programs that make 5 of the elements 2 and 3, the best two are what all nine begin
with. -/
theorem topK_exact_five : ∃ space : Graph,
    versionSpace [{ input := [.ofNat 2, .ofNat 3], output := .ofNat 5 }]
      { limits := { maxDepth := 2 } } = .ok space ∧
    space.enumerate.length = 9 ∧ space.RanksExactly ∧
    (space.topK 2 : List (Ranked Nat)) = (space.topK 9).take 2 := by
  have hcount : (versionSpace [{ input := [.ofNat 2, .ofNat 3], output := .ofNat 5 }]
      { limits := { maxDepth := 2 } }).toOption.any fun space =>
        decide (space.enumerate.length = 9) := by
    decide +kernel
  obtain ⟨space, hspace, hcount⟩ := exists_ok_of_any hcount
  have hexact := topK_exact.2 space (topK_exact.1 _ _ _ space hspace)
  exact ⟨space, hspace, of_decide_eq_true hcount, hexact, hexact.take 2 9 (by omega) (by omega)⟩

end Space

end ArithLearn
