/-
Labels that nothing refers to.

A label that is in use may stand for a node that neither a search nor its
clusterer keeps, as itself or as a part of something else. It is `Loose`
then, and it stays so while the search goes on, also if that fails. For a
search gets at a node because it is remembered, because a cluster that is
known has it as a part, or because it has just made it, with a label of its
own. So nothing that is learned has the label (`loose_learn`).
-/
import ArithLearn.Proofs.Search.Plain
import ArithLearn.Proofs.Space.Sharing

namespace ArithLearn

open Space

/-! ### Places in what is made -/

namespace Space

variable {ι : Type} {l label : ι} {op : Op} {cs : List (Space ι)}

theorem not_mem_places {s : Space ι} (h : l ≠ s.label) (hcs : ∀ c ∈ s.children, l ∉ c.places) :
    l ∉ s.places := by
  rw [mem_places]
  rintro (heq | ⟨c, hc, hl⟩)
  · exact h heq
  · exact hcs c hc hl

theorem not_mem_places_unionOf {members : List (Member ι)} (h : l ≠ label)
    (hms : ∀ m ∈ members, l ∉ m.space.places) : l ∉ (unionOf label members).places := by
  refine unionOf_cases (motive := fun s => l ∉ s.places) ?_ fun m hm _ _ => hms m hm
  intro kept hkept _
  refine not_mem_places h fun s hs => ?_
  obtain ⟨m, hm, rfl⟩ := hkept s hs
  exact hms m hm

theorem not_mem_places_joinOf (h : l ≠ label) (hcs : ∀ c ∈ cs, l ∉ c.places) :
    l ∉ (joinOf label op cs).places := by
  unfold joinOf
  split
  · exact not_mem_places h (by simp [children])
  · exact not_mem_places h hcs

theorem label_joinOf : (joinOf label op cs).label = label := by
  unfold joinOf
  split <;> rfl

end Space

/-! ### Labels that no cluster refers to -/

namespace Clusterer

variable {states : List Input} {r : Registry} {l : Nat}

/-- The label is in use, but nothing known refers to it. -/
def Loose (l : Nat) (c : Clusterer) : Prop := l < c.next ∧ ¬ c.Refers l

theorem loose_fresh : Yields (fun _ => Loose l) r fresh fun _ label => l ≠ label := by
  refine fun c hc => ⟨r, r.le_refl, ⟨Nat.lt_succ_of_lt hc.1, hc.2⟩, fun label heq => ?_⟩
  cases heq
  exact Nat.ne_of_lt hc.1

theorem loose_once {label : Nat} {compute : StateM Clusterer (List Cluster)} (hne : l ≠ label)
    (h : ∀ r', Yields (fun _ => Loose l) r' compute fun _ cs => ∀ c ∈ cs, l ∉ c.space.places) :
    Yields (fun _ => Loose l) r (once label compute) fun _ cs => ∀ c ∈ cs, l ∉ c.space.places := by
  unfold once
  refine .bind .get fun r' c _ hc => ?_
  obtain ⟨rfl, hc⟩ := hc
  cases hk : c.known[label]? with
  | some cs => exact .pure fun d hd hl => hc.2 ⟨label, cs, hk, .inr ⟨d, hd, hl⟩⟩
  | none =>
    refine .bind (h r') fun r₁ cs _ hcs => .bind (.modify fun c hc => ⟨hc.1, ?_⟩) fun _ _ _ _ => .pure hcs
    -- Neither what was known refers to the label nor what is known from now on.
    rintro ⟨label', cs', hk', hpart⟩
    refine forall_getElem?_insert (P := fun label cs => ¬ (label = l ∨ ∃ d ∈ cs, l ∈ d.space.places))
      (fun label cs hk hpart => hc.2 ⟨label, cs, hk, hpart⟩) ?_ label' cs' hk' hpart
    rintro (rfl | ⟨d, hd, hl⟩)
    · exact hne rfl
    · exact hcs d hd hl

theorem loose_unite {shared : Bool} {cs : List Cluster} (h : ∀ c ∈ cs, l ∉ c.space.places) :
    Yields (fun _ => Loose l) r (unite shared cs) fun _ cs => ∀ c ∈ cs, l ∉ c.space.places := by
  unfold unite
  refine .bind (.mapM_forall (Q := fun c : Cluster => l ∉ c.space.places) fun group hgroup r' => ?_)
    fun _ made _ hmade => .pure fun c hc => hmade c (List.mem_filter.1 hc).1
  obtain ⟨values, spaces⟩ := group
  refine .bind loose_fresh fun _ label _ hne => .pure (not_mem_places_unionOf hne fun m hm => ?_)
  obtain ⟨s, hs, rfl⟩ := List.mem_map.1 hm
  obtain ⟨c, hc, heq⟩ := List.mem_map.1 ((mem_of_mem_groupByKey hgroup).1 hs)
  cases heq
  exact h c hc

theorem loose_splitLeaf {ps : SortedSet Program} :
    Yields (fun _ => Loose l) r (splitLeaf states ps) fun _ cs => ∀ c ∈ cs, l ∉ c.space.places :=
  .mapM_forall fun _ _ _ => .bind loose_fresh fun _ _ _ hne => .pure (not_mem_places hne (by simp [children]))

theorem loose_assemble {op : Op} {input : Graph} {args : List Cluster} (hi : l ∉ input.places)
    (h : ∀ c ∈ args, l ∉ c.space.places) :
    Yields (fun _ => Loose l) r (assemble states op input args)
      fun _ o => ∀ c ∈ o, l ∉ c.space.places := by
  unfold assemble
  cases op.valuesOn states (args.map (·.values)) with
  | none => exact .pure (by simp)
  | some values =>
    refine .bind loose_fresh fun _ label _ hne => .pure fun c hc => ?_
    cases hc
    refine not_mem_places hne (List.forall_mem_cons.2 ⟨hi, fun s hs => ?_⟩)
    obtain ⟨d, hd, rfl⟩ := List.mem_map.1 hs
    exact h d hd

/-- A clusterer that is given a graph without the label finds clusters without it. -/
theorem loose_cluster {g : Graph} (hg : l ∉ g.places) :
    Yields (fun _ => Loose l) r (g.cluster states) fun _ cs => ∀ c ∈ cs, l ∉ c.space.places := by
  induction g using Space.induction generalizing r with
  | leaf label ps =>
    rw [cluster]
    exact loose_once (fun heq => hg (mem_places.2 (.inl heq))) fun _ => loose_splitLeaf
  | union label ms ih =>
    have hms : ∀ m ∈ ms, l ∉ m.places := fun m hm hl => hg (mem_places.2 (.inr ⟨m, hm, hl⟩))
    rw [cluster, clusterAll_eq]
    refine loose_once (fun heq => hg (mem_places.2 (.inl heq))) fun r' =>
      .bind (.mapM_forall fun m hm _ => ih m hm (hms m hm)) fun _ css _ hcss => loose_unite ?_
    exact fun c hc => by
      obtain ⟨cs, hcs, hc⟩ := List.mem_flatten.1 hc
      exact hcss cs hcs c hc
  | join label op cs ih =>
    have hcs : ∀ c ∈ cs, l ∉ c.places := fun c hc hl => hg (mem_places.2 (.inr ⟨c, hc, hl⟩))
    have hne : l ≠ label := fun heq => hg (mem_places.2 (.inl heq))
    cases cs with
    | nil =>
      rw [cluster]
      exact loose_once hne fun _ => .pure (by simp)
    | cons input params =>
      obtain ⟨hinput, hparams⟩ := List.forall_mem_cons.1 hcs
      rw [cluster, clusterAll_eq]
      refine loose_once hne fun r' => .bind (.mapM_forall fun p hp _ =>
        ih p (List.mem_cons_of_mem _ hp) (hparams p hp)) fun _ css _ hcss => ?_
      refine .bind (.mapM_forall fun combo hcombo _ => loose_assemble hinput fun c hc => ?_)
        fun _ os _ hos => loose_unite fun c hc => ?_
      · obtain ⟨cs, hmem, hc⟩ := mem_of_mem_choices hcombo hc
        exact hcss cs hmem c hc
      · obtain ⟨o, ho, heq⟩ := List.mem_filterMap.1 hc
        exact hos o ho c heq

end Clusterer

/-! ### Labels that a search does not refer to -/

namespace Search

variable {states : List Input} {r : Registry} {l : Nat}

/-- Something that is remembered, or a cluster that is known, is the node or has it as a part. -/
def Refers (s : Search) (l : Nat) : Prop :=
  (∃ e ∈ s.known.entries, l ∈ e.2.places) ∨ s.clusterer.Refers l

/-- The label is in use, but nothing that the search keeps refers to it. -/
def Loose (l : Nat) (s : Search) : Prop := l < s.clusterer.next ∧ ¬ s.Refers l

/-- Nothing refers to a label before it is in use. -/
theorem Fits.lt_of_refers {s : Search} (hs : s.Fits states r) (h : s.Refers l) :
    l < s.clusterer.next := by
  rcases h with ⟨e, he, hl⟩ | h
  · rw [hs.clusterer.next]
    exact (hs.known e he).1.lt_of_mem_places hl
  · exact hs.clusterer.lt_of_refers h

theorem loose_get : Yields (fun _ => Loose l) r (get : SearchM Search) fun _ s => Loose l s :=
  fun s hs => ⟨r, r.le_refl, hs, fun t ht => by cases ht; exact hs⟩

theorem loose_modify {f : Search → Search} (h : ∀ s, Loose l s → Loose l (f s)) :
    Yields (fun _ => Loose l) r (modify f : SearchM Unit) fun _ _ => True :=
  fun s hs => ⟨r, r.le_refl, h s hs, fun _ _ => trivial⟩

theorem loose_tick : Yields (fun _ => Loose l) r tick fun _ _ => True := by
  refine .bind (loose_modify fun _ hs => hs) fun r' _ _ _ => ?_
  refine .bind loose_get fun r'' s _ _ => ?_
  split
  · exact fun s hs => ⟨r'', r''.le_refl, hs, fun _ ha => by cases ha⟩
  · exact .pure trivial

theorem loose_clustering {α : Type} {step : StateM Clusterer α} {post : Registry → α → Prop}
    (h : Yields (fun _ => Clusterer.Loose l) r step post) :
    Yields (fun _ => Loose l) r (clustering step) post := by
  intro s hs
  obtain ⟨r', hr, hc, ha⟩ := h s.clusterer ⟨hs.1, fun href => hs.2 (.inr href)⟩
  refine ⟨r', hr, ⟨hc.1, ?_⟩, ha⟩
  rintro (hknown | href)
  · exact hs.2 (.inl hknown)
  · exact hc.2 href

theorem loose_fresh : Yields (fun _ => Loose l) r fresh fun _ label => l ≠ label :=
  loose_clustering Clusterer.loose_fresh

theorem loose_make {make : Nat → Graph} (h : ∀ label, l ≠ label → l ∉ (make label).places) :
    Yields (fun _ => Loose l) r (do pure (make (← fresh))) fun _ g => l ∉ g.places :=
  .bind loose_fresh fun _ label _ hne => .pure (h label hne)

theorem loose_literals {spec : Spec} :
    Yields (fun _ => Loose l) r (literals spec) fun _ g => l ∉ g.places :=
  loose_make fun _ hne => not_mem_places hne (by simp [children])

/-- What is remembered does not have the label, and no more has what is built. -/
theorem loose_remembered (goal : Goal) {build : SearchM Graph}
    (hb : ∀ r', Yields (fun _ => Loose l) r' build fun _ g => l ∉ g.places) :
    Yields (fun _ => Loose l) r (remembered goal build) fun _ g => l ∉ g.places := by
  unfold remembered
  split
  · exact loose_make fun _ hne => not_mem_places hne (by simp [children])
  refine .bind loose_get fun r₁ s _ hs => ?_
  split
  · rename_i g hg
    refine .bind (loose_modify fun t ht => ⟨ht.1, ?_⟩) fun _ _ _ _ => .pure fun hl => ?_
    · rintro (⟨e, he, hl⟩ | href)
      · exact ht.2 (.inl ⟨e, Recent.mem_entries_of_mem_touch he, hl⟩)
      · exact ht.2 (.inr href)
    · exact hs.2 (.inl ⟨_, Recent.mem_entries_of_get? hg, hl⟩)
  · refine .bind loose_tick fun r₂ _ _ _ => .bind (hb r₂) fun r₃ g _ hg => ?_
    refine .bind (loose_modify fun t ht => ⟨ht.1, ?_⟩) fun _ _ _ _ => .pure hg
    rintro (⟨e, he, hl⟩ | href)
    · rcases Recent.mem_entries_of_mem_insert he with rfl | he
      · exact hg hl
      · exact ht.2 (.inl ⟨e, he, hl⟩)
    · exact ht.2 (.inr href)

section

variable {lower : Symbol → Spec → SearchM Graph}

theorem loose_params {o : Operator} {spec : Spec}
    (hl : ∀ r symbol spec, Yields (fun _ => Loose l) r (lower symbol spec) fun _ g => l ∉ g.places)
    {searched : List (Nat × Symbol × Witness)} (children : List Graph)
    (chosen : List (Nat × List Value)) (hc : ∀ c ∈ children, l ∉ c.places) :
    Yields (fun _ => Loose l) r (params states lower o spec searched children chosen)
      fun _ gs => ∀ g ∈ gs, l ∉ g.places := by
  induction searched generalizing r children chosen with
  | nil =>
    exact .bind loose_fresh fun _ label _ hne =>
      .pure (List.forall_mem_singleton.2 (not_mem_places_joinOf hne hc))
  | cons param rest ih =>
    obtain ⟨i, symbol, w⟩ := param
    unfold params
    split
    · exact .pure (by simp)
    split
    · exact .pure (by simp)
    refine .bind (hl r symbol _) fun r₁ space _ hspace => ?_
    split
    · exact .pure (by simp)
    have hnext : ∀ c : Graph, l ∉ c.places → ∀ d ∈ children ++ [c], l ∉ d.places :=
      fun c h => List.forall_mem_append.2 ⟨hc, List.forall_mem_singleton.2 h⟩
    split
    · refine .bind (loose_clustering (Clusterer.loose_cluster hspace)) fun _ cs _ hcs => ?_
      refine .bind (.mapM_forall (Q := fun gs => ∀ g ∈ gs, l ∉ g.places) fun c hmem _ =>
        .bind loose_tick fun _ _ _ _ => ih _ _ (hnext c.space (hcs c hmem))) fun _ gss _ hgss => ?_
      refine .pure fun g hg => ?_
      obtain ⟨gs, hgs, hg⟩ := List.mem_flatten.1 hg
      exact hgss gs hgs g hg
    · exact ih _ _ (hnext space hspace)

theorem loose_operator {o : Operator} {spec : Spec}
    (hl : ∀ r symbol spec, Yields (fun _ => Loose l) r (lower symbol spec) fun _ g => l ∉ g.places) :
    Yields (fun _ => Loose l) r (operator states lower o spec) fun _ g => l ∉ g.places := by
  refine .bind loose_fresh fun _ label _ hne => ?_
  refine .bind (loose_params hl [.inputLeaf label] [] (List.forall_mem_singleton.2
    (not_mem_places hne (by simp [inputLeaf, children])))) fun r₂ joins _ hjoins => ?_
  have union : ∀ r₃, Yields (fun _ => Loose l) r₃
      (do pure (.unionOf (← fresh) (joins.map (⟨·, false⟩))) : SearchM Graph)
        fun _ g => l ∉ g.places := by
    refine fun r₃ => loose_make fun label' hne' => not_mem_places_unionOf hne' fun m hm => ?_
    obtain ⟨g, hg, rfl⟩ := List.mem_map.1 hm
    exact hjoins g hg
  split
  · exact .bind (loose_modify fun _ hs => hs) fun _ _ _ _ => union _
  · exact union _

/-- The operators that may be applied at a depth. -/
def operators? (states : List Input) : Nat → Option (Op → Spec → SearchM Graph)
  | 0 => none
  | depth + 1 => some fun op => operator states (learn states depth) (.of op)

/-- A search that is given a goal unites what these operators contribute to it. -/
theorem learn_eq_level (depth : Nat) (symbol : Symbol) (spec : Spec) :
    learn states depth symbol spec = level (operators? states depth) ⟨symbol, depth, spec⟩ := by
  cases depth <;> rfl

theorem loose_contribution {operators? : Option (Op → Spec → SearchM Graph)} {goal : Goal}
    (ho : ∀ operators ∈ operators?, ∀ r op spec,
      Yields (fun _ => Loose l) r (operators op spec) fun _ g => l ∉ g.places)
    (production : Production) :
    Yields (fun _ => Loose l) r (contribution operators? goal production)
      fun _ ms => ∀ m ∈ ms, l ∉ m.space.places := by
  unfold contribution
  cases production with
  | literal =>
    exact .bind (loose_remembered _ fun _ => loose_literals) fun _ _ _ hg =>
      .pure (List.forall_mem_singleton.2 hg)
  | op op =>
    cases operators? with
    | none => exact .pure (by simp)
    | some operators =>
      exact .bind (ho operators rfl _ _ _) fun _ _ _ hg => .pure (List.forall_mem_singleton.2 hg)

theorem loose_level {operators? : Option (Op → Spec → SearchM Graph)} (goal : Goal)
    (ho : ∀ operators ∈ operators?, ∀ r op spec,
      Yields (fun _ => Loose l) r (operators op spec) fun _ g => l ∉ g.places) :
    Yields (fun _ => Loose l) r (level operators? goal) fun _ g => l ∉ g.places := by
  refine loose_remembered goal fun r' => ?_
  split
  · exact loose_make fun _ hne => not_mem_places hne (by simp [children])
  · exact loose_literals
  refine .bind (.mapM_forall (Q := fun ms : List (Member Nat) => ∀ m ∈ ms, l ∉ m.space.places)
    fun production _ _ => loose_contribution ho production) fun _ mss _ hmss => ?_
  refine loose_make fun _ hne => not_mem_places_unionOf hne fun m hm => ?_
  obtain ⟨ms, hms, hm⟩ := List.mem_flatten.1 hm
  exact hmss ms hms m hm

end

/-- **A search does not get at a node again that nothing refers to**: the label stays loose, also if
the search fails, and what is learned does not have it. -/
theorem loose_learn (depth : Nat) (symbol : Symbol) (spec : Spec) :
    Yields (fun _ => Loose l) r (learn states depth symbol spec) fun _ g => l ∉ g.places := by
  induction depth generalizing r symbol spec with
  | zero => exact loose_level _ (by simp)
  | succ depth ih =>
    refine loose_level _ fun operators h r op spec => ?_
    cases h
    exact loose_operator fun r symbol spec => ih symbol spec

end Search

end ArithLearn
