/-
What a search takes for granted about sharing is so.

How a union of one member is written depends on whether something else
refers to the member. A search does not look: the literals, it has it, are
shared, and the spaces of operators and the applications these are made of
are not (`Search.contribution`, `Search.operator`).

The literals are learned last of all members, and there is always room to
remember them. The others are made with new labels, and what is done after
that does not get at them again (`loose_learn`). So when a union is made its
members are what they are taken for (`shared_iff_refers`, `alone_joins`).
Whatever was made before the search came to the goal has older labels, so
that it does not refer to them either.
-/
import ArithLearn.Proofs.Search.Expansions
import ArithLearn.Proofs.Search.Loose

namespace ArithLearn

open Space

namespace Search

variable {states : List Input} {r : Registry}

/-! ### Graphs that nothing refers to -/

/-- The graphs have been made since `n` was the next label. Nothing that the search keeps refers to
them, and none of them is a part of another. -/
structure Alone (n : Nat) (s : Search) (gs : List Graph) : Prop where
  new : ∀ g ∈ gs, n ≤ g.label
  loose : ∀ g ∈ gs, s.Loose g.label
  apart : gs.Pairwise fun g g' => g.label ∉ g'.places ∧ g'.label ∉ g.places

namespace Alone

variable {n m : Nat} {s t : Search} {g : Graph} {gs gs' : List Graph}

theorem nil : Alone n s [] := ⟨by simp, by simp, .nil⟩

theorem singleton (h : n ≤ g.label) (hl : s.Loose g.label) : Alone n s [g] :=
  ⟨List.forall_mem_singleton.2 h, List.forall_mem_singleton.2 hl, List.pairwise_singleton _ _⟩

theorem mono (h : Alone m s gs) (hnm : n ≤ m) : Alone n s gs :=
  ⟨fun g hg => Nat.le_trans hnm (h.new g hg), h.loose, h.apart⟩

/-- Graphs that are made one after the other are alone if the later search does not get at the earlier
graphs. -/
theorem append (h : Alone n s gs) (h' : Alone m t gs') (hnm : n ≤ m)
    (held : ∀ g ∈ gs, ∀ l ∈ g.places, l < m) (hloose : ∀ g ∈ gs, t.Loose g.label)
    (hparts : ∀ g ∈ gs, ∀ g' ∈ gs', g.label ∉ g'.places) : Alone n t (gs ++ gs') where
  new := List.forall_mem_append.2 ⟨h.new, (h'.mono hnm).new⟩
  loose := List.forall_mem_append.2 ⟨hloose, h'.loose⟩
  apart := by
    refine List.pairwise_append.2 ⟨h.apart, h'.apart, fun g hg g' hg' => ⟨hparts g hg g' hg', ?_⟩⟩
    exact fun hl => Nat.not_le.2 (held g hg _ hl) (h'.new g' hg')

end Alone

variable {α β : Type} {s t : Search}

theorem exists_of_attempt_bind {x : SearchM α} {f : α → SearchM β} {b : β}
    (h : attempt (x >>= f) s = (.ok b, t)) :
    ∃ a s₁, attempt x s = (.ok a, s₁) ∧ attempt (f a) s₁ = (.ok b, t) := by
  rw [attempt_bind] at h
  split at h
  · exact ⟨_, _, ‹_›, h⟩
  · cases h

/-- What a step yields, where it succeeds. -/
theorem exists_of_attempt {inv : Registry → Search → Prop} {x : SearchM α}
    {post : Registry → α → Prop} (hx : Yields inv r x post) (hs : inv r s) {a : α}
    (h : attempt x s = (.ok a, t)) : ∃ r', r ≤ r' ∧ inv r' t ∧ post r' a := by
  obtain ⟨r', hr, ht, ha⟩ := hx s hs
  have hrun : Runs.run x s = (some a, t) := by
    show ((attempt x s).1.toOption, (attempt x s).2) = (some a, t)
    rw [h]
    rfl
  rw [hrun] at ht ha
  exact ⟨r', hr, ht, ha a rfl⟩

/-- A node that has just been made is one that nothing refers to. -/
theorem Fits.loose_next (hs : s.Fits states r) : Loose s.clusterer.next
    { s with clusterer := { s.clusterer with next := s.clusterer.next + 1 } } :=
  ⟨Nat.lt_succ_self _, fun h => Nat.lt_irrefl _ (hs.lt_of_refers h)⟩

theorem Fits.next_le {r' : Registry} (hs : s.Fits states r) (ht : t.Fits states r') (hr : r ≤ r') :
    s.clusterer.next ≤ t.clusterer.next := by
  rw [hs.clusterer.next, ht.clusterer.next]
  exact hr.1

/-- What is made for each member of a list is alone, if it is so for each by itself, and later members
do not get at what was made before. -/
theorem alone_mapM {f : α → SearchM β} {spaces : β → List Graph} {xs : List α}
    (hfound : ∀ x ∈ xs, ∀ r', r ≤ r' →
      Yields (Fits states) r' (f x) fun r'' b => ∀ g ∈ spaces b, r''.Holds g)
    (hloose : ∀ x ∈ xs, ∀ l r', r.next ≤ l →
      Yields (fun _ => Loose l) r' (f x) fun _ b => ∀ g ∈ spaces b, l ∉ g.places)
    (halone : ∀ x ∈ xs, ∀ r', r ≤ r' → ∀ s b t, s.Fits states r' → attempt (f x) s = (.ok b, t) →
      Alone s.clusterer.next t (spaces b))
    {bs : List β} (hs : s.Fits states r) (h : attempt (xs.mapM f) s = (.ok bs, t)) :
    Alone s.clusterer.next t (bs.flatMap spaces) := by
  induction xs generalizing r s bs with
  | nil =>
    cases h
    exact .nil
  | cons x xs ih =>
    rw [List.mapM_cons] at h
    obtain ⟨b, s₁, hb, h⟩ := exists_of_attempt_bind h
    obtain ⟨bs', s₂, hbs, h⟩ := exists_of_attempt_bind h
    cases h
    obtain ⟨hfound, hfound'⟩ := List.forall_mem_cons.1 hfound
    obtain ⟨hloose, hloose'⟩ := List.forall_mem_cons.1 hloose
    obtain ⟨halone, halone'⟩ := List.forall_mem_cons.1 halone
    obtain ⟨r₁, hr₁, hs₁, held⟩ := exists_of_attempt (hfound r r.le_refl) hs hb
    have hfirst := halone r r.le_refl s b s₁ hs hb
    have hrest := ih (fun y hy r' hr => hfound' y hy r' (Registry.le_trans hr₁ hr))
      (fun y hy l r' hl => hloose' y hy l r' (Nat.le_trans hr₁.1 hl))
      (fun y hy r' hr => halone' y hy r' (Registry.le_trans hr₁ hr)) hs₁ hbs
    have hframe : ∀ g ∈ spaces b,
        Loose g.label t ∧ ∀ b' ∈ bs', ∀ g' ∈ spaces b', g.label ∉ g'.places := by
      intro g hg
      have hnew : r.next ≤ g.label := hs.clusterer.next ▸ hfirst.new g hg
      obtain ⟨_, _, ht, hparts⟩ := exists_of_attempt (r := r₁)
        (.mapM_forall fun y hy r' => hloose' y hy g.label r' hnew) (hfirst.loose g hg) hbs
      exact ⟨ht, hparts⟩
    rw [List.flatMap_cons]
    refine hfirst.append hrest (hs.next_le hs₁ hr₁) (fun g hg l hl => ?_)
      (fun g hg => (hframe g hg).1) fun g hg g' hg' => ?_
    · rw [hs₁.clusterer.next]
      exact (held g hg).lt_of_mem_places hl
    · obtain ⟨b', hb', hg'⟩ := List.mem_flatMap.1 hg'
      exact (hframe g hg).2 b' hb' g' hg'

section

variable {lower : Symbol → Spec → SearchM Graph} {lower' : Symbol → Spec → Space Unit}

/-- The applications found for an operator are new, and nothing refers to them. -/
theorem alone_params {o : Operator} {spec : Spec}
    (hf : ∀ r symbol spec, Yields (Fits states) r (lower symbol spec) (Found (lower' symbol spec)))
    (hl : ∀ l r symbol spec,
      Yields (fun _ => Loose l) r (lower symbol spec) fun _ g => l ∉ g.places)
    {searched : List (Nat × Symbol × Witness)} (children : List Graph)
    (chosen : List (Nat × List Value)) (hc : ∀ c ∈ children, r.Holds c) (hs : s.Fits states r)
    {joins : List Graph}
    (h : attempt (params states lower o spec searched children chosen) s = (.ok joins, t)) :
    Alone s.clusterer.next t joins := by
  induction searched generalizing r s t children chosen joins with
  | nil =>
    cases h
    refine .singleton (Nat.le_of_eq label_joinOf.symm) ?_
    rw [label_joinOf]
    exact hs.loose_next
  | cons param rest ih =>
    obtain ⟨i, symbol, w⟩ := param
    unfold params at h
    split at h
    · cases h
      exact .nil
    split at h
    · cases h
      exact .nil
    obtain ⟨space, s₁, hspace, h⟩ := exists_of_attempt_bind h
    obtain ⟨r₁, hr₁, hs₁, hspace, _⟩ := exists_of_attempt (hf r symbol _) hs hspace
    have held : ∀ {r' c}, r₁ ≤ r' → r'.Holds c → ∀ d ∈ children ++ [c], r'.Holds d := by
      intro r' c hr hd
      refine List.forall_mem_append.2 ⟨fun d hmem => ?_, List.forall_mem_singleton.2 hd⟩
      exact (hc d hmem).mono (Registry.le_trans hr₁ hr)
    split at h
    · cases h
      exact .nil
    split at h
    · obtain ⟨cs, s₂, hcs, h⟩ := exists_of_attempt_bind h
      obtain ⟨r₂, hr₂, hs₂, hcs⟩ :=
        exists_of_attempt (yields_clustering (Space.yields_cluster hspace)) hs₁ hcs
      obtain ⟨gss, s₃, hgss, h⟩ := exists_of_attempt_bind h
      cases h
      have hchildren : ∀ c ∈ cs, ∀ r', r₂ ≤ r' → ∀ d ∈ children ++ [c.space], r'.Holds d :=
        fun c hmem r' hr => held (Registry.le_trans hr₂ hr) ((hcs.held c hmem).mono hr)
      rw [← List.flatMap_id]
      refine (alone_mapM (fun c hmem r' hr => ?_) (fun c hmem l r' hnew => ?_)
        (fun c hmem r' hr s b t hs h => ?_) hs₂ hgss).mono
          (hs.next_le hs₂ (Registry.le_trans hr₁ hr₂))
      · exact .bind yields_tick fun r'' _ hr' _ => .imp (yields_params hf _ _
          (hchildren c hmem r'' (Registry.le_trans hr hr'))) fun _ _ _ hgs => hgs.2
      · -- What was held when the clusters were found has older labels.
        refine .bind loose_tick fun r'' _ _ _ => loose_params (hl l) _ _ fun d hd hmem' => ?_
        exact Nat.not_le.2 ((hchildren c hmem r₂ r₂.le_refl d hd).lt_of_mem_places hmem') hnew
      · obtain ⟨_, s₁, htick, h⟩ := exists_of_attempt_bind h
        obtain ⟨r'', hr', hs₁, _⟩ := exists_of_attempt yields_tick hs htick
        exact (ih _ _ (hchildren c hmem r'' (Registry.le_trans hr hr')) hs₁ h).mono
          (hs.next_le hs₁ hr')
    · exact (ih _ _ (held r₁.le_refl hspace) hs₁ h).mono (hs.next_le hs₁ hr₁)

/-- The union of an operator's applications is new, be it one of these, and nothing refers to it. -/
theorem alone_operator {o : Operator} {spec : Spec}
    (hf : ∀ r symbol spec, Yields (Fits states) r (lower symbol spec) (Found (lower' symbol spec)))
    (hl : ∀ l r symbol spec,
      Yields (fun _ => Loose l) r (lower symbol spec) fun _ g => l ∉ g.places)
    (hs : s.Fits states r) {g : Graph} (h : attempt (operator states lower o spec) s = (.ok g, t)) :
    Alone s.clusterer.next t [g] := by
  obtain ⟨label, s₁, hlabel, h⟩ := exists_of_attempt_bind h
  obtain ⟨r₁, hr₁, hs₁, hinput⟩ := exists_of_attempt (yields_fresh (.inputLeaf ())) hs hlabel
  have hi : r₁.Holds (Space.inputLeaf label) := .leaf hinput.1 hinput.2
  have hi := List.forall_mem_singleton.2 hi
  obtain ⟨joins, s₂, hjoins, h⟩ := exists_of_attempt_bind h
  obtain ⟨r₂, hr₂, hs₂, _⟩ := exists_of_attempt (yields_params hf _ _ hi) hs₁ hjoins
  have hjoins := (alone_params hf hl _ _ hi hs₁ hjoins).mono (hs.next_le hs₁ hr₁)
  -- To tell of the applications changes nothing that matters here.
  have union : ∀ s₃ r₃, s₃.Fits states r₃ → r₂ ≤ r₃ → Alone s.clusterer.next s₃ joins →
      attempt (do pure (.unionOf (← fresh) (joins.map (⟨·, false⟩))) : SearchM Graph) s₃ =
        (.ok g, t) → Alone s.clusterer.next t [g] := by
    intro s₃ r₃ hs₃ hr₃ hjoins h
    cases h
    refine unionOf_cases (motive := fun g => Alone s.clusterer.next _ [g]) ?_ ?_
    · intro kept _ _
      exact .singleton (hs.next_le hs₃ (Registry.le_trans hr₁ (Registry.le_trans hr₂ hr₃)))
        hs₃.loose_next
    · intro m hm _ _
      obtain ⟨g, hg, rfl⟩ := List.mem_map.1 hm
      obtain ⟨hlt, hloose⟩ := hjoins.loose g hg
      exact .singleton (hjoins.new g hg) ⟨Nat.lt_succ_of_lt hlt, hloose⟩
  split at h
  · obtain ⟨_, s₃, htell, h⟩ := exists_of_attempt_bind h
    obtain ⟨r₃, hr₃, hs₃, _⟩ := exists_of_attempt yields_tell hs₂ htell
    cases htell
    exact union _ r₃ hs₃ hr₃ ⟨hjoins.new, hjoins.loose, hjoins.apart⟩ h
  · exact union s₂ r₂ hs₂ r₂.le_refl hjoins h

end

/-! ### Members of unions -/

/-- What has been learned for a goal that can be met is remembered right after. -/
theorem mem_entries_of_remembered {goal : Goal} {build : SearchM Graph}
    (hu : ¬ goal.spec.isUnsatisfiable)
    (hb : ∀ r', Yields (Fits states) r' build fun _ _ => True) (hs : s.Fits states r) {g : Graph}
    (h : attempt (remembered goal build) s = (.ok g, t)) : (goal, g) ∈ t.known.entries := by
  unfold remembered at h
  rw [if_neg hu] at h
  obtain ⟨_, _, hget, h⟩ := exists_of_attempt_bind h
  cases hget
  split at h
  · cases h
    exact Recent.mem_touch_of_get? ‹_›
  · obtain ⟨_, s₁, htick, h⟩ := exists_of_attempt_bind h
    obtain ⟨r₁, _, hs₁, _⟩ := exists_of_attempt yields_tick hs htick
    obtain ⟨g', s₂, hbuild, h⟩ := exists_of_attempt_bind h
    obtain ⟨r₂, _, hs₂, _⟩ := exists_of_attempt (hb r₁) hs₁ hbuild
    cases h
    exact Recent.mem_insert_self hs₂.capacity

/-- **The applications of an operator are shared with nothing** when their union is made: they are
new, nothing that the search keeps refers to them, and none is a part of another. -/
theorem alone_joins (hs : s.Fits states r) {depth : Nat} {o : Operator} {spec : Spec}
    {children joins : List Graph} (hc : ∀ c ∈ children, r.Holds c)
    (h : attempt (params states (learn states depth) o spec o.searched children []) s =
      (.ok joins, t)) : Alone s.clusterer.next t joins :=
  alone_params (fun _ => yields_learn depth) (fun _ _ => loose_learn depth) children [] hc hs h

theorem eq_operator_of_mem {depth : Nat} {operators : Op → Spec → SearchM Graph}
    (h : operators ∈ operators? states depth) :
    ∃ d, operators = fun op => operator states (learn states d) (.of op) := by
  cases depth with
  | zero => cases h
  | succ d => exact ⟨d, (Option.some.inj h).symm⟩

section

variable {goal : Goal} {op : Op}

theorem yields_contribution : Yields (Fits states) r
    (contribution (operators? states goal.depth) goal (.op op))
    fun r' ms => (∀ m ∈ ms, m.shared = false) ∧ ∀ g ∈ ms.map (·.space), r'.Holds g := by
  unfold contribution
  cases ho : operators? states goal.depth with
  | none => exact .pure (by simp)
  | some operators =>
    obtain ⟨d, rfl⟩ := eq_operator_of_mem ho
    exact .bind (yields_operator fun _ => yields_learn d) fun _ _ _ hg => .pure (by simpa using hg.1)

/-- Other nodes that nothing refers to are not got at. -/
theorem loose_contribution_op {l : Nat} : Yields (fun _ => Loose l) r
    (contribution (operators? states goal.depth) goal (.op op))
    fun _ ms => ∀ g ∈ ms.map (·.space), l ∉ g.places := by
  refine .imp (loose_contribution (fun operators ho r op spec => ?_) (.op op)) fun _ ms _ hms => ?_
  · obtain ⟨d, rfl⟩ := eq_operator_of_mem ho
    exact loose_operator fun _ => loose_learn d
  · simpa using hms

theorem alone_contribution (hs : s.Fits states r) {ms : List (Member Nat)}
    (h : attempt (contribution (operators? states goal.depth) goal (.op op)) s = (.ok ms, t)) :
    Alone s.clusterer.next t (ms.map (·.space)) := by
  unfold contribution at h
  cases ho : operators? states goal.depth with
  | none =>
    rw [ho] at h
    cases h
    exact .nil
  | some operators =>
    rw [ho] at h
    obtain ⟨d, rfl⟩ := eq_operator_of_mem ho
    obtain ⟨g, _, hg, h⟩ := exists_of_attempt_bind h
    cases h
    exact alone_operator (fun _ => yields_learn d) (fun _ _ => loose_learn d) hs hg

/-- The contributions of all operators are new, and nothing refers to them. -/
theorem alone_contributions {ops : List Op} (hs : s.Fits states r) {mss : List (List (Member Nat))}
    (h : attempt ((ops.map .op).mapM (contribution (operators? states goal.depth) goal)) s =
      (.ok mss, t)) :
    (∃ r', t.Fits states r') ∧ (∀ m ∈ mss.flatten, m.shared = false) ∧
      Alone s.clusterer.next t (mss.flatten.map (·.space)) := by
  rw [List.mapM_map] at h
  obtain ⟨r', _, ht, hshared⟩ := exists_of_attempt
    (.mapM_forall fun _ _ _ => .imp yields_contribution fun _ _ _ hms => hms.1) hs h
  refine ⟨⟨r', ht⟩, fun m hm => ?_, ?_⟩
  · obtain ⟨ms, hms, hm⟩ := List.mem_flatten.1 hm
    exact hshared ms hms m hm
  · rw [List.map_flatten, ← List.flatMap_def]
    exact alone_mapM (fun _ _ _ _ => .imp yields_contribution fun _ _ _ hms => hms.2)
      (fun _ _ _ _ _ => loose_contribution_op)
      (fun _ _ _ _ _ _ _ hs hms => alone_contribution hs hms) hs h

end

/-- **A member of a union is taken to be shared exactly if something refers to it** when the union is
made. Those that are not are new, and none is a part of another. -/
theorem shared_iff_refers (hs : s.Fits states r) {goal : Goal} (hu : ¬ goal.spec.isUnsatisfiable)
    {mss : List (List (Member Nat))}
    (h : attempt (goal.symbol.productions.mapM (contribution (operators? states goal.depth) goal)) s =
      (.ok mss, t)) :
    (∀ m ∈ mss.flatten, m.shared = true ↔ t.Refers m.space.label) ∧
      Alone s.clusterer.next t ((mss.flatten.filter fun m => !m.shared).map (·.space)) := by
  obtain ⟨symbol, depth, spec⟩ := goal
  cases symbol with
  | input | constant =>
    cases h
    exact ⟨by simp, .nil⟩
  | start =>
    rw [Symbol.productions, List.mapM_append] at h
    obtain ⟨mss, s₁, hops, h⟩ := exists_of_attempt_bind h
    obtain ⟨mss', s₂, hliteral, h⟩ := exists_of_attempt_bind h
    cases h
    rw [List.mapM_cons, List.mapM_nil] at hliteral
    obtain ⟨ms, s₃, hliteral, h⟩ := exists_of_attempt_bind hliteral
    cases h
    obtain ⟨space, s₄, hspace, h⟩ := exists_of_attempt_bind hliteral
    cases h
    obtain ⟨⟨r₁, hs₁⟩, hshared, halone⟩ := alone_contributions hs hops
    -- The literals come last, and what the operators have contributed stays loose.
    have hu : ¬ (⟨.constant, depth, spec⟩ : Goal).spec.isUnsatisfiable := hu
    have hentry := mem_entries_of_remembered hu
      (fun r' => .imp yields_literals fun _ _ _ _ => trivial) hs₁ hspace
    have hloose : ∀ g ∈ mss.flatten.map (·.space), Loose g.label t := by
      intro g hg
      obtain ⟨_, _, hloose, _⟩ := exists_of_attempt (r := r₁)
        (loose_remembered _ fun _ => loose_literals) (halone.loose g hg) hspace
      exact hloose
    rw [List.flatten_append, List.flatten_singleton]
    constructor
    · refine List.forall_mem_append.2 ⟨fun m hm => ?_, List.forall_mem_singleton.2 ?_⟩
      · rw [hshared m hm]
        exact iff_of_false (by simp) (hloose m.space (List.mem_map_of_mem hm)).2
      · exact iff_of_true rfl (.inl ⟨_, hentry, mem_places.2 (.inl rfl)⟩)
    · have hfilter : (mss.flatten ++ [(⟨space, true⟩ : Member Nat)]).filter (fun m => !m.shared) =
          mss.flatten := by
        rw [List.filter_append, List.filter_eq_self.2 fun m hm => by rw [hshared m hm]; rfl]
        simp
      rw [hfilter]
      exact ⟨halone.new, hloose, halone.apart⟩

end Search

end ArithLearn
