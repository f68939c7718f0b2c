/-
The search with nothing but its recursion: no budget, no memory, no labels,
no events.

`Plain.learn` is what a search works out, as a function of the states, the
depth, the symbol and the spec alone. `Search.Fits` is the invariant of a
search: what is remembered for a goal has the shape `Plain.learn` gives for
it. Every step keeps it, also one that fails, and so `Reachable.learn_eq`:
in every state a search can get to, what it learns has that shape.
-/
import ArithLearn.Synthesis
import ArithLearn.Proofs.Space.Cluster

namespace ArithLearn

namespace Plain

/-- The literals that every state accepts. -/
def literals (spec : Spec) : Space Unit := .leaf () (spec.common.image .lit)

/-- The applications of an operator, by the spaces of its parameters. -/
def params (states : List Input) (lower : Symbol → Spec → Space Unit) (o : Operator) (spec : Spec) :
    List (Nat × Symbol × Witness) → List (Space Unit) → List (Nat × List Value) → List (Space Unit)
  | [], children, _ => [.joinOf () o.op children]
  | (i, symbol, w) :: rest, children, chosen =>
    match w.spec? states spec (chosen.lookup ·) with
    | none => []
    | some paramSpec =>
      if paramSpec.isUnsatisfiable then []
      else if (lower symbol paramSpec).isEmpty then []
      else if o.isDependency i then
        ((lower symbol paramSpec).parts states).flatMap fun c =>
          params states lower o spec rest (children ++ [c.2]) ((i, c.1) :: chosen)
      else params states lower o spec rest (children ++ [lower symbol paramSpec]) chosen

/-- The space of an operator's applications. -/
def operator (states : List Input) (lower : Symbol → Spec → Space Unit) (o : Operator)
    (spec : Spec) : Space Unit :=
  .unionOf () ((params states lower o spec o.searched [.inputLeaf ()] []).map (⟨·, false⟩))

/-- The members a production gives the union of all. -/
def members (operators? : Option (Op → Spec → Space Unit)) (spec : Spec) :
    Production → List (Space.Member Unit)
  | .literal => [⟨literals spec, true⟩]
  | .op op =>
    match operators? with
    | none => []
    | some operators => [⟨operators op spec, false⟩]

/-- The space for a symbol, where `operators?` has the applications. -/
def built (operators? : Option (Op → Spec → Space Unit)) (spec : Spec) : Symbol → Space Unit
  | .input => .union () []
  | .constant => literals spec
  | .start => .unionOf () (Symbol.start.productions.flatMap (members operators? spec))

/-- The space for a symbol, empty if the spec cannot be met. -/
def level (operators? : Option (Op → Spec → Space Unit)) (symbol : Symbol) (spec : Spec) :
    Space Unit :=
  if spec.isUnsatisfiable then .union () [] else built operators? spec symbol

/-- What a search learns. -/
def learn (states : List Input) : Nat → Symbol → Spec → Space Unit
  | 0 => level none
  | depth + 1 => level (some fun op => operator states (learn states depth) (.of op))

theorem learn_of_isUnsatisfiable {states : List Input} {depth : Nat} {symbol : Symbol} {spec : Spec}
    (h : spec.isUnsatisfiable) : learn states depth symbol spec = .union () [] := by
  cases depth <;> exact if_pos h

theorem learn_constant {states : List Input} {depth : Nat} {spec : Spec}
    (h : ¬ spec.isUnsatisfiable) : learn states depth .constant spec = literals spec := by
  cases depth <;> exact if_neg h

end Plain

/-! ### What a step finds -/

/-- The graph has the shape, and its labels are in use. -/
def Found (s : Space Unit) (r : Registry) (g : Graph) : Prop := r.Holds g ∧ g.shape = s

/-- The graphs have the shapes, and their labels are in use. -/
def FoundAll (ss : List (Space Unit)) (r : Registry) (gs : List Graph) : Prop :=
  gs.map Space.shape = ss ∧ ∀ g ∈ gs, r.Holds g

theorem Found.mono {s : Space Unit} {r r' : Registry} {g : Graph} (hr : r ≤ r') (h : Found s r g) :
    Found s r' g :=
  ⟨h.1.mono hr, h.2⟩

theorem FoundAll.mono {ss : List (Space Unit)} {r r' : Registry} {gs : List Graph} (hr : r ≤ r')
    (h : FoundAll ss r gs) : FoundAll ss r' gs :=
  ⟨h.1, fun g hg => (h.2 g hg).mono hr⟩

/-- Lists that view as they should, and hold only what they should, do so as one list. -/
theorem flatten_of_forall₂ {α β γ : Type} {view : β → γ} {held : β → Prop} {f : α → List γ}
    {xs : List α} {bss : List (List β)}
    (h : List.Forall₂ (fun x bs => bs.map view = f x ∧ ∀ b ∈ bs, held b) xs bss) :
    bss.flatten.map view = xs.flatMap f ∧ ∀ b ∈ bss.flatten, held b := by
  induction h with
  | nil => exact ⟨rfl, by simp⟩
  | cons hx _ ih =>
    rw [List.flatten_cons, List.map_append, hx.1, ih.1, List.flatMap_cons]
    exact ⟨rfl, List.forall_mem_append.2 ⟨hx.2, ih.2⟩⟩

namespace Search

/-- The clusterer fits, what is remembered for a goal is what is learned for it, and there is room to
remember something. -/
structure Fits (states : List Input) (r : Registry) (s : Search) : Prop where
  clusterer : s.clusterer.Fits states r
  known : ∀ e ∈ s.known.entries, Found (Plain.learn states e.1.depth e.1.symbol e.1.spec) r e.2
  capacity : 1 ≤ s.known.capacity

variable {states : List Input} {r : Registry}

/-! ### Small steps -/

theorem Fits.mono {r' : Registry} {s s' : Search} (h : s.Fits states r) (hr : r ≤ r')
    (hc : s'.clusterer.Fits states r') (hk : s'.known = s.known) : s'.Fits states r' :=
  ⟨hc, fun e he => (h.known e (hk ▸ he)).mono hr, hk ▸ h.capacity⟩

theorem yields_get : Yields (Fits states) r (get : SearchM Search) fun r' s => s.Fits states r' :=
  fun s hs => ⟨r, r.le_refl, hs, fun a ha => by cases ha; exact hs⟩

theorem yields_modify {f : Search → Search} (h : ∀ s, s.Fits states r → (f s).Fits states r) :
    Yields (Fits states) r (modify f : SearchM Unit) fun _ _ => True :=
  fun s hs => ⟨r, r.le_refl, h s hs, fun _ _ => trivial⟩

theorem yields_throw {α : Type} {e : SynthesisError} {post : Registry → α → Prop} :
    Yields (Fits states) r (throw e : SearchM α) post :=
  fun _ hs => ⟨r, r.le_refl, hs, fun _ ha => by cases ha⟩

theorem yields_tick : Yields (Fits states) r tick fun _ _ => True := by
  refine .bind (yields_modify fun s hs => hs.mono r.le_refl hs.clusterer rfl) fun r' _ _ _ => ?_
  refine .bind yields_get fun r'' s _ _ => ?_
  split
  · exact yields_throw
  · exact .pure trivial

theorem yields_tell {e : Event} : Yields (Fits states) r (tell e) fun _ _ => True :=
  yields_modify fun _ hs => hs.mono r.le_refl hs.clusterer rfl

theorem yields_clustering {α : Type} {step : StateM Clusterer α} {post : Registry → α → Prop}
    (h : Yields (Clusterer.Fits states) r step post) :
    Yields (Fits states) r (clustering step) post := by
  intro s hs
  obtain ⟨r', hr, hc, ha⟩ := h s.clusterer hs.clusterer
  exact ⟨r', hr, hs.mono hr hc rfl, ha⟩

theorem yields_fresh (s : Space Unit) :
    Yields (Fits states) r fresh fun r' l => l < r'.next ∧ r'.shapeOf l = s :=
  yields_clustering (Clusterer.yields_fresh s)

/-- A node made with a label of its own is found with the shape it was made to have. -/
theorem yields_make {make : Nat → Graph} {s : Space Unit} (shape : ∀ l, (make l).shape = s)
    (held : ∀ r' l, r ≤ r' → l < r'.next → r'.shapeOf l = (make l).shape → r'.Holds (make l)) :
    Yields (Fits states) r (do pure (make (← fresh))) (Found s) := by
  refine .bind (yields_fresh s) fun r' l hr hl => .pure ⟨held r' l hr hl.1 ?_, shape l⟩
  rw [hl.2, shape]

theorem yields_empty :
    Yields (Fits states) r (do pure (.union (← fresh) [])) (Found (.union () [])) :=
  yields_make (fun _ => by simp) fun _ _ _ lt shape => .union lt shape (by simp)

theorem yields_literals {spec : Spec} :
    Yields (Fits states) r (literals spec) (Found (Plain.literals spec)) :=
  yields_make (fun _ => Space.shape_leaf) fun _ _ _ lt shape =>
    .leaf lt (by rw [shape, Space.shape_leaf])

theorem yields_unionOf {members : List (Space.Member Nat)} {members' : List (Space.Member Unit)}
    (h : members.map Space.Member.shape = members') (held : ∀ m ∈ members, r.Holds m.space) :
    Yields (Fits states) r (do pure (.unionOf (← fresh) members))
      (Found (.unionOf () members')) :=
  yields_make (fun _ => by rw [Space.shape_unionOf, h]) fun _ _ hr lt shape =>
    .unionOf lt shape fun m hm => (held m hm).mono hr

/-- What is remembered is what would be built. -/
theorem yields_remembered (goal : Goal) {build : SearchM Graph} {s : Space Unit}
    (hs : Plain.learn states goal.depth goal.symbol goal.spec = s)
    (hb : ¬ goal.spec.isUnsatisfiable → ∀ r', Yields (Fits states) r' build (Found s)) :
    Yields (Fits states) r (remembered goal build) (Found s) := by
  unfold remembered
  by_cases hu : goal.spec.isUnsatisfiable
  · rw [if_pos hu, ← hs, Plain.learn_of_isUnsatisfiable hu]
    exact yields_empty
  · rw [if_neg hu]
    refine .bind yields_get fun r₁ t _ ht => ?_
    split
    · rename_i g hg
      refine .bind (yields_modify fun t' ht' => ⟨ht'.clusterer, fun e he => ?_, ?_⟩)
        fun r₂ _ hr₂ _ => .pure (hs ▸ (ht.known _ (Recent.mem_entries_of_get? hg)).mono hr₂)
      · exact ht'.known e (Recent.mem_entries_of_mem_touch he)
      · simpa using ht'.capacity
    · refine .bind yields_tick fun r₂ _ _ _ => ?_
      refine .bind (hb hu r₂) fun r₃ g _ hg => ?_
      refine .bind (yields_modify fun t' ht' => ⟨ht'.clusterer, fun e he => ?_, ?_⟩)
        fun r₄ _ hr₄ _ => .pure (hg.mono hr₄)
      · rcases Recent.mem_entries_of_mem_insert he with rfl | he
        · rw [hs]
          exact hg
        · exact ht'.known e he
      · simpa using ht'.capacity

/-! ### Operators and levels -/

section

variable {lower : Symbol → Spec → SearchM Graph} {lower' : Symbol → Spec → Space Unit}

/-- The joins found for an operator, given what is found one level deeper. -/
theorem yields_params {o : Operator} {spec : Spec}
    (hl : ∀ r symbol spec, Yields (Fits states) r (lower symbol spec) (Found (lower' symbol spec)))
    {searched : List (Nat × Symbol × Witness)} (children : List Graph)
    (chosen : List (Nat × List Value)) (hc : ∀ c ∈ children, r.Holds c) :
    Yields (Fits states) r (params states lower o spec searched children chosen)
      (FoundAll (Plain.params states lower' o spec searched (children.map Space.shape) chosen)) := by
  induction searched generalizing r children chosen with
  | nil =>
    refine .bind (yields_fresh (.joinOf () o.op (children.map Space.shape))) fun r' l hr hl =>
      .pure ⟨?_, List.forall_mem_singleton.2 ?_⟩
    · rw [List.map_singleton, Space.shape_joinOf, Plain.params]
    · exact .joinOf hl.1 (by rw [hl.2, Space.shape_joinOf]) fun c h => (hc c h).mono hr
  | cons param rest ih =>
    obtain ⟨i, symbol, w⟩ := param
    have none : Yields (Fits states) r (pure [] : SearchM (List Graph)) (FoundAll []) :=
      .pure ⟨rfl, by simp⟩
    unfold params Plain.params
    cases w.spec? states spec (chosen.lookup ·) with
    | none => exact none
    | some paramSpec =>
      by_cases hu : paramSpec.isUnsatisfiable
      · simp only [if_pos hu]
        exact none
      simp only [if_neg hu]
      refine .bind (hl r symbol paramSpec) fun r₁ space hr₁ hspace => ?_
      rw [← hspace.2, Space.isEmpty_shape]
      by_cases he : space.isEmpty
      · rw [if_pos he, if_pos he]
        exact .pure ⟨rfl, by simp⟩
      rw [if_neg he, if_neg he]
      have held : ∀ {r' c}, r₁ ≤ r' → r'.Holds c → ∀ d ∈ children ++ [c], r'.Holds d := by
        intro r' c hr hd
        refine List.forall_mem_append.2 ⟨fun d hmem => ?_, List.forall_mem_singleton.2 hd⟩
        exact (hc d hmem).mono (Registry.le_trans hr₁ hr)
      by_cases hd : o.isDependency i
      · rw [if_pos hd, if_pos hd]
        refine .bind (yields_clustering (Space.yields_cluster hspace.1)) fun r₂ cs hr₂ hcs => ?_
        refine .bind (.mapM (Q := fun c => FoundAll (Plain.params states lower' o spec rest
          ((children ++ [c.space]).map Space.shape) ((i, c.values) :: chosen)))
          (fun _ _ _ _ _ => .mono) fun c hmem r₃ hr₃ => ?_) fun r₃ gss _ hgss => .pure ?_
        · refine .bind yields_tick fun r₄ _ hr₄ _ => ih _ _ ?_
          exact held (Registry.le_trans hr₂ (Registry.le_trans hr₃ hr₄))
            (((hcs.held c hmem).mono hr₃).mono hr₄)
        · have h : FoundAll _ r₃ gss.flatten := flatten_of_forall₂ hgss
          rw [← hcs.shapes, List.flatMap_map]
          simpa [Cluster.shape] using h
      · rw [if_neg hd, if_neg hd]
        have h := ih (children ++ [space]) chosen (held r₁.le_refl hspace.1)
        simpa using h

theorem yields_operator {o : Operator} {spec : Spec}
    (hl : ∀ r symbol spec, Yields (Fits states) r (lower symbol spec) (Found (lower' symbol spec))) :
    Yields (Fits states) r (operator states lower o spec)
      (Found (Plain.operator states lower' o spec)) := by
  refine .bind (yields_fresh (.inputLeaf ())) fun r₁ l hr₁ hinput => ?_
  have hi : r₁.Holds (Space.inputLeaf l) := .leaf hinput.1 hinput.2
  refine .bind (yields_params hl [.inputLeaf l] [] (List.forall_mem_singleton.2 hi))
    fun r₂ joins hr₂ hjoins => ?_
  have union : ∀ r₃, r₂ ≤ r₃ →
      Yields (Fits states) r₃ (do pure (.unionOf (← fresh) (joins.map (⟨·, false⟩))))
        (Found (Plain.operator states lower' o spec)) := by
    intro r₃ hr₃
    refine yields_unionOf ?_ fun m hm => ?_
    · rw [← Space.shape_inputLeaf, ← List.map_singleton, ← hjoins.1, List.map_map, List.map_map]
      rfl
    · obtain ⟨g, hg, rfl⟩ := List.mem_map.1 hm
      exact (hjoins.2 g hg).mono hr₃
  by_cases he : joins.isEmpty
  · simp only [he]
    exact union r₂ r₂.le_refl
  · simp only [he]
    exact .bind yields_tell fun r₃ _ hr₃ _ => union r₃ hr₃

end

/-- Where operators are allowed, their applications are found. -/
inductive Operates (states : List Input) :
    Option (Op → Spec → SearchM Graph) → Option (Op → Spec → Space Unit) → Prop
  | none : Operates states none none
  | some {operators : Op → Spec → SearchM Graph} {operators' : Op → Spec → Space Unit}
      (h : ∀ r op spec, Yields (Fits states) r (operators op spec) (Found (operators' op spec))) :
      Operates states (some operators) (some operators')

theorem yields_level {operators? : Option (Op → Spec → SearchM Graph)}
    {operators'? : Option (Op → Spec → Space Unit)} (goal : Goal)
    (hp : Plain.learn states goal.depth goal.symbol goal.spec =
      Plain.level operators'? goal.symbol goal.spec)
    (ho : Operates states operators? operators'?) :
    Yields (Fits states) r (level operators? goal)
      (Found (Plain.learn states goal.depth goal.symbol goal.spec)) := by
  refine yields_remembered goal rfl fun hu r' => ?_
  rw [hp, Plain.level, if_neg hu]
  cases goal.symbol with
  | input => exact yields_empty
  | constant => exact yields_literals
  | start =>
    -- What a member is found to be, before the union is made of all of them.
    refine .bind (.mapM (Q := fun production r'' ms =>
      ms.map Space.Member.shape = Plain.members operators'? goal.spec production ∧
        ∀ m ∈ ms, r''.Holds m.space)
      ?_ ?_) ?_
    · exact fun _ _ _ _ _ hr h => ⟨h.1, fun m hm => (h.2 m hm).mono hr⟩
    · rintro (op | _) _ r₁ _
      · cases ho with
        | none => exact .pure ⟨rfl, by simp⟩
        | some h =>
          refine .bind (h r₁ op goal.spec) fun r₂ space _ hspace => .pure ⟨?_, ?_⟩
          · simp [Space.Member.shape, hspace.2, Plain.members]
          · simpa using hspace.1
      · refine .bind (yields_remembered { goal with symbol := .constant }
          (Plain.learn_constant hu) fun _ _ => yields_literals) fun r₂ space _ hspace =>
          .pure ⟨?_, ?_⟩
        · simp [Space.Member.shape, hspace.2, Plain.members]
        · simpa using hspace.1
    · intro r₁ mss _ hmss
      have hm := flatten_of_forall₂ hmss
      exact yields_unionOf hm.1 hm.2

theorem yields_learn (depth : Nat) (symbol : Symbol) (spec : Spec) :
    Yields (Fits states) r (learn states depth symbol spec)
      (Found (Plain.learn states depth symbol spec)) := by
  induction depth generalizing r symbol spec with
  | zero => exact yields_level ⟨symbol, 0, spec⟩ rfl .none
  | succ depth ih =>
    refine yields_level ⟨symbol, depth + 1, spec⟩ rfl (.some fun r op spec => ?_)
    exact yields_operator fun r symbol spec => ih symbol spec

/-! ### Whole searches -/

/-- The states a search over the inputs can be in: one it begins in, or one that an attempt to learn
anything has left, also one that failed. -/
inductive Reachable (states : List Input) : Search → Prop
  | start (limits : Limits) (clock : Clock := .stopped) : Reachable states (start limits clock)
  | learn {s : Search} (hs : Reachable states s) (depth : Nat) (symbol : Symbol) (spec : Spec) :
      Reachable states (attempt (learn states depth symbol spec) s).2

theorem fits_start (limits : Limits) (clock : Clock) :
    (start limits clock).Fits states ⟨0, fun _ => .union () []⟩ := by
  refine ⟨⟨rfl, fun l cs hl => ?_⟩, fun e he => ?_, Nat.le_max_left 1 _⟩
  · simp [start] at hl
  · simp [start, Recent.ofCapacity] at he

namespace Reachable

variable {s : Search}

theorem fits (hs : Reachable states s) : ∃ r, s.Fits states r := by
  induction hs with
  | start limits clock => exact ⟨_, fits_start limits clock⟩
  | learn _ depth symbol spec ih =>
    obtain ⟨r, hr⟩ := ih
    obtain ⟨r', _, hr', _⟩ := yields_learn depth symbol spec _ hr
    exact ⟨r', hr'⟩

/-- What is learned is found, in every state a search can be in. -/
theorem found_learn (hs : Reachable states s) {depth : Nat} {symbol : Symbol} {spec : Spec}
    {space : Graph} (h : (attempt (Search.learn states depth symbol spec) s).1 = .ok space) :
    ∃ r, Found (Plain.learn states depth symbol spec) r space := by
  obtain ⟨r, hr⟩ := hs.fits
  obtain ⟨r', _, _, hfound⟩ := yields_learn depth symbol spec s hr
  refine ⟨r', hfound space ?_⟩
  show (attempt (Search.learn states depth symbol spec) s).1.toOption = some space
  rw [h]
  rfl

/-- **What is learned is what the plain search learns**, in every state a search can be in. -/
theorem learn_eq (hs : Reachable states s) {depth : Nat} {symbol : Symbol} {spec : Spec}
    {space : Graph} (h : (attempt (Search.learn states depth symbol spec) s).1 = .ok space) :
    space.shape = Plain.learn states depth symbol spec := by
  obtain ⟨_, hfound⟩ := hs.found_learn h
  exact hfound.2

end Reachable

end Search

/-- A result that passes a test is a result. -/
theorem exists_ok_of_any {ε α : Type} {x : Except ε α} {f : α → Bool} (h : x.toOption.any f) :
    ∃ a, x = .ok a ∧ f a := by
  cases x with
  | error e => simp [Except.toOption] at h
  | ok a => exact ⟨a, rfl, h⟩

/-- The search for a version space is an attempt to learn from the start. -/
theorem found_versionSpace {examples : List Example} {config : Config} {clock : Clock}
    {space : Graph} (h : versionSpace examples config clock = .ok space) :
    examples ≠ [] ∧ ∃ r, Found (Plain.learn (examples.map (·.input)) config.limits.maxDepth .start
      (.exact (examples.map (·.output)))) r space := by
  cases examples with
  | nil => cases h
  | cons e examples => exact ⟨by simp, (Search.Reachable.start config.limits clock).found_learn h⟩

theorem versionSpace_eq_ok {examples : List Example} {config : Config} {clock : Clock}
    {space : Graph} (h : versionSpace examples config clock = .ok space) :
    examples ≠ [] ∧ space.shape = Plain.learn (examples.map (·.input)) config.limits.maxDepth .start
      (.exact (examples.map (·.output))) := by
  obtain ⟨hne, _, hfound⟩ := found_versionSpace h
  exact ⟨hne, hfound.2⟩

end ArithLearn
