/-
A search over states of which one is repeated.

The second search runs over an echo of the states of the first, for the echo
of its spec. It is asked for the echo of each goal the first is asked for,
and echoes of goals are told apart as the goals are. So what the one
remembers or forgets the other remembers and forgets, and each expansion of
the one is one of the other (`Search.Echoes`). Only the specs they tell
events about are not the same. In the end the two have learned the same
graph, to the last label, or have gone too far together (`alike_learn`,
`explore_echo`).
-/
import ArithLearn.Synthesis
import ArithLearn.Proofs.Echo.Cluster

namespace ArithLearn

/-! ### A memory under other keys -/

namespace Recent

variable {κ κ' ν : Type} [DecidableEq κ] [DecidableEq κ'] {f : κ → κ'}

/-- The memory with its keys replaced. -/
def mapKeys (f : κ → κ') (m : Recent κ ν) : Recent κ' ν where
  capacity := m.capacity
  entries := m.entries.map fun e => (f e.1, e.2)

theorem find?_mapKeys (hf : Function.Injective f) (m : Recent κ ν) (key : κ) :
    (m.mapKeys f).entries.find? (fun e => e.1 = f key) =
      (m.entries.find? fun e => e.1 = key).map fun e => (f e.1, e.2) := by
  have hkey : (fun e : κ' × ν => decide (e.1 = f key)) ∘ (fun e : κ × ν => (f e.1, e.2)) =
      fun e => decide (e.1 = key) := by
    funext e
    simp [hf.eq_iff]
  rw [mapKeys, List.find?_map, hkey]

theorem filter_mapKeys (hf : Function.Injective f) (m : Recent κ ν) (key : κ) :
    (m.mapKeys f).entries.filter (fun e => e.1 ≠ f key) =
      (m.entries.filter fun e => e.1 ≠ key).map fun e => (f e.1, e.2) := by
  have hkey : (fun e : κ' × ν => decide (e.1 ≠ f key)) ∘ (fun e : κ × ν => (f e.1, e.2)) =
      fun e => decide (e.1 ≠ key) := by
    funext e
    simp [hf.eq_iff]
  rw [mapKeys, List.filter_map, hkey]

theorem get?_mapKeys (hf : Function.Injective f) (m : Recent κ ν) (key : κ) :
    (m.mapKeys f).get? (f key) = m.get? key := by
  rw [get?, find?_mapKeys hf, Option.map_map]
  rfl

theorem touch_mapKeys (hf : Function.Injective f) (m : Recent κ ν) (key : κ) :
    (m.mapKeys f).touch (f key) = (m.touch key).mapKeys f := by
  unfold touch
  rw [find?_mapKeys hf]
  cases m.entries.find? fun e => e.1 = key with
  | none => rfl
  | some e =>
    simp only [Option.map_some]
    rw [filter_mapKeys hf]
    rfl

/-- What is forgotten to make room depends on the keys only as far as they are told apart. -/
theorem insert_mapKeys (hf : Function.Injective f) (m : Recent κ ν) (key : κ) (value : ν) :
    (m.mapKeys f).insert (f key) value = (m.insert key value).mapKeys f := by
  unfold insert
  rw [filter_mapKeys hf]
  simp only [mapKeys, List.map_take, List.map_cons]

end Recent

/-! ### Steps of a search -/

variable {j n : Nat}

/-- The goal for the states with one of them once more. -/
def Goal.echo (j : Nat) (goal : Goal) : Goal := { goal with spec := goal.spec.echo j }

theorem Goal.echo_injective : Function.Injective (Goal.echo j) := by
  intro goal goal' h
  obtain ⟨symbol, depth, spec⟩ := goal
  obtain ⟨symbol', depth', spec'⟩ := goal'
  simp only [Goal.echo, Goal.mk.injEq] at h ⊢
  exact ⟨h.1, h.2.1, Spec.echo_injective h.2.2⟩

namespace Search

/-- One search has counted what the other has, by the same clock, and remembers for the echo of a goal
what that remembers for the goal. -/
structure Echoes (j n : Nat) (s t : Search) : Prop where
  budget : t.budget = s.budget
  known : t.known = s.known.mapKeys (Goal.echo j)
  clusterer : s.clusterer.Echoes j n t.clusterer

theorem lockstep_get : Lockstep (Echoes j n) (get : SearchM Search) get (Echoes j n) :=
  fun _ _ h => ⟨h, .some h⟩

theorem lockstep_modify {f g : Search → Search}
    (h : ∀ s t, s.Echoes j n t → (f s).Echoes j n (g t)) :
    Lockstep (Echoes j n) (modify f : SearchM Unit) (modify g) Eq :=
  fun s t hst => ⟨h s t hst, .some rfl⟩

theorem lockstep_throw {α : Type} {e : SynthesisError} {post : α → α → Prop} :
    Lockstep (Echoes j n) (throw e : SearchM α) (throw e) post :=
  fun _ _ h => ⟨h, .none⟩

/-- The bound is passed at the same count. -/
theorem lockstep_tick : Lockstep (Echoes j n) tick tick Eq := by
  refine .bind (lockstep_modify fun s t h => ⟨congrArg Budget.tick h.budget, h.known, h.clusterer⟩)
    fun _ _ _ => .bind lockstep_get fun s t h => ?_
  rw [h.budget]
  split
  · exact lockstep_throw
  · exact .pure rfl

theorem lockstep_tell (e e' : Event) : Lockstep (Echoes j n) (tell e) (tell e') Eq :=
  lockstep_modify fun _ _ h => ⟨h.budget, h.known, h.clusterer⟩

theorem lockstep_clustering {α β : Type} {step : StateM Clusterer α} {step' : StateM Clusterer β}
    {post : α → β → Prop} (h : Lockstep (Clusterer.Echoes j n) step step' post) :
    Lockstep (Echoes j n) (clustering step) (clustering step') post := by
  intro s t hst
  obtain ⟨hc, hab⟩ := h _ _ hst.clusterer
  exact ⟨⟨hst.budget, hst.known, hc⟩, hab⟩

theorem lockstep_fresh : Lockstep (Echoes j n) fresh fresh Eq :=
  lockstep_clustering Clusterer.lockstep_fresh

/-- What is made with an unused label has the same label in both. -/
theorem lockstep_make {α : Type} (make : Nat → α) :
    Lockstep (Echoes j n) (do pure (make (← fresh))) (do pure (make (← fresh))) Eq :=
  .bind lockstep_fresh fun _ _ hl => .pure (congrArg make hl)

/-- For a spec over all states the one step finds what the other finds for the echo of the spec. -/
def Alike {α : Type} (j n : Nat) (step step' : Spec → SearchM α) : Prop :=
  ∀ spec, spec.length = n → Lockstep (Echoes j n) (step spec) (step' (spec.echo j)) Eq

theorem alike_literals : Alike j n literals literals := by
  intro spec _
  unfold literals
  rw [Spec.common_echo]
  exact lockstep_make _

/-- What is remembered for the goal is remembered for its echo, and what is built is built for
both. -/
theorem lockstep_remembered (goal : Goal) {build build' : SearchM Graph}
    (h : Lockstep (Echoes j n) build build' Eq) :
    Lockstep (Echoes j n) (remembered goal build) (remembered (goal.echo j) build') Eq := by
  have hu : (goal.echo j).spec.isUnsatisfiable = goal.spec.isUnsatisfiable :=
    Spec.isUnsatisfiable_echo _
  unfold remembered
  rw [hu]
  split
  · exact lockstep_make _
  refine .bind lockstep_get fun s t hst => ?_
  rw [hst.known, Recent.get?_mapKeys Goal.echo_injective]
  split
  · refine .bind (lockstep_modify fun s t hst => ⟨hst.budget, ?_, hst.clusterer⟩)
      fun _ _ _ => .pure rfl
    rw [hst.known]
    exact Recent.touch_mapKeys Goal.echo_injective _ _
  · refine .bind lockstep_tick fun _ _ _ => .bind h fun space space' hspace => ?_
    subst hspace
    refine .bind (lockstep_modify fun s t hst => ⟨hst.budget, ?_, hst.clusterer⟩)
      fun _ _ _ => .pure rfl
    rw [hst.known]
    exact Recent.insert_mapKeys Goal.echo_injective _ _ _

/-! ### Operators and levels -/

theorem lookup_mapValue {α β γ : Type} [BEq α] (f : β → γ) (entries : List (α × β)) (a : α) :
    (entries.map fun e => (e.1, f e.2)).lookup a = (entries.lookup a).map f := by
  induction entries with
  | nil => rfl
  | cons e entries ih =>
    rw [List.map_cons, List.lookup_cons, List.lookup_cons, ih]
    split <;> rfl

variable {states : List Input} {lower lower' : Symbol → Spec → SearchM Graph}

/-- The joins found for an operator are the same, given that what is found one level deeper is. The
values chosen so far are echoes, one for each state, and so the specs found from them are. -/
theorem lockstep_params (o : Operator) {spec : Spec} (hs : spec.length = states.length)
    (hl : ∀ symbol, Alike j states.length (lower symbol) (lower' symbol))
    (searched : List (Nat × Symbol × Witness)) (children : List Graph)
    (chosen : List (Nat × List Value))
    (hc : ∀ i values, chosen.lookup i = some values → values.length = states.length) :
    Lockstep (Echoes j states.length) (params states lower o spec searched children chosen)
      (params (echo j states) lower' o (spec.echo j) searched children
        (chosen.map fun e => (e.1, echo j e.2))) Eq := by
  induction searched generalizing children chosen with
  | nil => exact lockstep_make fun l => [Space.joinOf l o.op children]
  | cons param rest ih =>
    obtain ⟨i, symbol, w⟩ := param
    unfold params
    simp only [lookup_mapValue, w.spec?_echo hs hc]
    cases hw : w.spec? states spec (chosen.lookup ·) with
    | none => exact .pure rfl
    | some paramSpec =>
      have hparam := Witness.length_spec? hs hc hw
      simp only [Option.map_some, Spec.isUnsatisfiable_echo]
      split
      · exact .pure rfl
      refine .bind (hl symbol paramSpec hparam) fun space space' hspace => ?_
      subst hspace
      split
      · exact .pure rfl
      split
      · refine .bind (lockstep_clustering (Space.lockstep_cluster states space))
          fun cs cs' hcs => ?_
        obtain ⟨hlen, rfl⟩ := hcs
        rw [List.mapM_map]
        refine .bind (.mapM_eq fun c hmem => .bind lockstep_tick fun _ _ _ =>
          ih (children ++ [c.space]) ((i, c.values) :: chosen) fun i' values hlookup => ?_)
          fun joins joins' hjoins => .pure (by rw [hjoins])
        -- What was chosen last is a cluster's values, what was chosen before is as it was.
        rw [List.lookup_cons] at hlookup
        split at hlookup
        · cases hlookup
          exact hlen c hmem
        · exact hc i' values hlookup
      · exact ih (children ++ [space]) chosen hc

theorem alike_operator (o : Operator)
    (hl : ∀ symbol, Alike j states.length (lower symbol) (lower' symbol)) :
    Alike j states.length (operator states lower o) (operator (echo j states) lower' o) := by
  intro spec hs
  refine .bind lockstep_fresh fun l l' hlabel => ?_
  subst hlabel
  refine .bind (lockstep_params o hs hl o.searched [.inputLeaf l] [] (by simp))
    fun joins joins' hjoins => ?_
  subst hjoins
  split
  · exact .bind (lockstep_tell _ _) fun _ _ _ => lockstep_make _
  · exact lockstep_make _

theorem lockstep_level {operators? operators'? : Option (Op → Spec → SearchM Graph)} (goal : Goal)
    (hs : goal.spec.length = n)
    (ho : Option.Rel (fun operators operators' => ∀ op, Alike j n (operators op) (operators' op))
      operators? operators'?) :
    Lockstep (Echoes j n) (level operators? goal) (level operators'? (goal.echo j)) Eq := by
  refine lockstep_remembered goal ?_
  obtain ⟨symbol, depth, spec⟩ := goal
  cases symbol with
  | input => exact lockstep_make _
  | constant => exact alike_literals spec hs
  | start =>
    refine .bind (.mapM_eq fun production _ => ?_) fun members members' hmembers => ?_
    · cases production with
      | literal =>
        refine .bind (lockstep_remembered ⟨.constant, depth, spec⟩ (alike_literals spec hs))
          fun space space' hspace => .pure (by rw [hspace])
      | op op =>
        cases ho with
        | none => exact .pure rfl
        | some h => exact .bind (h op spec hs) fun space space' hspace => .pure (by rw [hspace])
    · subst hmembers
      exact lockstep_make _

/-- **Over an echo of the states a search learns the same graph**, for the echo of the spec, with
the same count of expansions. -/
theorem alike_learn (states : List Input) (depth : Nat) (symbol : Symbol) :
    Alike j states.length (learn states depth symbol) (learn (echo j states) depth symbol) := by
  induction depth generalizing symbol with
  | zero => exact fun spec hs => lockstep_level ⟨symbol, 0, spec⟩ hs .none
  | succ depth ih =>
    exact fun spec hs => lockstep_level ⟨symbol, depth + 1, spec⟩ hs
      (.some fun op => alike_operator (.of op) ih)

/-- Two searches that begin have learned nothing. -/
theorem echoes_start (limits : Limits) (clock : Clock) :
    (start limits clock).Echoes j n (start limits clock) := by
  refine ⟨rfl, rfl, ⟨rfl, fun l => ?_⟩⟩
  have hnone : (start limits clock).clusterer.known[l]? = none := by simp [start]
  rw [hnone]
  exact .none

end Search

/-- **An example that stands there twice is as good as once**: by the same clock the search counts as
many expansions, and ends with the same space if it ends with one. -/
theorem explore_echo {examples : List Example} (hne : examples ≠ []) (config : Config)
    (clock : Clock) :
    (explore (echo j examples) config clock).expansions =
        (explore examples config clock).expansions ∧
      (versionSpace (echo j examples) config clock).toOption =
        (versionSpace examples config clock).toOption := by
  cases examples with
  | nil => exact absurd rfl hne
  | cons e examples =>
    let states := (e :: examples).map (·.input)
    have h := Search.alike_learn (j := j) states config.limits.maxDepth .start _ Spec.length_exact
    rw [echo_map, ← Spec.exact_echo, echo_map] at h
    have hstart := Search.echoes_start (j := j) (n := states.length) config.limits clock
    exact ⟨congrArg Budget.spent (h _ _ hstart).1.budget, h.result_eq hstart⟩

end ArithLearn
