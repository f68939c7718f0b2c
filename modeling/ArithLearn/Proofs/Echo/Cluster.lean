/-
Clusters over states of which one is repeated.

Two clusterers split the same graphs, the second over an echo of the states
of the first. They find the same clusters in the same order, the values of
each an echo (`Echoed`), take the same labels for them, and come to know
them at the same time (`Clusterer.Echoes`). So each step keeps the two in
lockstep, and so does the whole recursion (`lockstep_cluster`).
-/
import ArithLearn.Proofs.Lockstep
import ArithLearn.Proofs.Echo.Basic
import ArithLearn.Proofs.Space.Cluster

namespace ArithLearn

variable {j n : Nat}

/-- The cluster with its value on one state once more. -/
def Cluster.echo (j : Nat) (c : Cluster) : Cluster :=
  { c with values := ArithLearn.echo j c.values }

/-- The clusters have a value on each of `n` states, and the others are their echoes. -/
def Echoed (j n : Nat) (cs cs' : List Cluster) : Prop :=
  (∀ c ∈ cs, c.values.length = n) ∧ cs.map (Cluster.echo j) = cs'

theorem Echoed.flatten {css : List (List Cluster)} (h : ∀ cs ∈ css, ∀ c ∈ cs, c.values.length = n) :
    Echoed j n css.flatten (css.map (List.map (Cluster.echo j))).flatten := by
  refine ⟨fun c hc => ?_, List.map_flatten⟩
  obtain ⟨cs, hcs, hc⟩ := List.mem_flatten.1 hc
  exact h cs hcs c hc

/-- One clusterer has given out the labels the other has, and knows the echoes of what that knows.
Both know it of the same spaces. -/
structure Clusterer.Echoes (j n : Nat) (c c' : Clusterer) : Prop where
  next : c'.next = c.next
  known : ∀ l : Nat, Option.Rel (Echoed j n) c.known[l]? c'.known[l]?

namespace Clusterer

variable {states : List Input}

/-! ### Steps of the clusterer -/

theorem lockstep_fresh : Lockstep (Echoes j n) fresh fresh Eq :=
  fun _ _ h => ⟨⟨congrArg (· + 1) h.next, h.known⟩, .some h.next.symm⟩

theorem lockstep_insert (label : Nat) {cs cs' : List Cluster} (h : Echoed j n cs cs') :
    Lockstep (Echoes j n)
      (modify fun c => { c with known := c.known.insert label cs } : StateM Clusterer Unit)
      (modify fun c => { c with known := c.known.insert label cs' }) Eq := by
  refine .modify fun c c' hc => ⟨hc.next, fun l => ?_⟩
  show Option.Rel (Echoed j n) (c.known.insert label cs)[l]? (c'.known.insert label cs')[l]?
  rw [Std.TreeMap.getElem?_insert, Std.TreeMap.getElem?_insert]
  split
  · exact .some h
  · exact hc.known l

/-- What the one knows the other knows, and what is new to the one is new to the other. -/
theorem lockstep_once (label : Nat) {compute compute' : StateM Clusterer (List Cluster)}
    (h : Lockstep (Echoes j n) compute compute' (Echoed j n)) :
    Lockstep (Echoes j n) (once label compute) (once label compute') (Echoed j n) := by
  unfold once
  refine .bind .get fun c c' hc => ?_
  have hl := hc.known label
  generalize c.known[label]? = cs?, c'.known[label]? = cs'? at hl
  cases hl with
  | none => exact .bind h fun cs cs' hcs => .bind (lockstep_insert label hcs) fun _ _ _ => .pure hcs
  | some hcs => exact .pure hcs

theorem lockstep_unite (shared : Bool) {cs cs' : List Cluster} (h : Echoed j n cs cs') :
    Lockstep (Echoes j n) (unite shared cs) (unite shared cs') (Echoed j n) := by
  obtain ⟨hlen, rfl⟩ := h
  let entries := cs.map fun c => (c.values, c.space)
  have hkey : ∀ e ∈ entries, e.1.length = n := by
    intro e he
    obtain ⟨c, hc, rfl⟩ := List.mem_map.1 he
    exact hlen c hc
  have hgroups : groupByKey ((cs.map (Cluster.echo j)).map fun c => (c.values, c.space)) =
      (groupByKey entries).map fun g => (echo j g.1, g.2) := by
    rw [← groupByKey_mapKey fun e he e' he' => compare_echo ((hkey e he).trans (hkey e' he').symm),
      List.map_map, List.map_map]
    rfl
  unfold unite
  simp only [hgroups, List.mapM_map]
  have hmade : ∀ g ∈ groupByKey entries, Lockstep (Echoes j n)
      (do pure (⟨g.1, Space.unionOf (← fresh) (g.2.map (⟨·, shared⟩))⟩ : Cluster))
      (do pure (⟨echo j g.1, Space.unionOf (← fresh) (g.2.map (⟨·, shared⟩))⟩ : Cluster))
      fun c c' => c.values.length = n ∧ c.echo j = c' := by
    intro g hg
    obtain ⟨⟨space, hmem⟩, _⟩ := mem_groupByKey.1 hg
    exact .bind lockstep_fresh fun l l' hl => .pure ⟨hkey _ hmem, by rw [hl]; rfl⟩
  refine .bind (.mapM_view hmade) fun made made' h => .pure ⟨fun c hc => ?_, ?_⟩
  · exact h.1 c (List.mem_filter.1 hc).1
  · rw [← h.2, List.filter_map]
    rfl

theorem lockstep_splitLeaf (states : List Input) (ps : SortedSet Program) :
    Lockstep (Echoes j states.length) (splitLeaf states ps) (splitLeaf (echo j states) ps)
      (Echoed j states.length) := by
  have hlen : ∀ values ∈ ps.toList.filterMap (·.valuesOn states),
      values.length = states.length := by
    intro values hvalues
    obtain ⟨p, _, hp⟩ := List.mem_filterMap.1 hvalues
    exact Program.length_of_valuesOn hp
  have hvalues : (SortedSet.ofList (ps.toList.filterMap (·.valuesOn (echo j states)))).toList =
      (SortedSet.ofList (ps.toList.filterMap (·.valuesOn states))).toList.map (echo j) := by
    simp only [Program.valuesOn_echo]
    rw [← List.map_filterMap]
    exact SortedSet.toList_ofList_map fun values h values' h' =>
      compare_echo ((hlen values h).trans (hlen values' h').symm)
  have hpart : ∀ values, (ps.filter fun p => p.valuesOn (echo j states) = some (echo j values)) =
      ps.filter fun p => p.valuesOn states = some values := by
    intro values
    refine congrArg ps.filter (funext fun p => decide_eq_decide.2 ?_)
    rw [Program.valuesOn_echo, ← Option.map_some]
    exact (Option.map_injective echo_injective).eq_iff
  unfold splitLeaf
  rw [hvalues, List.mapM_map]
  refine .mapM_view fun values hmem => .bind lockstep_fresh fun l l' hl => .pure ⟨?_, ?_⟩
  · exact hlen values (SortedSet.mem_ofList.1 hmem)
  · rw [hl, hpart]
    rfl

/-- The application to echoes is the echo of the application. -/
theorem lockstep_assemble (op : Op) (input : Graph) {args : List Cluster}
    (h : ∀ c ∈ args, c.values.length = states.length) :
    Lockstep (Echoes j states.length) (assemble states op input args)
      (assemble (echo j states) op input (args.map (Cluster.echo j))) fun o o' =>
      (∀ c, o = some c → c.values.length = states.length) ∧ o.map (Cluster.echo j) = o' := by
  have hvalues : (args.map (Cluster.echo j)).map (·.values) =
      (args.map (·.values)).map (echo j) := by
    rw [List.map_map, List.map_map]
    rfl
  have hspaces : (args.map (Cluster.echo j)).map (·.space) = args.map (·.space) := List.map_map
  unfold assemble
  rw [hvalues, hspaces, Op.valuesOn_echo op (by simpa using h)]
  cases hop : op.valuesOn states (args.map (·.values)) with
  | none => exact .pure ⟨by simp, rfl⟩
  | some values =>
    refine .bind lockstep_fresh fun l l' hl => .pure ⟨fun c hc => ?_, by rw [hl]; rfl⟩
    cases hc
    exact (Op.valuesOn_eq_some.1 hop).1

/-- The applications to several choices of arguments. -/
theorem lockstep_assembleAll (op : Op) (input : Graph) {combos : List (List Cluster)}
    (h : ∀ combo ∈ combos, ∀ c ∈ combo, c.values.length = states.length) :
    Lockstep (Echoes j states.length) (combos.mapM (assemble states op input))
      ((combos.map (List.map (Cluster.echo j))).mapM (assemble (echo j states) op input))
      fun os os' => Echoed j states.length (os.filterMap id) (os'.filterMap id) := by
  rw [List.mapM_map]
  refine .imp (.mapM_view fun combo hcombo => lockstep_assemble op input (h combo hcombo))
    fun os os' hos => ⟨fun c hc => ?_, ?_⟩
  · obtain ⟨o, ho, rfl⟩ := List.mem_filterMap.1 hc
    exact hos.1 _ ho c rfl
  · rw [← hos.2, List.filterMap_map, List.map_filterMap]
    rfl

end Clusterer

/-! ### Whole spaces -/

namespace Space

open Clusterer

variable {states : List Input}

/-- The clusters of several graphs, given those of each. -/
theorem lockstep_clusterAll {gs : List Graph}
    (h : ∀ g ∈ gs, Lockstep (Echoes j states.length) (cluster states g)
      (cluster (echo j states) g) (Echoed j states.length)) :
    Lockstep (Echoes j states.length) (clusterAll states gs) (clusterAll (echo j states) gs)
      fun css css' => (∀ cs ∈ css, ∀ c ∈ cs, c.values.length = states.length) ∧
        css.map (List.map (Cluster.echo j)) = css' := by
  rw [clusterAll_eq, clusterAll_eq]
  exact .mapM_view h

/-- **The clusters over an echo of the states are echoes of the clusters over the states**, in the
same order and with the same labels. -/
theorem lockstep_cluster (states : List Input) (g : Graph) :
    Lockstep (Echoes j states.length) (g.cluster states) (g.cluster (echo j states))
      (Echoed j states.length) := by
  induction g using Space.induction with
  | leaf l ps =>
    rw [cluster, cluster]
    exact lockstep_once l (lockstep_splitLeaf states ps)
  | union l ms ih =>
    rw [cluster, cluster]
    refine lockstep_once l (.bind (lockstep_clusterAll ih) fun css css' hcss => ?_)
    obtain ⟨hlen, rfl⟩ := hcss
    exact lockstep_unite true (.flatten hlen)
  | join l op cs ih =>
    cases cs with
    | nil =>
      rw [cluster, cluster]
      exact lockstep_once l (.pure ⟨by simp, rfl⟩)
    | cons input params =>
      rw [cluster, cluster]
      have hparams := lockstep_clusterAll fun p hp => ih p (List.mem_cons_of_mem input hp)
      refine lockstep_once l (.bind hparams fun css css' hcss => ?_)
      obtain ⟨hlen, rfl⟩ := hcss
      rw [choices_map]
      refine .bind (lockstep_assembleAll op input fun combo hcombo c hc => ?_)
        fun os os' hos => lockstep_unite false hos
      obtain ⟨cs, hcs, hc⟩ := mem_of_mem_choices hcombo hc
      exact hlen cs hcs c hc

end Space

end ArithLearn
