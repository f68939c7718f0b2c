/-
The clusters of a graph, after whatever else the clusterer was asked.

`Clusterer.Used` are the states a clusterer can be in, together with the
graphs that are at hand there: those it was started for, new nodes made
over graphs at hand, and parts of graphs and clusters given out before. In
each of them the clusterer fits a registry that holds all these graphs
(`Used.exists_fits`), so that what it remembers is right whichever graph is
split next, and `Used.splits_cluster` follows from what is known of parts.
-/
import ArithLearn.Proofs.Space.Coherent
import ArithLearn.Proofs.Space.Cluster
import ArithLearn.Proofs.Space.Partition

namespace ArithLearn

/-- The clusters divide the programs by what they evaluate to. -/
structure Splits (states : List Input) (ps : List Program) (cs : List Cluster) : Prop where
  ascending : cs.Pairwise fun c d => compare c.values d.values = .lt
  length : ∀ c ∈ cs, c.values.length = states.length
  nonempty : ∀ c ∈ cs, c.space.isEmpty = false
  /-- A cluster lists the programs that are defined on every state and have its values there, each as
  often as it is among all. -/
  perm : ∀ c ∈ cs, c.space.enumerate.Perm
    (ps.filter fun p => states.map (p.eval ·) = c.values.map fun n => .ok (.defined n))
  /-- A program without a cluster is not defined on some state. -/
  covers : ∀ p ∈ ps, ∀ values : List Value,
    states.map (p.eval ·) = values.map (fun n => .ok (.defined n)) → ∃ c ∈ cs, c.values = values

/-- Clusters with the shapes of the parts of a space split it. -/
theorem ClustersOf.splits {states : List Input} {g : Graph} {r : Registry} {cs : List Cluster}
    (h : ClustersOf states g.shape r cs) (hg : g.shape.Applied) :
    Splits states g.enumerate cs := by
  have hmem : ∀ c ∈ cs, c.shape ∈ g.shape.parts states := fun c hc =>
    h.shapes ▸ List.mem_map.2 ⟨c, hc, rfl⟩
  refine ⟨?_, fun c hc => ?_, fun c hc => ?_, fun c hc => ?_, fun p hp values hv => ?_⟩
  · have hkeys : (g.shape.parts states).Pairwise fun a b => compare a.1 b.1 = .lt :=
      pairwise_parts g.shape
    rw [← h.shapes, List.pairwise_map] at hkeys
    exact hkeys
  · exact length_of_mem_parts hg (hmem c hc)
  · have hne := isEmpty_of_mem_parts (hmem c hc)
    rwa [Cluster.shape, Space.isEmpty_shape] at hne
  · have hperm := perm_enumerate_part hg (hmem c hc)
    simp only [Cluster.shape, Space.enumerate_shape] at hperm
    simpa only [Program.valuesOn_eq_some] using hperm
  · rw [← Space.enumerate_shape] at hp
    obtain ⟨d, hd, rfl⟩ := exists_part hg hp (Program.valuesOn_eq_some.2 hv)
    rw [← h.shapes] at hd
    obtain ⟨c, hc, rfl⟩ := List.mem_map.1 hd
    exact ⟨c, hc, rfl⟩

namespace Clusterer

variable {states : List Input}

/-- The graphs at hand, and the state of a clusterer that has been used for some of them. -/
inductive Used (states : List Input) : List Graph → Clusterer → Prop
  /-- Any graphs will do whose labels tell their nodes apart. -/
  | start {gs : List Graph} {next : Nat} (coherent : Coherent gs)
      (lt : ∀ g ∈ gs, ∀ s, Space.Node g s → s.label < next) : Used states gs { next }
  /-- A new node over graphs at hand takes an unused label. -/
  | node {gs : List Graph} {c : Clusterer} {g : Graph} (h : Used states gs c)
      (label : g.label = c.next) (children : ∀ s ∈ g.children, s ∈ gs) :
      Used states (g :: gs) { c with next := c.next + 1 }
  | child {gs : List Graph} {c : Clusterer} {g s : Graph} (h : Used states gs c) (hg : g ∈ gs)
      (hs : s ∈ g.children) : Used states (s :: gs) c
  | cluster {gs : List Graph} {c : Clusterer} {g : Graph} (h : Used states gs c) (hg : g ∈ gs) :
      Used states ((((g.cluster states).run c).1).map (·.space) ++ gs) ((g.cluster states).run c).2

/-- One registry holds the graphs at hand, and what is remembered is right for it. -/
theorem Used.exists_fits {gs : List Graph} {c : Clusterer} (h : Used states gs c) :
    ∃ r : Registry, c.Fits states r ∧ ∀ g ∈ gs, r.Holds g := by
  induction h with
  | start coherent lt =>
    obtain ⟨r, hnext, hr⟩ := exists_holds coherent lt
    exact ⟨r, ⟨hnext.symm, by simp⟩, hr⟩
  | @node gs c g _ label children ih =>
    obtain ⟨r, hc, hr⟩ := ih
    have hle := r.le_register g.shape
    have hnext : g.label = r.next := label.trans hc.next
    refine ⟨r.register g.shape, ⟨?_, fun l cs hl => hc.mono_known hle hl⟩, ?_⟩
    · exact congrArg (· + 1) hc.next
    · refine List.forall_mem_cons.2 ⟨?_, fun g' hg' => (hr g' hg').mono hle⟩
      refine .intro ?_ ?_ fun s hs => (hr s (children s hs)).mono hle
      · rw [hnext]
        exact Nat.lt_succ_self _
      · rw [hnext, Registry.shapeOf_register]
  | @child gs c g s _ hg hs ih =>
    obtain ⟨r, hc, hr⟩ := ih
    exact ⟨r, hc, List.forall_mem_cons.2 ⟨(hr g hg).node (.child .top hs), hr⟩⟩
  | @cluster gs c g _ hg ih =>
    obtain ⟨r, hc, hr⟩ := ih
    obtain ⟨r', hle, hc', hcs⟩ := Space.yields_cluster (hr g hg) c hc
    refine ⟨r', hc', List.forall_mem_append.2 ⟨fun s hs => ?_, fun g' hg' => (hr g' hg').mono hle⟩⟩
    obtain ⟨d, hd, rfl⟩ := List.mem_map.1 hs
    exact (hcs _ rfl).held d hd

/-- **Clustering splits a space by what its programs evaluate to, and loses none that is defined on
all states**, whatever the clusterer has been used for before. -/
theorem Used.splits_cluster {gs : List Graph} {c : Clusterer} (h : Used states gs c) {g : Graph}
    (hg : g ∈ gs) (happ : g.Applied) : Splits states g.enumerate ((g.cluster states).run c).1 := by
  obtain ⟨r, hc, hr⟩ := h.exists_fits
  obtain ⟨r', _, _, hcs⟩ := Space.yields_cluster (hr g hg) c hc
  exact (hcs _ rfl).splits happ.shape

/-- The sums of two elements, after the elements were split for themselves: of the nine sums, the
four that read no element beyond the input are kept, two of them in one cluster. -/
theorem splits_sums_of_elements :
    let states : List Input := [[.ofNat 3, .ofNat 5]]
    let input : Graph := .inputLeaf 0
    let positions : Graph := .leaf 1 (.ofList [.lit (.ofNat 0), .lit (.ofNat 1), .lit (.ofNat 7)])
    let element : Graph := .join 2 .elementAt [input, positions]
    let sum : Graph := .join 3 .sum [input, element, element]
    let used := ((element.cluster states).run { next := 4 }).2
    let clusters := ((sum.cluster states).run used).1
    Splits states sum.enumerate clusters ∧
      clusters.map (fun c => (c.values, c.space.count)) =
        [([.ofNat 6], 1), ([.ofNat 8], 2), ([.ofNat 10], 1)] := by
  intro states input positions element sum used clusters
  have hinput : Used states [input] { next := 1 } := by
    have hstart : Used states [] { next := 0 } := .start (by simp [Coherent]) (by simp)
    exact .node hstart rfl (by simp [input, Space.inputLeaf, Space.children])
  have hpositions : Used states [positions, input] { next := 2 } :=
    .node hinput rfl (by simp [positions, Space.children])
  have helement : Used states [element, positions, input] { next := 3 } :=
    .node hpositions rfl (by simp [element, Space.children])
  have hsum : Used states [sum, element, positions, input] { next := 4 } :=
    .node helement rfl (by simp [sum, Space.children])
  have hused : Used states ((((element.cluster states).run { next := 4 }).1).map (·.space) ++
      [sum, element, positions, input]) used := .cluster hsum (by simp)
  have happlied : sum.Applied := by
    have hpos : positions.Applied := .leaf _ _
    have helem : element.Applied := .join (by simpa using hpos)
    exact .join (by simpa using helem)
  exact ⟨hused.splits_cluster (by simp) happlied, by decide +kernel⟩

end Clusterer

end ArithLearn
