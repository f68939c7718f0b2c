/-
The clusterer finds the parts of a space, whatever it has been asked before.

`Clusterer.Fits` is the invariant: what is known for a label in use is the
clusters of the node it stands for (`ClustersOf`). Every step of the
clusterer keeps it, and so `yields_cluster`: from a fitting state, the
clusters of a graph have the shapes `Space.parts` gives, no matter which of
them were known.
-/
import ArithLearn.Proofs.Choice
import ArithLearn.Proofs.Registry
import ArithLearn.Proofs.Space.Parts

namespace ArithLearn

/-- The clusters have the shapes of the parts of `s`, and their labels are in use. -/
structure ClustersOf (states : List Input) (s : Space Unit) (r : Registry) (cs : List Cluster) :
    Prop where
  shapes : cs.map Cluster.shape = s.parts states
  held : ∀ c ∈ cs, r.Holds c.space

theorem ClustersOf.mono {states : List Input} {s : Space Unit} {r r' : Registry}
    {cs : List Cluster} (hr : r ≤ r') (h : ClustersOf states s r cs) : ClustersOf states s r' cs :=
  ⟨h.shapes, fun c hc => (h.held c hc).mono hr⟩

/-- The supply of labels is that of the registry, and what is known is right for it. -/
structure Clusterer.Fits (states : List Input) (r : Registry) (c : Clusterer) : Prop where
  next : c.next = r.next
  known : ∀ l cs, c.known[l]? = some cs → l < r.next ∧ ClustersOf states (r.shapeOf l) r cs

namespace Clusterer

variable {states : List Input} {r : Registry}

theorem Fits.mono_known {r' : Registry} {c : Clusterer} (h : c.Fits states r) (hr : r ≤ r') {l : Nat}
    {cs : List Cluster} (hl : c.known[l]? = some cs) :
    l < r'.next ∧ ClustersOf states (r'.shapeOf l) r' cs := by
  obtain ⟨lt, hcs⟩ := h.known l cs hl
  rw [hr.2 l lt]
  exact ⟨Nat.lt_of_lt_of_le lt hr.1, hcs.mono hr⟩

/-- A label can be taken for a node of any shape. -/
theorem yields_fresh (s : Space Unit) :
    Yields (Fits states) r fresh fun r' l => l < r'.next ∧ r'.shapeOf l = s := by
  intro c hc
  refine ⟨r.register s, r.le_register s, ⟨?_, ?_⟩, ?_⟩
  · show c.next + 1 = r.next + 1
    rw [hc.next]
  · exact fun l cs hl => hc.mono_known (r.le_register s) hl
  · intro l hl
    cases hl
    show c.next < r.next + 1 ∧ (r.register s).shapeOf c.next = s
    rw [hc.next]
    exact ⟨Nat.lt_succ_self _, r.shapeOf_register s⟩

/-- A memory that is filled with what is right stays right. -/
theorem yields_once {label : Nat} {s : Space Unit} {compute : StateM Clusterer (List Cluster)}
    (lt : label < r.next) (shape : r.shapeOf label = s)
    (h : Yields (Fits states) r compute (ClustersOf states s)) :
    Yields (Fits states) r (once label compute) (ClustersOf states s) := by
  subst shape
  unfold once
  refine .bind .get fun r' c _ hc => ?_
  obtain ⟨rfl, hc⟩ := hc
  cases hk : c.known[label]? with
  | some cs => exact .pure (hc.known label cs hk).2
  | none =>
    refine .bind h fun r₁ cs hr₁ hcs => ?_
    have hlabel : label < r₁.next ∧ ClustersOf states (r₁.shapeOf label) r₁ cs := by
      rw [hr₁.2 label lt]
      exact ⟨Nat.lt_of_lt_of_le lt hr₁.1, hcs⟩
    exact .bind (.modify fun c hc => ⟨hc.next, forall_getElem?_insert hc.known hlabel⟩)
      fun r₂ _ hr₂ _ => .pure (hcs.mono hr₂)

/-! ### Steps of the clusterer -/

/-- What a step that gives clusters has to give: these shapes, and labels in use. -/
def Made (parts : List Part) (r : Registry) (cs : List Cluster) : Prop :=
  cs.map Cluster.shape = parts ∧ ∀ c ∈ cs, r.Holds c.space

theorem groupByKey_map {κ β γ : Type} [Ord κ] [Std.TransOrd κ] [DecidableEq κ] (f : β → γ)
    (entries : List (κ × β)) :
    groupByKey (entries.map fun e => (e.1, f e.2)) =
      (groupByKey entries).map fun g => (g.1, g.2.map f) := by
  simp [groupByKey, List.filter_map, Function.comp_def]

/-- Results that agree one by one agree as lists. -/
theorem made_of_forall₂ {α : Type} {parts : α → Part} {xs : List α} {cs : List Cluster}
    (h : List.Forall₂ (fun x c => c.shape = parts x ∧ r.Holds c.space) xs cs) :
    Made (xs.map parts) r cs := by
  induction h with
  | nil => exact ⟨rfl, by simp⟩
  | cons hc _ ih => exact ⟨by simp [hc.1, ih.1], by simpa using ⟨hc.2, ih.2⟩⟩

theorem made_of_options {α : Type} {parts : α → Option Part} {xs : List α}
    {os : List (Option Cluster)}
    (h : List.Forall₂ (fun x o => o.map Cluster.shape = parts x ∧ ∀ c, o = some c → r.Holds c.space)
      xs os) :
    Made (xs.filterMap parts) r (os.filterMap id) := by
  induction h with
  | nil => exact ⟨rfl, by simp⟩
  | @cons x o xs os ho _ ih =>
    cases o with
    | none =>
      rw [List.filterMap_cons_none ho.1.symm, List.filterMap_cons_none rfl]
      exact ih
    | some c =>
      rw [List.filterMap_cons_some ho.1.symm, List.filterMap_cons_some (f := id) rfl]
      exact ⟨by rw [List.map_cons, ih.1], List.forall_mem_cons.2 ⟨ho.2 c rfl, ih.2⟩⟩

theorem held_mono {p : Part} {c : Cluster} {r' : Registry} (hr : r ≤ r')
    (h : c.shape = p ∧ r.Holds c.space) : c.shape = p ∧ r'.Holds c.space :=
  ⟨h.1, h.2.mono hr⟩

theorem yields_unite {shared : Bool} {cs : List Cluster} (h : ∀ c ∈ cs, r.Holds c.space) :
    Yields (Fits states) r (unite shared cs)
      (Made (Part.unite shared (cs.map Cluster.shape))) := by
  have hgroups : groupByKey (cs.map Cluster.shape) =
      (groupByKey (cs.map fun c => (c.values, c.space))).map fun g =>
        (g.1, g.2.map Space.shape) := by
    rw [← groupByKey_map, List.map_map]
    rfl
  unfold unite
  refine .bind (.mapM (Q := fun g r' c =>
    c.shape = (g.1, Space.unionOf () (g.2.map fun s => ⟨s.shape, shared⟩)) ∧ r'.Holds c.space)
    (fun _ _ _ _ _ => held_mono) ?_) fun r' made _ hmade => ?_
  · intro h hg r' hr
    obtain ⟨values, spaces⟩ := h
    have hspaces : ∀ s ∈ spaces, r'.Holds s := by
      intro s hs
      have hmem := (mem_of_mem_groupByKey hg).1 hs
      obtain ⟨c, hc, heq⟩ := List.mem_map.1 hmem
      cases heq
      exact (h c hc).mono hr
    refine .bind (yields_fresh (Space.unionOf () (spaces.map fun s => ⟨s.shape, shared⟩)))
      fun r'' l hr' hl => .pure ⟨?_, ?_⟩
    · simp [Cluster.shape, Space.shape_unionOf, Function.comp_def, Space.Member.shape]
    · refine .unionOf hl.1 ?_ ?_
      · rw [hl.2, Space.shape_unionOf]
        simp [Function.comp_def, Space.Member.shape]
      · intro m hm
        obtain ⟨s, hs, rfl⟩ := List.mem_map.1 hm
        exact (hspaces s hs).mono hr'
  · have hm := made_of_forall₂ hmade
    refine .pure ⟨?_, fun c hc => hm.2 c (List.mem_filter.1 hc).1⟩
    have hfilter : (made.filter fun c => !c.space.isEmpty).map Cluster.shape =
        (made.map Cluster.shape).filter fun c => !c.2.isEmpty := by
      rw [List.filter_map]
      congr 1
      exact List.filter_congr fun c _ => by simp [Cluster.shape]
    rw [hfilter, hm.1, Part.unite, hgroups, List.map_map]
    simp [Function.comp_def]

theorem yields_splitLeaf {ps : SortedSet Program} :
    Yields (Fits states) r (splitLeaf states ps) (Made (Part.splitLeaf states ps)) := by
  refine .imp (.mapM (Q := fun values r' c =>
    c.shape = (values, Space.leaf () (ps.filter fun p => p.valuesOn states = some values)) ∧
      r'.Holds c.space) (fun _ _ _ _ _ => held_mono) ?_) fun _ _ _ => made_of_forall₂
  intro values _ r' _
  refine .bind (yields_fresh (.leaf () (ps.filter fun p => p.valuesOn states = some values)))
    fun r'' l _ hl => .pure ⟨?_, .leaf hl.1 hl.2⟩
  simp [Cluster.shape]

theorem yields_assemble {op : Op} {input : Graph} {args : List Cluster} (hi : r.Holds input)
    (h : ∀ c ∈ args, r.Holds c.space) :
    Yields (Fits states) r (assemble states op input args) fun r' o =>
      o.map Cluster.shape = Part.assemble states op input.shape (args.map Cluster.shape) ∧
        ∀ c, o = some c → r'.Holds c.space := by
  have hcols : (args.map Cluster.shape).map (·.1) = args.map (·.values) := by
    simp [Cluster.shape, Function.comp_def]
  unfold assemble Part.assemble
  rw [hcols]
  cases op.valuesOn states (args.map (·.values)) with
  | none => exact .pure ⟨rfl, by simp⟩
  | some values =>
    have hshape : ∀ l, (Space.join l op (input :: args.map (·.space))).shape =
        .join () op (input.shape :: (args.map Cluster.shape).map (·.2)) := by
      simp [Cluster.shape, Function.comp_def]
    refine .bind (yields_fresh (.join () op (input.shape :: (args.map Cluster.shape).map (·.2))))
      fun r' l hr hl => .pure ⟨?_, fun c hc => ?_⟩
    · simp [Cluster.shape, Function.comp_def]
    · cases hc
      refine .join hl.1 (by rw [hl.2, hshape]) fun c hc => ?_
      rcases List.mem_cons.1 hc with rfl | hc
      · exact hi.mono hr
      · obtain ⟨d, hd, rfl⟩ := List.mem_map.1 hc
        exact (h d hd).mono hr

/-- The applications to several choices of arguments. -/
theorem yields_assembleAll {op : Op} {input : Graph} {combos : List (List Cluster)}
    (hi : r.Holds input) (h : ∀ combo ∈ combos, ∀ c ∈ combo, r.Holds c.space) :
    Yields (Fits states) r (combos.mapM (assemble states op input)) fun r' os =>
      Made (combos.filterMap fun combo =>
        Part.assemble states op input.shape (combo.map Cluster.shape)) r' (os.filterMap id) := by
  refine .imp (.mapM (Q := fun combo r' o =>
    o.map Cluster.shape = Part.assemble states op input.shape (combo.map Cluster.shape) ∧
      ∀ c, o = some c → r'.Holds c.space) ?_ ?_) ?_
  · exact fun _ _ _ _ _ hr h => ⟨h.1, fun c hc => (h.2 c hc).mono hr⟩
  · exact fun combo hcombo r' hr =>
      yields_assemble (hi.mono hr) fun c hc => (h combo hcombo c hc).mono hr
  · exact fun _ _ _ => made_of_options

/-- What is chosen from lists stands in one of them. -/
theorem mem_of_mem_choices {α : Type} {factors : List (List α)} {t : List α}
    (h : t ∈ choices factors) {a : α} (ha : a ∈ t) : ∃ xs ∈ factors, a ∈ xs :=
  exists_of_forall₂ (forall₂_of_mem_choices h) ha

end Clusterer

/-! ### Whole spaces -/

namespace Space

open Clusterer

variable {states : List Input} {r : Registry}

theorem clusterAll_eq (gs : List Graph) : clusterAll states gs = gs.mapM (cluster states) := by
  induction gs with
  | nil => rfl
  | cons g gs ih =>
    rw [clusterAll, ih, List.mapM_cons]

/-- The clusters of several graphs, given what one yields. -/
theorem yields_clusterAll {gs : List Graph} (hg : ∀ g ∈ gs, r.Holds g)
    (ih : ∀ g ∈ gs, ∀ r', r ≤ r' → r'.Holds g →
      Yields (Fits states) r' (cluster states g) (ClustersOf states g.shape)) :
    Yields (Fits states) r (clusterAll states gs) fun r' css =>
      css.map (List.map Cluster.shape) = partsAll states (gs.map shape) ∧
        ∀ cs ∈ css, ∀ c ∈ cs, r'.Holds c.space := by
  rw [clusterAll_eq]
  refine .imp (.mapM (Q := fun g => ClustersOf states g.shape)
    (fun _ _ _ _ _ => .mono) fun g hmem r' hr => ih g hmem r' hr ((hg g hmem).mono hr)) ?_
  intro r' css _ h
  induction h with
  | nil => exact ⟨rfl, by simp⟩
  | cons hcs _ ihcs =>
    obtain ⟨h1, h2⟩ := ihcs (fun g hg' => hg g (by simp [hg'])) fun g hg' => ih g (by simp [hg'])
    exact ⟨by simp [partsAll, hcs.shapes, h1], by simpa using ⟨hcs.held, h2⟩⟩

/-- **The clusters of a graph are the parts of its shape**, for every state of the clusterer in which
what is known fits. -/
theorem yields_cluster {g : Graph} (hg : r.Holds g) :
    Yields (Fits states) r (g.cluster states) (ClustersOf states g.shape) := by
  induction g using Space.induction generalizing r with
  | leaf l ps =>
    obtain ⟨lt, shape, _⟩ := hg
    rw [cluster]
    refine yields_once lt shape (.imp yields_splitLeaf fun r' cs _ h => ⟨?_, h.2⟩)
    rw [shape_leaf, parts, h.1]
  | union l ms ih =>
    obtain ⟨lt, shape, hms⟩ := hg
    rw [cluster]
    refine yields_once lt shape
      (.bind (yields_clusterAll hms fun m hm r' _ h => ih m hm h) ?_)
    intro r' css _ hcss
    have held : ∀ c ∈ css.flatten, r'.Holds c.space := by
      intro c hc
      obtain ⟨cs, hcs, hc⟩ := List.mem_flatten.1 hc
      exact hcss.2 cs hcs c hc
    refine .imp (yields_unite held) fun r'' cs _ h => ⟨?_, h.2⟩
    rw [shape_union, parts, h.1, List.map_flatten, hcss.1]
  | join l op cs ih =>
    obtain ⟨lt, shape, hcs⟩ := hg
    cases cs with
    | nil =>
      rw [cluster]
      refine yields_once lt shape (.pure ⟨?_, by simp⟩)
      simp [parts]
    | cons input params =>
      rw [cluster]
      have hparams : ∀ p ∈ params, r.Holds p := fun p hp => hcs p (by simp [children, hp])
      refine yields_once lt shape (.bind (yields_clusterAll hparams fun p hp r' _ h =>
        ih p (by simp [hp]) h) ?_)
      intro r' css hr hcss
      have hinput : r'.Holds input := (hcs input (by simp [children])).mono hr
      have held : ∀ combo ∈ choices css, ∀ c ∈ combo, r'.Holds c.space := by
        intro combo hcombo c hc
        obtain ⟨cs, hcs, hc⟩ := mem_of_mem_choices hcombo hc
        exact hcss.2 cs hcs c hc
      refine .bind (yields_assembleAll hinput held) fun r'' os _ hos => ?_
      refine .imp (yields_unite hos.2) fun r₃ cs _ h => ⟨?_, h.2⟩
      rw [shape_join, List.map_cons, parts, h.1, hos.1, ← hcss.1, choices_map, List.filterMap_map]
      rfl

end Space

end ArithLearn
