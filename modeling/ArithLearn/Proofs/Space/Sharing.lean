/-
Sharing is never seen from outside.

What is found at a node is remembered by its label, so a node that stands in
several places of a graph is visited once. `TreeCopy g t` says that `t` is
what `g` unfolds to, with a label of its own for every place; there is such
a copy of every graph (`treeCopy_unshare`), and it can be made whenever a
clusterer is in use (`Used.exists_unshare`). The copy ranks as the graph
does and has the same clusters (`TreeCopy.topK_cluster_eq`).

How a union of one member is written depends on whether something else
refers to the member. What `cluster` takes for granted there is so: all that
the members of a union contribute is known by then (`refers_clusterAll`),
and of the applications an operator contributes nothing known has a part
(`Used.not_refers_assemble`).
-/
import ArithLearn.Proofs.Ranking.Offers
import ArithLearn.Proofs.Space.History
import Mathlib.Data.List.Pairwise

namespace ArithLearn

namespace Space

variable {ι : Type}

/-! ### Places -/

mutual

/-- The labels at all places of a space, what is below a place before it. A node that is shared is
listed at each of its places. -/
def places : Space ι → List ι
  | leaf l _ => [l]
  | union l ms => placesAll ms ++ [l]
  | join l _ cs => placesAll cs ++ [l]

def placesAll : List (Space ι) → List ι
  | [] => []
  | s :: ss => places s ++ placesAll ss

end

mutual

/-- What a space unfolds to, with the labels from `next` on for its places. -/
def unshare (next : Nat) : Space ι → Graph
  | leaf _ ps => leaf next ps
  | union _ ms => union (next + (placesAll ms).length) (unshareAll next ms)
  | join _ op cs => join (next + (placesAll cs).length) op (unshareAll next cs)

def unshareAll (next : Nat) : List (Space ι) → List Graph
  | [] => []
  | s :: ss => unshare next s :: unshareAll (next + (places s).length) ss

end

theorem placesAll_eq (ss : List (Space ι)) : placesAll ss = ss.flatMap places := by
  induction ss with
  | nil => rfl
  | cons s ss ih => rw [placesAll, ih, List.flatMap_cons]

theorem places_eq (s : Space ι) : s.places = placesAll s.children ++ [s.label] := by
  cases s <;> rfl

theorem label_unshare (s : Space ι) (next : Nat) :
    (s.unshare next).label = next + (placesAll s.children).length := by
  cases s <;> rfl

theorem children_unshare (s : Space ι) (next : Nat) :
    (s.unshare next).children = unshareAll next s.children := by
  cases s <;> rfl

theorem mem_places {s : Space ι} {l : ι} :
    l ∈ s.places ↔ l = s.label ∨ ∃ c ∈ s.children, l ∈ c.places := by
  rw [places_eq, placesAll_eq, List.mem_append, List.mem_flatMap, List.mem_singleton, or_comm]

/-- The places below a node are places of the space. -/
theorem Node.places_subset {s t : Space ι} (ht : Node s t) : t.places ⊆ s.places := by
  induction ht with
  | top => exact List.Subset.refl _
  | @child t c _ hc ih =>
    exact List.Subset.trans (fun l hl => mem_places.2 (.inr ⟨c, hc, hl⟩)) ih

theorem Node.label_mem_places {s t : Space ι} (ht : Node s t) : t.label ∈ s.places :=
  ht.places_subset (mem_places.2 (.inl rfl))

/-- Where no two places have one label, a label tells which node it is. -/
theorem eq_of_label_eq {s t t' : Space ι} (h : s.places.Nodup) (ht : Node s t) (ht' : Node s t')
    (heq : t.label = t'.label) : t = t' := by
  induction s using Space.children_induction with
  | step s ih =>
    rw [places_eq, placesAll_eq] at h
    obtain ⟨hchildren, _, hlabel⟩ := List.nodup_append.1 h
    obtain ⟨hnodup, hdisjoint⟩ := List.nodup_flatMap.1 hchildren
    have hbelow : ∀ c ∈ s.children, ∀ u, Node c u → u.label ≠ s.label := fun c hc u hu =>
      hlabel _ (List.mem_flatMap.2 ⟨c, hc, hu.label_mem_places⟩) _ (List.mem_singleton_self _)
    rcases ht.eq_or_child with rfl | ⟨c, hc, ht⟩
    · rcases ht'.eq_or_child with rfl | ⟨c', hc', ht'⟩
      · rfl
      · exact absurd heq.symm (hbelow c' hc' t' ht')
    · rcases ht'.eq_or_child with rfl | ⟨c', hc', ht'⟩
      · exact absurd heq (hbelow c hc t ht)
      · -- Different children have no label in common.
        have hcc : c = c' := by
          by_contra hne
          have hsymm : Std.Symm (Function.onFun List.Disjoint (places (ι := ι))) :=
            ⟨fun _ _ h l hl hl' => h hl' hl⟩
          exact hdisjoint.forall hc hc' hne ht.label_mem_places (heq ▸ ht'.label_mem_places)
        subst hcc
        exact ih c hc (hnodup c hc) ht ht'

/-! ### Copies -/

/-- The tree that a graph unfolds to, where no node has two places. -/
structure TreeCopy (g t : Graph) : Prop where
  shape : t.shape = g.shape
  places : t.places.Nodup

theorem TreeCopy.coherent {g t : Graph} (h : TreeCopy g t) : Coherent [t] := by
  intro u hu u' hu' s s' hs hs' heq
  obtain rfl := List.mem_singleton.1 hu
  obtain rfl := List.mem_singleton.1 hu'
  rw [eq_of_label_eq h.places hs hs' heq]

theorem shape_unshareAll {ss : List (Space ι)} (h : ∀ s ∈ ss, ∀ n, (s.unshare n).shape = s.shape)
    (next : Nat) : (unshareAll next ss).map shape = ss.map shape := by
  induction ss generalizing next with
  | nil => rfl
  | cons s ss ih =>
    rw [unshareAll, List.map_cons, List.map_cons, h s (by simp),
      ih fun s' hs' => h s' (List.mem_cons_of_mem s hs')]

theorem shape_unshare (s : Space ι) (next : Nat) : (s.unshare next).shape = s.shape := by
  induction s using Space.induction generalizing next with
  | leaf l ps => simp [unshare]
  | union l ms ih => rw [unshare, shape_union, shape_union, shape_unshareAll ih]
  | join l op cs ih => rw [unshare, shape_join, shape_join, shape_unshareAll ih]

theorem placesAll_unshareAll {ss : List (Space ι)}
    (h : ∀ s ∈ ss, ∀ n, (s.unshare n).places = List.range' n s.places.length) (next : Nat) :
    placesAll (unshareAll next ss) = List.range' next (placesAll ss).length := by
  induction ss generalizing next with
  | nil => rfl
  | cons s ss ih =>
    rw [unshareAll, placesAll, placesAll, h s (by simp),
      ih fun s' hs' => h s' (List.mem_cons_of_mem s hs'), List.range'_append_1, List.length_append]

theorem places_unshare (s : Space ι) (next : Nat) :
    (s.unshare next).places = List.range' next s.places.length := by
  induction s using Space.children_induction generalizing next with
  | step s ih =>
    rw [places_eq, places_eq s, children_unshare, label_unshare, placesAll_unshareAll ih,
      List.length_append, List.length_singleton, List.range'_1_concat]

/-- Every graph has a copy without sharing, with labels from any one on. -/
theorem treeCopy_unshare (g : Graph) (next : Nat) : TreeCopy g (g.unshare next) where
  shape := shape_unshare g next
  places := by
    rw [places_unshare]
    exact List.nodup_range'

end Space

open Space

namespace Clusterer

variable {states : List Input} {gs : List Graph} {c : Clusterer}

/-- Each graph at hand has labels that tell its nodes apart. -/
theorem Used.coherent (h : Used states gs c) {g : Graph} (hg : g ∈ gs) : Coherent [g] := by
  obtain ⟨r, _, hr⟩ := h.exists_fits
  exact coherent_of_holds (List.forall_mem_singleton.2 (hr g hg))

theorem Used.exists_unshareAll {ss : List Graph}
    (ih : ∀ s ∈ ss, ∀ gs c, Used states gs c → ∃ gs', Used states gs'
      { c with next := c.next + s.places.length } ∧ gs ⊆ gs' ∧ s.unshare c.next ∈ gs')
    (h : Used states gs c) : ∃ gs', Used states gs'
      { c with next := c.next + (placesAll ss).length } ∧ gs ⊆ gs' ∧
        ∀ t ∈ unshareAll c.next ss, t ∈ gs' := by
  induction ss generalizing gs c with
  | nil => exact ⟨gs, h, List.Subset.refl gs, by simp [unshareAll]⟩
  | cons s ss ihss =>
    obtain ⟨gs₁, h₁, hsub₁, hs⟩ := ih s (by simp) gs c h
    obtain ⟨gs₂, h₂, hsub₂, hss⟩ := ihss (fun s' hs' => ih s' (List.mem_cons_of_mem s hs')) h₁
    rw [placesAll, List.length_append, ← Nat.add_assoc, unshareAll]
    exact ⟨gs₂, h₂, fun g hg => hsub₂ (hsub₁ hg), List.forall_mem_cons.2 ⟨hsub₂ hs, hss⟩⟩

/-- A copy can be made node by node, at any time. -/
theorem Used.exists_unshare (h : Used states gs c) (g : Graph) : ∃ gs', Used states gs'
    { c with next := c.next + g.places.length } ∧ gs ⊆ gs' ∧ g.unshare c.next ∈ gs' := by
  induction g using Space.children_induction generalizing gs c with
  | step g ih =>
    obtain ⟨gs', h', hsub, hcs⟩ := h.exists_unshareAll fun s hs gs c hc => ih s hs hc
    rw [← children_unshare] at hcs
    rw [places_eq, List.length_append]
    exact ⟨_, h'.node (label_unshare g c.next) hcs, List.subset_cons_of_subset _ hsub,
      List.mem_cons_self⟩

end Clusterer

namespace Space

/-- **A graph and its copy without sharing rank the same programs in the same order, and have the
same clusters with spaces that unfold to the same trees**, for any number of programs and on any
states, and whatever the one clusterer and the other have been used for before. -/
theorem TreeCopy.topK_cluster_eq {g t : Graph} (ht : TreeCopy g t) (hg : Coherent [g]) :
    (∀ (σ : Type) [Score σ] (k : Nat), (t.topK k : List (Ranked σ)) = g.topK k) ∧
      ∀ (states : List Input) (gs gs' : List Graph) (c c' : Clusterer),
        Clusterer.Used states gs c → g ∈ gs → Clusterer.Used states gs' c' → t ∈ gs' →
          ((t.cluster states).run c').1.map Cluster.shape =
            ((g.cluster states).run c).1.map Cluster.shape := by
  refine ⟨fun σ _ k => ?_, fun states gs gs' c c' hc hmem hc' hmem' => ?_⟩
  · rcases Nat.eq_zero_or_pos k with rfl | hk
    · rfl
    · calc (t.topK k : List (Ranked σ))
          = t.rankWith (best k) := topK_eq ht.coherent hk
        _ = g.rankWith (best k) := by rw [← rankWith_shape t, ht.shape, rankWith_shape]
        _ = g.topK k := (topK_eq hg hk).symm
  · obtain ⟨r, hfits, hr⟩ := hc.exists_fits
    obtain ⟨r', hfits', hr'⟩ := hc'.exists_fits
    obtain ⟨_, _, _, hcs⟩ := yields_cluster (hr g hmem) c hfits
    obtain ⟨_, _, _, hcs'⟩ := yields_cluster (hr' t hmem') c' hfits'
    calc ((t.cluster states).run c').1.map Cluster.shape
        = t.shape.parts states := (hcs' _ rfl).shapes
      _ = g.shape.parts states := by rw [ht.shape]
      _ = ((g.cluster states).run c).1.map Cluster.shape := (hcs _ rfl).shapes.symm

/-- Sums of two elements where both operands are one node: unfolded, its four nodes take eight
places. Each is split by a clusterer that has split the other one before. -/
theorem topK_cluster_eq_sums :
    let states : List Input := [[.ofNat 3, .ofNat 5]]
    let input : Graph := .inputLeaf 0
    let positions : Graph := .leaf 1 (.ofList [.lit (.ofNat 0), .lit (.ofNat 1)])
    let element : Graph := .join 2 .elementAt [input, positions]
    let sum : Graph := .join 3 .sum [input, element, element]
    let copy : Graph := sum.unshare 4
    let used := ((copy.cluster states).run { next := 12 }).2
    let used' := ((sum.cluster states).run { next := 12 }).2
    let clusters := ((sum.cluster states).run used).1
    let clusters' := ((copy.cluster states).run used').1
    TreeCopy sum copy ∧ Coherent [sum] ∧ sum.size = 4 ∧ copy.size = 8 ∧
      (copy.topK 2 : List (Ranked Nat)) = sum.topK 2 ∧
      clusters'.map Cluster.shape = clusters.map Cluster.shape ∧
      clusters.map (fun c => (c.values, c.space.count)) =
        [([.ofNat 6], 1), ([.ofNat 8], 2), ([.ofNat 10], 1)] := by
  intro states input positions element sum copy used used' clusters clusters'
  have hinput : Clusterer.Used states [input] { next := 1 } := by
    have hstart : Clusterer.Used states [] { next := 0 } := .start (by simp [Coherent]) (by simp)
    exact .node hstart rfl (by simp [input, inputLeaf, children])
  have hpositions : Clusterer.Used states [positions, input] { next := 2 } :=
    .node hinput rfl (by simp [positions, children])
  have helement : Clusterer.Used states [element, positions, input] { next := 3 } :=
    .node hpositions rfl (by simp [element, children])
  have hsum : Clusterer.Used states [sum, element, positions, input] { next := 4 } :=
    .node helement rfl (by simp [sum, children])
  obtain ⟨gs, hused, hsub, hcopy⟩ := hsum.exists_unshare sum
  have hmem : sum ∈ gs := hsub List.mem_cons_self
  have htree : TreeCopy sum copy := treeCopy_unshare sum 4
  have hcoherent : Coherent [sum] := hsum.coherent List.mem_cons_self
  obtain ⟨hranked, hclusters⟩ := htree.topK_cluster_eq hcoherent
  refine ⟨htree, hcoherent, by decide +kernel, by decide +kernel, hranked Nat 2, ?_,
    by decide +kernel⟩
  exact hclusters states _ _ used used' (.cluster hused hcopy) (List.mem_append_right _ hmem)
    (.cluster hused hmem) (List.mem_append_right _ hcopy)

end Space

/-! ### References -/

namespace Clusterer

variable {α β : Type} {states : List Input} {c : Clusterer}

/-- Something known is the node or has it as a part. -/
def Refers (c : Clusterer) (l : Nat) : Prop :=
  ∃ label cs, c.known[label]? = some cs ∧ (label = l ∨ ∃ d ∈ cs, l ∈ d.space.places)

/-- What is known stays known. -/
def Keeps (x : StateM Clusterer α) : Prop :=
  ∀ (c : Clusterer) (l : Nat) (cs : List Cluster),
    c.known[l]? = some cs → (x.run c).2.known[l]? = some cs

namespace Keeps

theorem pure {a : α} : Keeps (pure a) := fun _ _ _ h => h

theorem bind {x : StateM Clusterer α} {f : α → StateM Clusterer β} (hx : Keeps x)
    (hf : ∀ a, Keeps (f a)) : Keeps (x >>= f) :=
  fun c l cs h => hf (x.run c).1 (x.run c).2 l cs (hx c l cs h)

theorem mapM {f : α → StateM Clusterer β} {xs : List α} (h : ∀ x ∈ xs, Keeps (f x)) :
    Keeps (xs.mapM f) := by
  induction xs with
  | nil => exact .pure
  | cons x xs ih =>
    rw [List.mapM_cons]
    exact .bind (h x (by simp)) fun _ => .bind (ih fun y hy => h y (by simp [hy])) fun _ => .pure

theorem fresh : Keeps fresh := fun _ _ _ h => h

theorem unite {shared : Bool} {cs : List Cluster} : Keeps (unite shared cs) :=
  .bind (.mapM fun _ _ => .bind .fresh fun _ => .pure) fun _ => .pure

theorem splitLeaf {ps : SortedSet Program} : Keeps (splitLeaf states ps) :=
  .mapM fun _ _ => .bind .fresh fun _ => .pure

theorem assemble {op : Op} {input : Graph} {args : List Cluster} :
    Keeps (assemble states op input args) := by
  unfold Clusterer.assemble
  split
  · exact .pure
  · exact .bind .fresh fun _ => .pure

end Keeps

/-- The memory is asked first, and filled last. -/
theorem run_once (label : Nat) (compute : StateM Clusterer (List Cluster)) (c : Clusterer) :
    (once label compute).run c =
      match c.known[label]? with
      | some cs => (cs, c)
      | none =>
        let (cs, c') := compute.run c
        (cs, { c' with known := c'.known.insert label cs }) := by
  cases hk : c.known[label]? <;> simp [once, hk] <;> rfl

theorem Keeps.once {label : Nat} {compute : StateM Clusterer (List Cluster)} (h : Keeps compute) :
    Keeps (once label compute) := by
  intro c l cs hl
  rw [run_once]
  cases hk : c.known[label]? with
  | some _ => exact hl
  | none =>
    -- What was known has another label, or there would have been nothing to compute.
    have hne : label ≠ l := by
      rintro rfl
      rw [hk] at hl
      cases hl
    show ((compute.run c).2.known.insert label (compute.run c).1)[l]? = some cs
    rw [Std.TreeMap.getElem?_insert, if_neg (by simpa using hne)]
    exact h c l cs hl

/-- The clusters that are given out are known. -/
theorem known_once (label : Nat) (compute : StateM Clusterer (List Cluster)) (c : Clusterer) :
    ((once label compute).run c).2.known[label]? = some ((once label compute).run c).1 := by
  rw [run_once]
  cases hk : c.known[label]? with
  | some cs => exact hk
  | none => exact Std.TreeMap.getElem?_insert_self

end Clusterer

namespace Space

open Clusterer

variable {states : List Input}

theorem keeps_clusterAll {gs : List Graph} (h : ∀ g ∈ gs, Keeps (g.cluster states)) :
    Keeps (clusterAll states gs) := by
  rw [clusterAll_eq]
  exact .mapM h

theorem keeps_cluster (g : Graph) : Keeps (g.cluster states) := by
  induction g using Space.induction with
  | leaf l ps =>
    rw [cluster]
    exact .once .splitLeaf
  | union l ms ih =>
    rw [cluster]
    exact .once (.bind (keeps_clusterAll ih) fun _ => .unite)
  | join l op cs ih =>
    cases cs with
    | nil =>
      rw [cluster]
      exact .once .pure
    | cons input params =>
      rw [cluster]
      refine .once (.bind (keeps_clusterAll fun s hs => ih s (List.mem_cons_of_mem input hs)) ?_)
      exact fun _ => .bind (.mapM fun _ _ => .assemble) fun _ => .unite

/-- Clusters that have been found are known by the label of their graph. -/
theorem known_cluster (g : Graph) (c : Clusterer) :
    ((g.cluster states).run c).2.known[g.label]? = some ((g.cluster states).run c).1 := by
  cases g with
  | leaf l ps =>
    rw [cluster]
    exact known_once l _ c
  | union l ms =>
    rw [cluster]
    exact known_once l _ c
  | join l op cs =>
    cases cs <;> rw [cluster] <;> exact known_once l _ c

theorem known_clusterAll {gs : List Graph} {c : Clusterer} {cs : List Cluster}
    (h : cs ∈ ((clusterAll states gs).run c).1) :
    ∃ l : Nat, ((clusterAll states gs).run c).2.known[l]? = some cs := by
  induction gs generalizing c with
  | nil => cases h
  | cons g gs ih =>
    rcases List.mem_cons.1 h with rfl | h
    · have hkeeps : Keeps (clusterAll states gs) := keeps_clusterAll fun s _ => keeps_cluster s
      exact ⟨g.label, hkeeps _ _ _ (known_cluster g c)⟩
    · exact ih h

/-- **What the members of a union contribute is known** when they are put together. -/
theorem refers_clusterAll (gs : List Graph) (c : Clusterer) :
    let found := (clusterAll states gs).run c
    ∀ d ∈ found.1.flatten, found.2.Refers d.space.label := by
  intro found d hd
  obtain ⟨cs, hcs, hd⟩ := List.mem_flatten.1 hd
  obtain ⟨l, hl⟩ := known_clusterAll hcs
  exact ⟨l, cs, hl, .inr ⟨d, hd, mem_places.2 (.inl rfl)⟩⟩

end Space

/-- All places of a graph that is held have labels in use. -/
theorem Registry.Holds.lt_of_mem_places {r : Registry} {g : Graph} (h : r.Holds g) {l : Nat}
    (hl : l ∈ g.places) : l < r.next := by
  induction h with
  | intro lt _ _ ih =>
    rcases mem_places.1 hl with rfl | ⟨c, hc, hl⟩
    · exact lt
    · exact ih c hc hl

namespace Clusterer

variable {states : List Input} {gs : List Graph} {c : Clusterer} {op : Op} {input : Graph}

/-- Nothing refers to a label before it is in use. -/
theorem Fits.lt_of_refers {r : Registry} (h : c.Fits states r) {l : Nat} (hl : c.Refers l) :
    l < c.next := by
  obtain ⟨label, cs, hknown, hpart⟩ := hl
  obtain ⟨hlt, hcs⟩ := h.known label cs hknown
  rw [h.next]
  rcases hpart with rfl | ⟨d, hd, hl⟩
  · exact hlt
  · exact (hcs.held d hd).lt_of_mem_places hl

theorem run_assemble (args : List Cluster) (c : Clusterer) :
    (assemble states op input args).run c =
      match op.valuesOn states (args.map (·.values)) with
      | none => (none, c)
      | some values =>
        (some ⟨values, .join c.next op (input :: args.map (·.space))⟩,
          { c with next := c.next + 1 }) := by
  unfold assemble
  cases op.valuesOn states (args.map (·.values)) <;> rfl

/-- The applications take one unused label each, and nothing else changes. -/
theorem run_assembleAll (combos : List (List Cluster)) (c : Clusterer) :
    let made := (combos.mapM (assemble states op input)).run c
    let joins := made.1.filterMap id
    made.2 = { c with next := c.next + joins.length } ∧
      joins.map (·.space.label) = List.range' c.next joins.length := by
  induction combos generalizing c with
  | nil => exact ⟨rfl, rfl⟩
  | cons combo combos ih =>
    have hcons : ((combo :: combos).mapM (assemble states op input)).run c =
        let (o, c₁) := (assemble states op input combo).run c
        let (os, c₂) := (combos.mapM (assemble states op input)).run c₁
        (o :: os, c₂) := by
      rw [List.mapM_cons]
      rfl
    rw [hcons, run_assemble]
    cases op.valuesOn states (combo.map (·.values)) with
    | none => exact ih c
    | some values =>
      obtain ⟨hnext, hlabels⟩ := ih { c with next := c.next + 1 }
      refine ⟨hnext.trans ?_, ?_⟩
      · exact congrArg (fun n => { c with next := n }) (Nat.add_right_comm c.next 1 _)
      · exact congrArg (c.next :: ·) hlabels

/-- **Nothing that is known has a part in the applications an operator contributes**, and no two of
them are one node. -/
theorem Used.not_refers_assemble (h : Used states gs c) {l : Nat} {params : List Graph}
    (hg : Space.join l op (input :: params) ∈ gs) :
    let found := (clusterAll states params).run c
    let made := ((choices found.1).mapM (assemble states op input)).run found.2
    let joins := made.1.filterMap id
    (∀ d ∈ joins, ¬ made.2.Refers d.space.label) ∧ (joins.map (·.space.label)).Nodup := by
  intro found made joins
  obtain ⟨hmade, hlabels⟩ : made.2 = { found.2 with next := found.2.next + joins.length } ∧
      joins.map (·.space.label) = List.range' found.2.next joins.length :=
    run_assembleAll (choices found.1) found.2
  refine ⟨fun d hd href => ?_, hlabels ▸ List.nodup_range'⟩
  obtain ⟨r, hfits, hr⟩ := h.exists_fits
  obtain ⟨_, _, hchildren⟩ := hr _ hg
  obtain ⟨r', _, hfits', _⟩ := yields_clusterAll
    (fun s hs => hchildren s (List.mem_cons_of_mem input hs))
    (fun s _ r' _ hs => yields_cluster hs) c hfits
  have hnew : found.2.next ≤ d.space.label := by
    have hmem : d.space.label ∈ joins.map (·.space.label) := List.mem_map_of_mem hd
    rw [hlabels] at hmem
    exact (List.mem_range'_1.1 hmem).1
  have hold : d.space.label < found.2.next := by
    rw [hmade] at href
    exact hfits'.lt_of_refers href
  exact absurd hold (Nat.not_lt.2 hnew)

end Clusterer

end ArithLearn
