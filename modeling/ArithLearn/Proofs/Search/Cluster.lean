/-
The clusters of the graphs a clusterer can be given, learned ones among
them.

A clusterer serves a graph if that is at hand where it has been used, or if
it was left behind by a search that learned the graph (`Search.Serves`).
The clusters then have the shapes of the parts of the graph
(`Search.Serves.clustersOf`), so that what is known of parts carries over
(`ClustersOf.contains`).
-/
import ArithLearn.Proofs.Search.Plain
import ArithLearn.Proofs.Space.History

namespace ArithLearn

/-- Where clusters have the shapes of parts, each holds what the space holds with its values, and no
values are without one. -/
theorem ClustersOf.contains {states : List Input} {s : Space Unit} {r : Registry} {cs : List Cluster}
    (h : ClustersOf states s r cs) (hs : s.Applied) :
    (∀ c ∈ cs, c.space.isEmpty = false ∧
        ∀ p, c.space.contains p ↔ s.contains p ∧ p.valuesOn states = some c.values) ∧
      ∀ p values, s.contains p → p.valuesOn states = some values → ∃ c ∈ cs, c.values = values := by
  refine ⟨fun c hc => ?_, fun p values hp hv => ?_⟩
  · have hmem : c.shape ∈ s.parts states := h.shapes ▸ List.mem_map.2 ⟨c, hc, rfl⟩
    refine ⟨?_, fun p => ?_⟩
    · rw [← Space.isEmpty_shape]
      exact isEmpty_of_mem_parts hmem
    · rw [← Space.contains_shape]
      exact contains_part hs hmem
  · obtain ⟨d, hd, hkey, _⟩ := (offers_parts hs).2 ⟨hp, hv⟩
    rw [← h.shapes] at hd
    obtain ⟨c, hc, rfl⟩ := List.mem_map.1 hd
    exact ⟨c, hc, hkey⟩

namespace Search

variable {states : List Input}

/-- A clusterer that a graph can be given to: it has been used for graphs at hand, and this is one of
them, or it is what a search has left behind that has learned the graph. -/
inductive Serves (states : List Input) : Clusterer → Graph → Prop
  | used {gs : List Graph} {c : Clusterer} {g : Graph} (h : Clusterer.Used states gs c) (hg : g ∈ gs) :
      Serves states c g
  | learned {s : Search} (hs : s.Reachable states) {depth : Nat} {symbol : Symbol} {spec : Spec}
      {g : Graph} (h : (attempt (learn states depth symbol spec) s).1 = .ok g) :
      Serves states (attempt (learn states depth symbol spec) s).2.clusterer g

theorem Serves.exists_fits {c : Clusterer} {g : Graph} (h : Serves states c g) :
    ∃ r, c.Fits states r ∧ r.Holds g := by
  cases h with
  | used h hg =>
    obtain ⟨r, hfits, hr⟩ := h.exists_fits
    exact ⟨r, hfits, hr g hg⟩
  | @learned s hs depth symbol spec _ h =>
    obtain ⟨r, hr⟩ := hs.fits
    obtain ⟨r', _, hfits, hfound⟩ := yields_learn depth symbol spec s hr
    refine ⟨r', hfits.clusterer, (hfound g ?_).1⟩
    show (attempt (learn states depth symbol spec) s).1.toOption = some g
    rw [h]
    rfl

theorem Serves.clustersOf {c : Clusterer} {g : Graph} (h : Serves states c g) :
    ∃ r, ClustersOf states g.shape r ((g.cluster states).run c).1 := by
  obtain ⟨r, hfits, hr⟩ := h.exists_fits
  obtain ⟨r', _, _, hclusters⟩ := Space.yields_cluster hr c hfits
  exact ⟨r', hclusters _ rfl⟩

end Search

end ArithLearn
