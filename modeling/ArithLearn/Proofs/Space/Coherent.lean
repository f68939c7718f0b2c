/-
Graphs whose labels are identities.

`Coherent` says it of the nodes alone: where two of them have one label,
they unfold to one tree. That is what a `Registry` of all their labels
needs (`exists_holds`), and what it gives (`coherent_of_holds`).
-/
import ArithLearn.Proofs.Registry

namespace ArithLearn

namespace Space

variable {ι : Type}

/-- The nodes of a space: the topmost one, and what is reached from it through children. -/
inductive Node (s : Space ι) : Space ι → Prop
  | top : Node s s
  | child {t c : Space ι} (ht : Node s t) (hc : c ∈ t.children) : Node s c

/-- What is reached from a child is reached from the top. -/
theorem Node.of_child {s c t : Space ι} (hc : c ∈ s.children) (ht : Node c t) : Node s t := by
  induction ht with
  | top => exact .child .top hc
  | child _ hd ih => exact .child ih hd

/-- A node is the top, or is reached from a child of it. -/
theorem Node.eq_or_child {s t : Space ι} (ht : Node s t) : s = t ∨ ∃ c ∈ s.children, Node c t := by
  induction ht with
  | top => exact .inl rfl
  | child _ hd ih =>
    rcases ih with rfl | ⟨c, hc, ht⟩
    · exact .inr ⟨_, hd, .top⟩
    · exact .inr ⟨c, hc, .child ht hd⟩

end Space

open Space

/-- Nodes of these graphs that have one label have one shape. -/
def Coherent (gs : List Graph) : Prop :=
  ∀ g ∈ gs, ∀ g' ∈ gs, ∀ s s', Node g s → Node g' s' → s.label = s'.label → s.shape = s'.shape

namespace Registry

/-- A registry that holds a graph has all its nodes. -/
theorem Holds.node {r : Registry} {g s : Graph} (h : r.Holds g) (hs : Node g s) : r.Holds s := by
  induction hs with
  | top => exact h
  | child _ hc ih =>
    obtain ⟨_, _, hcs⟩ := ih
    exact hcs _ hc

/-- To hold a graph it is enough to have its nodes, one by one. -/
theorem holds_of_nodes {r : Registry} {g : Graph}
    (h : ∀ s, Node g s → s.label < r.next ∧ r.shapeOf s.label = s.shape) : r.Holds g := by
  induction g using Space.children_induction with
  | step g ih =>
    obtain ⟨lt, shape⟩ := h g .top
    exact .intro lt shape fun c hc => ih c hc fun s hs => h s (.of_child hc hs)

end Registry

theorem coherent_of_holds {r : Registry} {gs : List Graph} (h : ∀ g ∈ gs, r.Holds g) :
    Coherent gs := by
  intro g hg g' hg' s s' hs hs' heq
  obtain ⟨_, shape, _⟩ := (h g hg).node hs
  obtain ⟨_, shape', _⟩ := (h g' hg').node hs'
  rw [← shape, ← shape', heq]

/-- Labels that tell nodes apart, all below a bound, can be registered. -/
theorem exists_holds {gs : List Graph} (h : Coherent gs) {next : Nat}
    (lt : ∀ g ∈ gs, ∀ s, Node g s → s.label < next) :
    ∃ r : Registry, r.next = next ∧ ∀ g ∈ gs, r.Holds g := by
  -- The shape of some node with the label, where there is one.
  have hshape : ∀ l, ∃ shape : Space Unit, ∀ g ∈ gs, ∀ s, Node g s → s.label = l → shape = s.shape := by
    intro l
    by_cases hl : ∃ g ∈ gs, ∃ s, Node g s ∧ s.label = l
    · obtain ⟨g, hg, s, hs, rfl⟩ := hl
      exact ⟨s.shape, fun g' hg' s' hs' heq => h g hg g' hg' s s' hs hs' heq.symm⟩
    · exact ⟨.union () [], fun g hg s hs heq => absurd ⟨g, hg, s, hs, heq⟩ hl⟩
  choose shapeOf hshapeOf using hshape
  refine ⟨⟨next, shapeOf⟩, rfl, fun g hg => Registry.holds_of_nodes fun s hs => ?_⟩
  exact ⟨lt g hg s hs, hshapeOf s.label g hg s hs rfl⟩

/-- One bound will do for several graphs that have one each. -/
theorem exists_label_lt_all {gs : List Graph}
    (h : ∀ g ∈ gs, ∃ next, ∀ s, Node g s → s.label < next) :
    ∃ next, ∀ g ∈ gs, ∀ s, Node g s → s.label < next := by
  induction gs with
  | nil => exact ⟨0, by simp⟩
  | cons g gs ih =>
    obtain ⟨n, hn⟩ := h g (by simp)
    obtain ⟨m, hm⟩ := ih fun g' hg' => h g' (by simp [hg'])
    refine ⟨max n m, List.forall_mem_cons.2 ⟨fun s hs => ?_, fun g' hg' s hs => ?_⟩⟩
    · exact Nat.lt_of_lt_of_le (hn s hs) (Nat.le_max_left _ _)
    · exact Nat.lt_of_lt_of_le (hm g' hg' s hs) (Nat.le_max_right _ _)

/-- The labels of a graph are bounded. -/
theorem exists_label_lt (g : Graph) : ∃ next, ∀ s, Node g s → s.label < next := by
  induction g using Space.children_induction with
  | step g ih =>
    obtain ⟨n, hn⟩ := exists_label_lt_all ih
    refine ⟨max n (g.label + 1), fun s hs => ?_⟩
    rcases hs.eq_or_child with rfl | ⟨c, hc, hs⟩
    · omega
    · have := hn c hc s hs
      omega

end ArithLearn
