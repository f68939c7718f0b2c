/-
No program is learned twice.

Learned spaces are unambiguous at every node (`Plain.unambiguous_learn`).
The members of a start union differ in what their programs begin with. The
joins of one operator differ in their first argument: each stands over a
part of the left operand, and parts differ in their values. Splitting a
space keeps that (`unambiguous_of_mem_parts`), so it goes for all that can
be got from a learned space by taking children and clusters, as often and
from whichever clusterer one likes (`learn_unambiguous`).
-/
import ArithLearn.Proofs.Search.Cluster
import ArithLearn.Proofs.Search.Contents
import ArithLearn.Proofs.Space.Unambiguous

namespace ArithLearn

open Space

/-! ### The plain search -/

/-- What a program begins with. -/
def Program.production? : Program → Option Production
  | .input => none
  | .lit _ => some .literal
  | .app op _ => some (.op op)

namespace Plain

variable {states : List Input} {lower : Symbol → Spec → Space Unit} {o : Operator} {spec : Spec}
  {searched : List (Nat × Symbol × Witness)} {cs : List (Space Unit)}
  {chosen : List (Nat × List Value)} {s t : Space Unit} {p : Program}

theorem unambiguous_params (happlied : ∀ symbol spec, (lower symbol spec).Applied)
    (hlower : ∀ symbol spec, (lower symbol spec).Unambiguous) (hcs : ∀ c ∈ cs, c.Unambiguous)
    (hs : s ∈ params states lower o spec searched cs chosen) : s.Unambiguous := by
  obtain ⟨operands, rfl, hall⟩ := exists_of_mem_params hs
  refine .joinOf (List.forall_mem_append.2 ⟨hcs, fun c hc => ?_⟩)
  obtain ⟨_, _, spec, _, rfl | ⟨part, hpart, rfl⟩⟩ := exists_of_forall₂ hall.flip hc
  · exact hlower _ _
  · exact unambiguous_of_mem_parts (happlied _ _) (hlower _ _) hpart

/-- The programs of a join are applications of the operator, and what stands there already has the
argument of its place. -/
theorem exists_argument (hs : s ∈ params states lower o spec searched (cs ++ [t]) chosen)
    (hp : s.contains p) :
    ∃ args a, p = .app o.op args ∧ args[cs.length]? = some a ∧ t.contains a := by
  obtain ⟨operands, rfl, _⟩ := exists_of_mem_params hs
  rw [contains_joinOf, contains_join] at hp
  obtain ⟨args, rfl, hall⟩ := hp
  have hlt : cs.length < (cs ++ [t] ++ operands).length := by simp
  have hlt' : cs.length < args.length := hall.length_eq ▸ hlt
  refine ⟨args, args[cs.length], rfl, List.getElem?_eq_getElem hlt', ?_⟩
  simpa using hall.get hlt hlt'

/-- The joins found for an operator have no program in common: those over different parts of an
operand differ in the values of this argument. -/
theorem apart_params (happlied : ∀ symbol spec, (lower symbol spec).Applied) :
    (params states lower o spec searched cs chosen).Pairwise Apart := by
  induction searched generalizing cs chosen with
  | nil => exact List.pairwise_singleton _ _
  | cons param rest ih =>
    obtain ⟨i, symbol, w⟩ := param
    unfold params
    split
    · exact .nil
    split
    · exact .nil
    split
    · exact .nil
    split
    · refine List.pairwise_flatMap.2 ⟨fun c _ => ih, ?_⟩
      refine (apart_parts (happlied _ _)).imp fun {c d} happart s hs t ht p hp hp' => ?_
      obtain ⟨args, a, rfl, ha, hca⟩ := exists_argument hs hp
      obtain ⟨args', b, heq, hb, hdb⟩ := exists_argument ht hp'
      obtain rfl := (Program.app.inj heq).2
      obtain rfl : a = b := Option.some.inj (ha.symm.trans hb)
      exact happart a hca hdb
    · exact ih

theorem unambiguous_operator (happlied : ∀ symbol spec, (lower symbol spec).Applied)
    (hlower : ∀ symbol spec, (lower symbol spec).Unambiguous) :
    (operator states lower o spec).Unambiguous := by
  refine .unionOf (List.forall_mem_map.2 fun s hs => ?_) (List.pairwise_map.2 ?_)
  · exact unambiguous_params happlied hlower (List.forall_mem_singleton.2 (.leaf _ _)) hs
  · exact apart_params happlied

theorem production_of_contains_operator (hp : (operator states lower o spec).contains p) :
    p.production? = some (.op o.op) := by
  obtain ⟨s, hs, hp⟩ := contains_operator.1 hp
  obtain ⟨operands, rfl, _⟩ := exists_of_mem_params hs
  rw [contains_joinOf, contains_join] at hp
  obtain ⟨args, rfl, _⟩ := hp
  rfl

section Levels

variable {operators? : Option (Op → Spec → Space Unit)}

/-- The programs of a member begin with its production. -/
theorem production_of_mem_members {production : Production} {m : Member Unit}
    (ho : ∀ operators, operators? = some operators → ∀ op p, (operators op spec).contains p →
      p.production? = some (.op op))
    (hm : m ∈ members operators? spec production) (hp : m.space.contains p) :
    p.production? = some production := by
  cases production with
  | literal =>
    obtain rfl := List.mem_singleton.1 hm
    obtain ⟨k, _, rfl⟩ := contains_literals.1 hp
    rfl
  | op op =>
    cases operators? with
    | none => cases hm
    | some operators =>
      obtain rfl := List.mem_singleton.1 hm
      exact ho operators rfl op p hp

theorem apart_members (ho : ∀ operators, operators? = some operators → ∀ op p,
      (operators op spec).contains p → p.production? = some (.op op)) :
    (Symbol.start.productions.flatMap (members operators? spec)).Pairwise
      fun m m' => m.space.Apart m'.space := by
  have hnodup : Symbol.start.productions.Nodup := by decide
  refine List.pairwise_flatMap.2 ⟨fun production _ => ?_, hnodup.imp fun hne m hm m' hm' p hp hp' => ?_⟩
  · cases production with
    | literal => exact List.pairwise_singleton _ _
    | op op =>
      cases operators? with
      | none => exact .nil
      | some operators => exact List.pairwise_singleton _ _
  · have h := production_of_mem_members ho hm hp
    rw [production_of_mem_members ho hm' hp'] at h
    exact hne (Option.some.inj h).symm

theorem unambiguous_level {symbol : Symbol}
    (hu : ∀ operators, operators? = some operators → ∀ op, (operators op spec).Unambiguous)
    (ho : ∀ operators, operators? = some operators → ∀ op p, (operators op spec).contains p →
      p.production? = some (.op op)) :
    (level operators? symbol spec).Unambiguous := by
  unfold level
  split
  · exact .union (by simp) .nil
  cases symbol with
  | input => exact .union (by simp) .nil
  | constant => exact .leaf _ _
  | start =>
    refine .unionOf (fun m hm => ?_) (apart_members ho)
    rcases mem_members.1 hm with rfl | ⟨op, operators, h, rfl⟩
    · exact .leaf _ _
    · exact hu operators h op

end Levels

theorem unambiguous_learn (depth : Nat) (symbol : Symbol) (spec : Spec) :
    (learn states depth symbol spec).Unambiguous := by
  induction depth generalizing symbol spec with
  | zero => exact unambiguous_level (by simp) (by simp)
  | succ depth ih =>
    refine unambiguous_level (fun operators h op => ?_) fun operators h op p hp => ?_
    · cases h
      exact unambiguous_operator (applied_learn depth) ih
    · cases h
      rw [production_of_contains_operator hp, op_of]

end Plain

/-! ### Learned spaces, and what comes of them -/

namespace Search

variable {states : List Input}

/-- What comes of a graph: its nodes, its clusters, and what comes of these. -/
inductive SubSpace (states : List Input) (g : Graph) : Graph → Prop
  | self : SubSpace states g g
  | child {t s : Graph} (h : SubSpace states g t) (hs : s ∈ t.children) : SubSpace states g s
  | cluster {t : Graph} {c : Clusterer} {d : Cluster} (h : SubSpace states g t)
      (hc : Serves states c t) (hd : d ∈ ((t.cluster states).run c).1) : SubSpace states g d.space

/-- What comes of an unambiguous space is unambiguous. -/
theorem SubSpace.unambiguous {g t : Graph} (h : SubSpace states g t) (hg : g.Applied)
    (hu : g.Unambiguous) : t.Applied ∧ t.Unambiguous := by
  induction h with
  | self => exact ⟨hg, hu⟩
  | child _ hs ih => exact ⟨ih.1.child hs, ih.2.child hs⟩
  | @cluster t c d _ hc hd ih =>
    obtain ⟨r, hclusters⟩ := hc.clustersOf
    have hmem : d.shape ∈ t.shape.parts states := hclusters.shapes ▸ List.mem_map.2 ⟨d, hd, rfl⟩
    refine ⟨.of_shape (applied_of_mem_parts ih.1.shape hmem), ?_⟩
    exact unambiguous_shape.1
      (unambiguous_of_mem_parts ih.1.shape (unambiguous_shape.2 ih.2) hmem)

/-- **No program is learned twice**: a learned space lists each of its programs once, so that its
count is that of its programs, and there is one way through the graph to each. The same goes for
the clusters it is split into, and for all that comes of these. -/
theorem learn_unambiguous {s : Search} {depth : Nat} {symbol : Symbol} {spec : Spec}
    {space sub : Graph} (hs : s.Reachable states)
    (h : (attempt (learn states depth symbol spec) s).1 = .ok space)
    (hsub : SubSpace states space sub) : sub.HoldsOnce := by
  have hshape := hs.learn_eq h
  have happlied : space.Applied := .of_shape (hshape ▸ Plain.applied_learn depth symbol spec)
  have hunambiguous : space.Unambiguous :=
    unambiguous_shape.1 (hshape ▸ Plain.unambiguous_learn depth symbol spec)
  obtain ⟨hsubApplied, hsubUnambiguous⟩ := hsub.unambiguous happlied hunambiguous
  exact hsubUnambiguous.holdsOnce hsubApplied.proper

/-- There are 32 programs for six or nine of two threes, and half of them give six. -/
theorem learn_unambiguous_threes :
    let states : List Input := [[.ofNat 3, .ofNat 3]]
    let spec : Spec := ⟨[.ofList [.ofNat 6, .ofNat 9]]⟩
    let found := attempt (learn states 2 .start spec) (start {})
    ∃ space, found.1 = .ok space ∧ {p | space.contains p}.ncard = 32 ∧ space.HoldsOnce ∧
      let clusters := ((space.cluster states).run found.2.clusterer).1
      clusters.map (fun c => {p | c.space.contains p}.ncard) = [16, 16] ∧
        ∀ c ∈ clusters, c.space.HoldsOnce := by
  intro states spec found
  have hcounts : found.1.toOption.any fun space => decide (space.count = 32 ∧
      ((space.cluster states).run found.2.clusterer).1.map (·.space.count) = [16, 16]) := by
    decide +kernel
  obtain ⟨space, hspace, hcounts⟩ := exists_ok_of_any hcounts
  obtain ⟨hcount, hclusters⟩ := of_decide_eq_true hcounts
  have hstart : (start {}).Reachable states := .start {}
  have honce : space.HoldsOnce := learn_unambiguous hstart hspace .self
  have hsub : ∀ c ∈ ((space.cluster states).run found.2.clusterer).1, c.space.HoldsOnce := by
    intro c hc
    have hfound : attempt (learn states 2 .start spec) (start {}) = found := rfl
    -- From here on, what was found is not to be computed again.
    clear_value found
    have hserves : Serves states (attempt (learn states 2 .start spec) (start {})).2.clusterer space :=
      .learned hstart (hfound ▸ hspace)
    rw [hfound] at hserves
    exact learn_unambiguous hstart (hfound ▸ hspace) (.cluster .self hserves hc)
  clear_value found
  have hncard : ∀ c ∈ ((space.cluster states).run found.2.clusterer).1,
      {p | c.space.contains p}.ncard = c.space.count := by
    intro c hc
    refine ((hsub c hc).count ?_).symm
    have hmem : c.space.count ∈ [16, 16] := hclusters ▸ List.mem_map.2 ⟨c, hc, rfl⟩
    rw [show c.space.count = 16 by simpa using hmem]
    decide
  refine ⟨space, hspace, ?_, honce, ?_, hsub⟩
  · rw [← honce.count (by rw [hcount]; decide), hcount]
  · rw [← hclusters]
    exact List.map_congr_left hncard

end Search

end ArithLearn
