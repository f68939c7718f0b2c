/-
Clusters without labels and without a memory: the parts of a shape.

`Space.parts` is what `Space.cluster` computes once nothing is shared or
remembered. Here it is shown to split a space exactly (`offers_parts`): the
part with given values holds those programs of the space that have these
values on the states, and no others. Only joins have to be as programs are
written, over the input and at least one more argument (`Applied`).
-/
import ArithLearn.Proofs.Evaluation
import ArithLearn.Proofs.Space.Contains

namespace ArithLearn

/-- The shape of a cluster: the values of its programs, and their space. -/
abbrev Part := List Value × Space Unit

/-- The shape of a cluster. -/
def Cluster.shape (c : Cluster) : Part := (c.values, c.space.shape)

namespace Part

/-- One part for each list of values, the union of the spaces that have it. -/
def unite (shared : Bool) (parts : List Part) : List Part :=
  ((groupByKey parts).map fun (values, spaces) =>
    (values, Space.unionOf () (spaces.map (⟨·, shared⟩)))).filter fun c => !c.2.isEmpty

/-- The parts of listed programs. -/
def splitLeaf (states : List Input) (ps : SortedSet Program) : List Part :=
  (SortedSet.ofList (ps.toList.filterMap (·.valuesOn states))).toList.map fun values =>
    (values, .leaf () (ps.filter fun p => p.valuesOn states = some values))

/-- The applications of an operator to one part of each argument. -/
def assemble (states : List Input) (op : Op) (input : Space Unit) (args : List Part) :
    Option Part :=
  (op.valuesOn states (args.map (·.1))).map fun values =>
    (values, .join () op (input :: args.map (·.2)))

end Part

namespace Space

mutual

/-- The parts of a space, by ascending values. -/
def parts (states : List Input) : Space Unit → List Part
  | leaf _ ps => Part.splitLeaf states ps
  | union _ ms => Part.unite true (partsAll states ms).flatten
  | join _ _ [] => []
  | join _ op (input :: params) =>
    Part.unite false ((choices (partsAll states params)).filterMap (Part.assemble states op input))

def partsAll (states : List Input) : List (Space Unit) → List (List Part)
  | [] => []
  | s :: ss => parts states s :: partsAll states ss

end

theorem partsAll_eq (states : List Input) (ss : List (Space Unit)) :
    partsAll states ss = ss.map (parts states) := by
  induction ss with
  | nil => rfl
  | cons s ss ih => simp [partsAll, ih]

/-- With a parameter there is, there are choices of a part for each. -/
theorem choices_partsAll (states : List Input) (s : Space Unit) (ss : List (Space Unit)) :
    choices (partsAll states (s :: ss)) = tuples ((s :: ss).map (parts states)) := by
  rw [partsAll_eq]
  rfl

/-- Every operator stands over the input and at least one argument. -/
inductive Applied {ι : Type} : Space ι → Prop
  | leaf (l : ι) (ps : SortedSet Program) : Applied (leaf l ps)
  | union {l : ι} {ms : List (Space ι)} (members : ∀ m ∈ ms, Applied m) : Applied (union l ms)
  | join {l l' : ι} {op : Op} {c : Space ι} {cs : List (Space ι)}
      (params : ∀ s ∈ c :: cs, Applied s) : Applied (join l op (inputLeaf l' :: c :: cs))

theorem Applied.shape {ι : Type} {s : Space ι} (h : s.Applied) : s.shape.Applied := by
  induction h with
  | leaf l ps =>
    rw [shape_leaf]
    exact .leaf () ps
  | union _ ih =>
    rw [shape_union]
    exact .union (List.forall_mem_map.2 ih)
  | join _ ih =>
    rw [shape_join, List.map_cons, List.map_cons, shape_inputLeaf]
    exact .join (List.forall_mem_map.2 ih)

/-- The labels have no part in it. -/
theorem Applied.of_shape {ι : Type} {s : Space ι} (h : s.shape.Applied) : s.Applied := by
  have hinput : ∀ {s : Space ι} {l : Unit}, s.shape = inputLeaf l → ∃ l', s = inputLeaf l' := by
    intro s l h
    cases s with
    | leaf l' ps =>
      rw [shape_leaf] at h
      cases h
      exact ⟨l', rfl⟩
    | union _ _ | join _ _ _ => simp [inputLeaf] at h
  induction s using Space.induction with
  | leaf l ps => exact .leaf l ps
  | union l ms ih =>
    rw [shape_union] at h
    cases h with
    | union members => exact .union fun m hm => ih m hm (List.forall_mem_map.1 members m hm)
  | join l op cs ih =>
    rw [shape_join] at h
    generalize hshapes : cs.map Space.shape = shapes at h
    cases h with
    | join params =>
      obtain ⟨s, _, rfl, hs, hrest⟩ := List.map_eq_cons_iff.1 hshapes
      obtain ⟨c, cs, rfl, rfl, rfl⟩ := List.map_eq_cons_iff.1 hrest
      obtain ⟨l', rfl⟩ := hinput hs
      rw [← List.map_cons] at params
      refine .join fun d hd => ?_
      exact ih d (List.mem_cons_of_mem _ hd) (List.forall_mem_map.1 params d hd)

theorem Applied.child {ι : Type} {s c : Space ι} (h : s.Applied) (hc : c ∈ s.children) :
    c.Applied := by
  cases h with
  | leaf l ps => cases hc
  | union members => exact members c hc
  | join params =>
    rcases List.mem_cons.1 hc with rfl | hc
    · exact .leaf _ _
    · exact params c hc

theorem Applied.unionOf {ι : Type} {l : ι} {members : List (Member ι)}
    (h : ∀ m ∈ members, Applied m.space) : Applied (unionOf l members) := by
  refine unionOf_cases (motive := Applied) ?_ ?_
  · intro kept hk _
    refine .union fun s hs => ?_
    obtain ⟨m, hm, rfl⟩ := hk s hs
    exact h m hm
  · intro m hm _ _
    exact h m hm

theorem Applied.joinOf {ι : Type} {l l' : ι} {op : Op} {c : Space ι} {cs : List (Space ι)}
    (h : ∀ s ∈ c :: cs, Applied s) : Applied (joinOf l op (inputLeaf l' :: c :: cs)) := by
  unfold Space.joinOf
  split
  · exact .union (by simp)
  · exact .join h

end Space

/-! ### Groups -/

section Group

variable {κ β : Type} [Ord κ] [Std.TransOrd κ] [Std.LawfulEqOrd κ] [DecidableEq κ]
  {entries : List (κ × β)} {g : κ × List β}

theorem mem_groupByKey : g ∈ groupByKey entries ↔
    (∃ b, (g.1, b) ∈ entries) ∧ g.2 = (entries.filter fun e => e.1 = g.1).map (·.2) := by
  unfold groupByKey
  rw [List.mem_map]
  constructor
  · intro h
    obtain ⟨key, hkey, rfl⟩ := h
    have hkey : key ∈ entries.map (·.1) := SortedSet.mem_ofList.1 hkey
    obtain ⟨⟨k, b⟩, hb, rfl⟩ := List.mem_map.1 hkey
    exact ⟨⟨b, hb⟩, rfl⟩
  · intro h
    obtain ⟨⟨b, hb⟩, hg⟩ := h
    refine ⟨g.1, SortedSet.mem_ofList.2 (List.mem_map.2 ⟨_, hb, rfl⟩), ?_⟩
    rw [← hg]

/-- The entries of a group are those with its key. -/
theorem mem_of_mem_groupByKey (hg : g ∈ groupByKey entries) {b : β} :
    b ∈ g.2 ↔ (g.1, b) ∈ entries := by
  rw [(mem_groupByKey.1 hg).2]
  simp

/-- Each entry is in a group. -/
theorem exists_mem_groupByKey {k : κ} {b : β} (h : (k, b) ∈ entries) :
    ∃ bs, (k, bs) ∈ groupByKey entries ∧ b ∈ bs := by
  refine ⟨(entries.filter fun e => e.1 = k).map (·.2), ?_, by simpa using h⟩
  exact mem_groupByKey.2 ⟨⟨b, h⟩, rfl⟩

end Group

/-! ### What parts offer -/

/-- One of the parts has the values and holds the program. -/
def Offers (parts : List Part) (values : List Value) (p : Program) : Prop :=
  ∃ c ∈ parts, c.1 = values ∧ c.2.contains p

/-- Uniting parts loses no program and gives none other values. -/
theorem offers_unite {shared : Bool} {parts : List Part} {values : List Value} {p : Program} :
    Offers (Part.unite shared parts) values p ↔ Offers parts values p := by
  unfold Part.unite Offers
  constructor
  · intro h
    obtain ⟨_, hc, rfl, hp⟩ := h
    obtain ⟨⟨g, hg, rfl⟩, _⟩ : (∃ g ∈ groupByKey parts, _) ∧ _ := by
      simpa only [List.mem_filter, List.mem_map] using hc
    rw [Space.contains_unionOf] at hp
    obtain ⟨m, hm, hp⟩ := hp
    obtain ⟨s, hs, rfl⟩ := List.mem_map.1 hm
    exact ⟨(g.1, s), (mem_of_mem_groupByKey hg).1 hs, rfl, hp⟩
  · intro h
    obtain ⟨⟨k, s⟩, hc, rfl, hp⟩ := h
    obtain ⟨ss, hg, hs⟩ := exists_mem_groupByKey hc
    have hu : (Space.unionOf () (ss.map (⟨·, shared⟩))).contains p := by
      rw [Space.contains_unionOf]
      exact ⟨_, List.mem_map.2 ⟨s, hs, rfl⟩, hp⟩
    refine ⟨(k, Space.unionOf () (ss.map (⟨·, shared⟩))), List.mem_filter.2 ⟨?_, ?_⟩, rfl, hu⟩
    · exact List.mem_map.2 ⟨_, hg, rfl⟩
    · simp [Space.not_isEmpty_of_contains hu]

theorem offers_splitLeaf {states : List Input} {ps : SortedSet Program} {values : List Value}
    {p : Program} : Offers (Part.splitLeaf states ps) values p ↔
      p ∈ ps ∧ p.valuesOn states = some values := by
  simp only [Part.splitLeaf, Offers, List.mem_map, ← SortedSet.mem_def, SortedSet.mem_ofList,
    List.mem_filterMap]
  constructor
  · intro h
    obtain ⟨_, ⟨values, _, rfl⟩, rfl, hp⟩ := h
    simpa using hp
  · intro h
    obtain ⟨hp, hv⟩ := h
    exact ⟨_, ⟨values, ⟨p, hp, hv⟩, rfl⟩, rfl, by simp [hp, hv]⟩

theorem mem_tuples {α : Type} {factors : List (List α)} {t : List α} :
    t ∈ tuples factors ↔ List.Forall₂ (· ∈ ·) t factors := by
  induction factors generalizing t with
  | nil => simp [tuples]
  | cons xs rest ih =>
    rw [mem_tuples_cons, List.forall₂_cons_right_iff]
    constructor
    · intro h
      obtain ⟨x, hx, s, hs, rfl⟩ := h
      exact ⟨x, s, hx, ih.1 hs, rfl⟩
    · intro h
      obtain ⟨x, s, hx, hs, rfl⟩ := h
      exact ⟨x, hx, s, ih.2 hs, rfl⟩

theorem forall₂_of_mem_choices {α : Type} {factors : List (List α)} {t : List α}
    (h : t ∈ choices factors) : List.Forall₂ (· ∈ ·) t factors := by
  cases factors with
  | nil => simp [choices] at h
  | cons xs rest => exact mem_tuples.1 h

theorem exists_of_forall₂ {α β : Type} {r : α → β → Prop} {xs : List α} {ys : List β}
    (h : List.Forall₂ r xs ys) {x : α} (hx : x ∈ xs) : ∃ y ∈ ys, r x y := by
  induction h with
  | nil => simp at hx
  | cons hr _ ih =>
    rcases List.mem_cons.1 hx with rfl | hx
    · exact ⟨_, by simp, hr⟩
    · obtain ⟨y, hy, hr⟩ := ih hx
      exact ⟨y, by simp [hy], hr⟩

/-- Choosing a part of each parameter is choosing arguments, grouped by their values. -/
theorem exists_parts_iff {states : List Input} {params : List (Space Unit)}
    {args : List Program} {columns : List (List Value)}
    (ih : ∀ s ∈ params, ∀ values p,
      Offers (s.parts states) values p ↔ s.contains p ∧ p.valuesOn states = some values) :
    (∃ combo : List Part, List.Forall₂ (· ∈ ·) combo (params.map (·.parts states)) ∧
        combo.map (·.1) = columns ∧
        List.Forall₂ (fun c q => c.contains q = true) (combo.map (·.2)) args) ↔
      List.Forall₂ (fun c q => c.contains q = true) params args ∧
        args.mapM (·.valuesOn states) = some columns := by
  induction params generalizing args columns with
  | nil =>
    constructor
    · intro h
      obtain ⟨combo, hc, rfl, hq⟩ := h
      cases hc
      cases hq
      exact ⟨.nil, rfl⟩
    · intro h
      obtain ⟨hq, hm⟩ := h
      cases hq
      cases hm
      exact ⟨[], .nil, rfl, .nil⟩
  | cons s params ihp =>
    have hs := ih s (by simp)
    have hparams := fun args columns => @ihp args columns fun t ht => ih t (by simp [ht])
    constructor
    · intro h
      obtain ⟨combo, hc, rfl, hq⟩ := h
      obtain ⟨c, rest, hcs, hrest, rfl⟩ := List.forall₂_cons_right_iff.1 hc
      obtain ⟨a, args, ha, hargs, rfl⟩ := List.forall₂_cons_left_iff.1 hq
      have h1 := (hs c.1 a).1 ⟨c, hcs, rfl, ha⟩
      have h2 := (hparams args _).1 ⟨rest, hrest, rfl, hargs⟩
      exact ⟨.cons h1.1 h2.1, mapM_cons_eq_some.2 ⟨_, _, h1.2, h2.2, rfl⟩⟩
    · intro h
      obtain ⟨hq, hm⟩ := h
      obtain ⟨a, args, ha, hargs, rfl⟩ := List.forall₂_cons_left_iff.1 hq
      obtain ⟨column, columns, hcol, hcols, rfl⟩ := mapM_cons_eq_some.1 hm
      obtain ⟨c, hcs, rfl, hca⟩ := (hs column a).2 ⟨ha, hcol⟩
      obtain ⟨rest, hrest, rfl, hra⟩ := (hparams args columns).2 ⟨hargs, hcols⟩
      exact ⟨c :: rest, .cons hcs hrest, rfl, .cons hca hra⟩

/-- The assembled parts of an operator offer its applications. -/
theorem offers_assemble {states : List Input} {op : Op} {s : Space Unit}
    {params : List (Space Unit)} {values : List Value} {p : Program}
    (ih : ∀ t ∈ s :: params, ∀ values p,
      Offers (t.parts states) values p ↔ t.contains p ∧ p.valuesOn states = some values) :
    Offers ((choices (Space.partsAll states (s :: params))).filterMap
        (Part.assemble states op (Space.inputLeaf ()))) values p ↔
      (Space.join () op (Space.inputLeaf () :: s :: params)).contains p ∧
        p.valuesOn states = some values := by
  rw [Space.choices_partsAll, Space.contains_join]
  simp only [Offers, List.mem_filterMap, mem_tuples]
  constructor
  · intro h
    obtain ⟨c, ⟨combo, hcombo, hc⟩, rfl, hp⟩ := h
    obtain ⟨values, hv, rfl⟩ := Option.map_eq_some_iff.1 hc
    obtain ⟨_, rfl, hall⟩ := Space.contains_join.1 hp
    obtain ⟨a, args, ha, hargs, rfl⟩ := List.forall₂_cons_left_iff.1 hall
    obtain rfl := Space.contains_inputLeaf.1 ha
    obtain ⟨hq, hm⟩ := (exists_parts_iff ih).1 ⟨combo, hcombo, rfl, hargs⟩
    exact ⟨⟨_, rfl, .cons (by simp) hq⟩, Program.valuesOn_app.2 ⟨_, hm, hv⟩⟩
  · intro h
    obtain ⟨⟨_, rfl, hall⟩, hvals⟩ := h
    obtain ⟨a, args, ha, hargs, rfl⟩ := List.forall₂_cons_left_iff.1 hall
    obtain rfl := Space.contains_inputLeaf.1 ha
    obtain ⟨columns, hm, hv⟩ := Program.valuesOn_app.1 hvals
    obtain ⟨combo, hcombo, rfl, hq⟩ := (exists_parts_iff ih).2 ⟨hargs, hm⟩
    refine ⟨_, ⟨combo, hcombo, by rw [Part.assemble, hv]; rfl⟩, rfl, ?_⟩
    exact Space.contains_join.2 ⟨_, rfl, .cons (by simp) hq⟩

/-- **The parts of a space split it by the values of its programs**: the part with given values
holds exactly the programs of the space that have them. -/
theorem offers_parts {states : List Input} {s : Space Unit} (hs : s.Applied) {values : List Value}
    {p : Program} :
    Offers (s.parts states) values p ↔ s.contains p ∧ p.valuesOn states = some values := by
  induction hs generalizing values p with
  | leaf l ps => simp [Space.parts, offers_splitLeaf]
  | @union l ms _ ih =>
    rw [Space.parts, offers_unite, Space.partsAll_eq, Space.contains_union]
    constructor
    · intro h
      obtain ⟨c, hc, rfl, hp⟩ := h
      obtain ⟨cs, hcs, hc⟩ := List.mem_flatten.1 hc
      obtain ⟨m, hm, rfl⟩ := List.mem_map.1 hcs
      have := (ih m hm).1 ⟨c, hc, rfl, hp⟩
      exact ⟨⟨m, hm, this.1⟩, this.2⟩
    · intro h
      obtain ⟨⟨m, hm, hp⟩, hv⟩ := h
      obtain ⟨c, hc, hcv, hcp⟩ := (ih m hm).2 ⟨hp, hv⟩
      exact ⟨c, List.mem_flatten.2 ⟨_, List.mem_map.2 ⟨m, hm, rfl⟩, hc⟩, hcv, hcp⟩
  | @join l l' op s params _ ih =>
    rw [Space.parts, offers_unite]
    exact offers_assemble fun t ht _ _ => ih t ht

/-! ### What parts look like -/

/-- A united part is a union of parts with its values. -/
theorem exists_of_mem_unite {shared : Bool} {parts : List Part} {c : Part}
    (hc : c ∈ Part.unite shared parts) : ∃ members : List (Space.Member Unit),
      c.2 = Space.unionOf () members ∧ ∀ m ∈ members, (c.1, m.space) ∈ parts := by
  obtain ⟨⟨g, hg, rfl⟩, _⟩ : (∃ g ∈ groupByKey parts, _) ∧ _ := by
    simpa only [Part.unite, List.mem_filter, List.mem_map] using hc
  refine ⟨_, rfl, fun m hm => ?_⟩
  obtain ⟨s, hs, rfl⟩ := List.mem_map.1 hm
  exact (mem_of_mem_groupByKey hg).1 hs

theorem applied_of_mem_unite {shared : Bool} {parts : List Part} {c : Part}
    (h : ∀ d ∈ parts, d.2.Applied) (hc : c ∈ Part.unite shared parts) : c.2.Applied := by
  obtain ⟨members, heq, hmem⟩ := exists_of_mem_unite hc
  rw [heq]
  exact .unionOf fun m hm => h _ (hmem m hm)

/-- Parts are made as their space is. -/
theorem applied_of_mem_parts {states : List Input} {s : Space Unit} (hs : s.Applied) {c : Part}
    (hc : c ∈ s.parts states) : c.2.Applied := by
  induction hs generalizing c with
  | leaf l ps =>
    obtain ⟨values, _, rfl⟩ := List.mem_map.1 hc
    exact .leaf _ _
  | union _ ih =>
    rw [Space.parts, Space.partsAll_eq] at hc
    refine applied_of_mem_unite (fun d hd => ?_) hc
    obtain ⟨cs, hcs, hd⟩ := List.mem_flatten.1 hd
    obtain ⟨m, hm, rfl⟩ := List.mem_map.1 hcs
    exact ih m hm hd
  | @join l l' op t params _ ih =>
    rw [Space.parts] at hc
    refine applied_of_mem_unite (fun d hd => ?_) hc
    obtain ⟨combo, hcombo, hd⟩ := List.mem_filterMap.1 hd
    obtain ⟨values, _, rfl⟩ := Option.map_eq_some_iff.1 hd
    rw [Space.choices_partsAll] at hcombo
    have hcombo := List.forall₂_map_right_iff.1 (mem_tuples.1 hcombo)
    obtain ⟨c, rest, _, _, rfl⟩ := List.forall₂_cons_right_iff.1 hcombo
    refine .join fun s hs => ?_
    obtain ⟨d, hd, rfl⟩ := List.mem_map.1 (show s ∈ (c :: rest).map (·.2) from hs)
    obtain ⟨q, hq, hd⟩ := exists_of_forall₂ hcombo hd
    exact ih q hq hd

end ArithLearn
