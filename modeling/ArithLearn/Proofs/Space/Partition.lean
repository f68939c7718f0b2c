/-
The parts of a space hold its programs, each as often as the space does.

`offers_parts` says which programs a part holds; here it is how often. The
programs of a space that have values, each beside its values, are those of
the parts, each beside the key of its part (`graded_parts`), up to their
order. It follows that a part lists what the space lists with its values
(`perm_enumerate_part`), so that it holds what the space holds with them
(`contains_part`), and that no values are without a part (`exists_part`). The keys ascend (`pairwise_parts`), and no part is empty
(`isEmpty_of_mem_parts`).
-/
import ArithLearn.Proofs.Space.Enumerate
import Mathlib.Data.List.Nodup

namespace ArithLearn

/-- Bringing together the entries with equal keys moves them, and that is all. -/
theorem perm_groups {κ β : Type} [DecidableEq κ] {keys : List κ} {entries : List (κ × β)}
    (hkeys : keys.Nodup) (hall : ∀ e ∈ entries, e.1 ∈ keys) :
    (keys.flatMap fun k => entries.filter fun e => e.1 = k).Perm entries := by
  induction keys generalizing entries with
  | nil =>
    obtain rfl : entries = [] := List.eq_nil_iff_forall_not_mem.2 fun e he => by simpa using hall e he
    exact .refl _
  | cons k keys ih =>
    obtain ⟨hk, hkeys⟩ := List.nodup_cons.1 hkeys
    -- The other keys find what they look for among the entries without `k`.
    have hrest : (keys.flatMap fun k' => entries.filter fun e => e.1 = k') =
        keys.flatMap fun k' => (entries.filter fun e => !decide (e.1 = k)).filter fun e => e.1 = k' := by
      refine List.flatMap_congr fun k' hk' => ?_
      rw [List.filter_filter]
      refine List.filter_congr fun e _ => ?_
      have hne : k' ≠ k := fun h => hk (h ▸ hk')
      by_cases he : e.1 = k' <;> simp [he, hne]
    have hall' : ∀ e ∈ entries.filter fun e => !decide (e.1 = k), e.1 ∈ keys := by
      intro e he
      obtain ⟨hmem, hne⟩ := List.mem_filter.1 he
      exact (List.mem_cons.1 (hall e hmem)).resolve_left (by simpa using hne)
    rw [List.flatMap_cons, hrest]
    exact ((ih hkeys hall').append_left _).trans (List.filter_append_perm _ _)

/-- The programs of parts, each beside the values of its part. -/
def graded (parts : List Part) : List (List Value × Program) :=
  parts.flatMap fun c => c.2.enumerate.map (c.1, ·)

/-- The programs that have values on all states, each beside its values. -/
def valued (states : List Input) (ps : List Program) : List (List Value × Program) :=
  ps.filterMap fun p => (p.valuesOn states).map (·, p)

variable {states : List Input}

theorem mem_valued {ps : List Program} {values : List Value} {p : Program} :
    (values, p) ∈ valued states ps ↔ p ∈ ps ∧ p.valuesOn states = some values := by
  simp only [valued, List.mem_filterMap, Option.map_eq_some_iff, Prod.mk.injEq]
  constructor
  · intro h
    obtain ⟨q, hq, _, hv, rfl, rfl⟩ := h
    exact ⟨hq, hv⟩
  · intro h
    exact ⟨p, h.1, values, h.2, rfl, rfl⟩

/-- Of the programs beside their values, those beside the same. -/
theorem filter_valued {ps : List Program} {values : List Value} :
    (valued states ps).filter (fun e => e.1 = values) =
      (ps.filter fun p => p.valuesOn states = some values).map (values, ·) := by
  induction ps with
  | nil => rfl
  | cons p ps ih =>
    rw [valued] at ih ⊢
    cases hp : p.valuesOn states with
    | none => rw [List.filterMap_cons_none (by simp [hp]), ih, List.filter_cons_of_neg (by simp [hp])]
    | some values' =>
      rw [List.filterMap_cons_some (b := (values', p)) (by simp [hp]), List.filter_cons, ih,
        List.filter_cons]
      by_cases hv : values' = values
      · subst hv
        simp [hp]
      · simp [hp, hv]

/-! ### Leaves and unions -/

theorem perm_graded_splitLeaf {ps : SortedSet Program} :
    (graded (Part.splitLeaf states ps)).Perm (valued states ps.toList) := by
  have hgraded : graded (Part.splitLeaf states ps) =
      (SortedSet.ofList (ps.toList.filterMap (·.valuesOn states))).toList.flatMap fun values =>
        (valued states ps.toList).filter fun e => e.1 = values := by
    simp only [graded, Part.splitLeaf, List.flatMap_map, Space.enumerate_leaf, filter_valued]
    rfl
  rw [hgraded]
  refine perm_groups (SortedSet.nodup _) fun e he => SortedSet.mem_ofList.2 ?_
  obtain ⟨hp, hv⟩ := mem_valued.1 he
  exact List.mem_filterMap.2 ⟨e.2, hp, hv⟩

theorem perm_graded_unite {shared : Bool} {parts : List Part} :
    (graded (Part.unite shared parts)).Perm (graded parts) := by
  -- A group that is left out for being empty would have added no program.
  have hkept : ∀ cs : List Part, graded (cs.filter fun c => !c.2.isEmpty) = graded cs := by
    intro cs
    induction cs with
    | nil => rfl
    | cons c cs ih =>
      unfold graded at ih ⊢
      rw [List.filter_cons, List.flatMap_cons, ← ih]
      cases he : c.2.isEmpty with
      | true => simp [Space.enumerate_of_isEmpty he]
      | false => simp
  have hgroup : ∀ values, (parts.filter fun c => c.1 = values).flatMap (fun c =>
      c.2.enumerate.map (c.1, ·)) =
        (((parts.filter fun c => c.1 = values).map (·.2)).flatMap Space.enumerate).map
          (values, ·) := by
    intro values
    rw [List.flatMap_map, List.map_flatMap]
    refine List.flatMap_congr fun c hc => ?_
    rw [show c.1 = values by simpa using (List.mem_filter.1 hc).2]
  have hgraded : graded (Part.unite shared parts) =
      ((SortedSet.ofList (parts.map (·.1))).toList.flatMap fun values =>
        parts.filter fun c => c.1 = values).flatMap fun c => c.2.enumerate.map (c.1, ·) := by
    rw [Part.unite, hkept, graded, List.flatMap_assoc]
    simp only [groupByKey, List.flatMap_map, Space.enumerate_unionOf, hgroup]
  rw [hgraded]
  refine List.Perm.flatMap_right _ (perm_groups (SortedSet.nodup _) fun c hc => ?_)
  exact SortedSet.mem_ofList.2 (List.mem_map.2 ⟨c, hc, rfl⟩)

/-! ### Operators -/

/-- The application to arguments that come with their values, beside its own. -/
def applied (states : List Input) (op : Op) (args : List (List Value × Program)) :
    Option (List Value × Program) :=
  (op.valuesOn states (args.map (·.1))).map (·, .apply op (args.map (·.2)))

theorem applied_zip {op : Op} {columns : List (List Value)} {args : List Program}
    (h : columns.length = args.length) : applied states op (columns.zip args) =
      (op.valuesOn states columns).map (·, .apply op args) := by
  rw [applied, List.map_fst_zip (Nat.le_of_eq h), List.map_snd_zip (Nat.le_of_eq h.symm)]

/-- A part made of one part for each argument holds the applications to their programs. -/
theorem graded_assemble {op : Op} {combo : List Part} :
    graded (Part.assemble states op (.inputLeaf ()) combo).toList =
      (tuples (combo.map fun c => c.2.enumerate.map (c.1, ·))).filterMap (applied states op) := by
  have happlied : ∀ args ∈ tuples (combo.map (·.2.enumerate)),
      applied states op ((combo.map (·.1)).zip args) =
        (op.valuesOn states (combo.map (·.1))).map (·, .apply op args) := by
    intro args hargs
    refine applied_zip ?_
    rw [length_of_mem_tuples hargs, List.length_map, List.length_map]
  rw [tuples_labelled, List.filterMap_map, Function.comp_def, List.filterMap_congr happlied,
    Part.assemble]
  cases op.valuesOn states (combo.map (·.1)) with
  | none => simp [graded]
  | some values =>
    simp only [graded, Option.map_some, Option.toList_some, List.flatMap_singleton,
      Space.enumerate_join, List.map_cons, Space.inputLeaf, Space.enumerate_leaf, choices, tuples]
    simp [SortedSet.singleton, Program.apply, Function.comp_def]

/-- The applications that have values are those to arguments that have. -/
theorem valued_applications {op : Op} {factors : List (List Program)} :
    valued states ((tuples factors).map (.apply op)) =
      (tuples (factors.map (valued states))).filterMap (applied states op) := by
  have hargs : ∀ args : List Program,
      args.mapM (fun p : Program => (p.valuesOn states).map (·, p)) =
        (args.mapM fun p : Program => p.valuesOn states).map (·.zip args) := by
    intro args
    induction args with
    | nil => rfl
    | cons p ps ih =>
      simp only [List.mapM_cons, ih]
      cases p.valuesOn states with
      | none => rfl
      | some column => cases ps.mapM fun q : Program => q.valuesOn states <;> simp
  have hbind : ∀ args : List Program,
      ((Program.apply op args).valuesOn states).map (·, Program.apply op args) =
        (args.mapM fun p : Program => (p.valuesOn states).map (·, p)).bind (applied states op) := by
    intro args
    rw [hargs]
    cases hcols : args.mapM fun p : Program => p.valuesOn states with
    | none =>
      have hnone : (Program.apply op args).valuesOn states = none := by
        rw [Option.eq_none_iff_forall_ne_some]
        intro values hv
        obtain ⟨columns, hc, _⟩ := Program.valuesOn_app.1 hv
        rw [hcols] at hc
        cases hc
      simp [hnone]
    | some columns =>
      have hlen : columns.length = args.length := (mapM_eq_some_iff_getElem?.1 hcols).1
      have hvalues : (Program.apply op args).valuesOn states = op.valuesOn states columns := by
        refine Option.ext fun values => ?_
        rw [Program.apply, Program.valuesOn_app]
        simp [hcols]
      simp [hvalues, applied_zip hlen]
  have hvalued : valued states = List.filterMap fun p => (p.valuesOn states).map (·, p) := rfl
  rw [hvalued, tuples_filterMap, List.filterMap_filterMap, List.filterMap_map]
  exact List.filterMap_congr fun args _ => hbind args

/-- What is known of the arguments' parts carries over to those of the operator. -/
theorem perm_graded_assemble {op : Op} {ss : List (Space Unit)}
    (ih : ∀ s ∈ ss, (graded (s.parts states)).Perm (valued states s.enumerate)) :
    (graded ((tuples (ss.map (·.parts states))).filterMap
        (Part.assemble states op (.inputLeaf ())))).Perm
      (valued states ((tuples (ss.map (·.enumerate))).map (.apply op))) := by
  have hgraded : graded ((tuples (ss.map (·.parts states))).filterMap
      (Part.assemble states op (.inputLeaf ()))) =
        ((tuples (ss.map (·.parts states))).flatMap fun combo =>
          tuples (combo.map fun c => c.2.enumerate.map (c.1, ·))).filterMap
            (applied states op) := by
    rw [List.filterMap_eq_flatMap_toList, graded, List.flatMap_assoc, List.filterMap_flatMap]
    exact List.flatMap_congr fun combo _ => graded_assemble
  have hsplit := perm_tuples_flatMap (fun c : Part => c.2.enumerate.map (c.1, ·))
    (ss.map (·.parts states))
  have hfactors : List.Forall₂ List.Perm
      ((ss.map (·.parts states)).map (·.flatMap fun c => c.2.enumerate.map (c.1, ·)))
        ((ss.map (·.enumerate)).map (valued states)) := by
    rw [List.map_map, List.map_map, List.forall₂_map_left_iff, List.forall₂_map_right_iff,
      List.forall₂_same]
    exact ih
  rw [hgraded, valued_applications]
  exact (hsplit.symm.trans (perm_tuples hfactors)).filterMap _

/-! ### Whole spaces -/

/-- **The parts of a space hold its programs that have values, as often as it does.** -/
theorem graded_parts {s : Space Unit} (hs : s.Applied) :
    (graded (s.parts states)).Perm (valued states s.enumerate) := by
  induction hs with
  | leaf l ps =>
    rw [Space.parts, Space.enumerate_leaf]
    exact perm_graded_splitLeaf
  | @union l ms _ ih =>
    rw [Space.parts, Space.enumerate_union, Space.partsAll_eq]
    refine perm_graded_unite.trans ?_
    rw [graded, ← List.flatMap_def, List.flatMap_assoc, valued, List.filterMap_flatMap]
    exact .flatMap_left _ ih
  | @join l l' op s params _ ih =>
    have hlist : (Space.join l op (.inputLeaf l' :: s :: params)).enumerate =
        (tuples ((s :: params).map (·.enumerate))).map (.apply op) := by
      simp [choices, tuples, Space.inputLeaf, SortedSet.singleton, Program.apply]
    rw [Space.parts, hlist, Space.choices_partsAll]
    exact perm_graded_unite.trans (perm_graded_assemble ih)

/-! ### Keys -/

/-- The keys of the parts of any space ascend, and so each stands there once. -/
theorem pairwise_parts (s : Space Unit) :
    (s.parts states).Pairwise fun c d => compare c.1 d.1 = .lt := by
  have hunite : ∀ (shared : Bool) (parts : List Part),
      (Part.unite shared parts).Pairwise fun c d => compare c.1 d.1 = .lt := by
    intro shared parts
    rw [Part.unite, groupByKey, List.map_map]
    refine List.Pairwise.filter _ (List.pairwise_map.2 ?_)
    exact (SortedSet.ofList (parts.map (·.1))).ascending
  cases s with
  | leaf l ps =>
    rw [Space.parts, Part.splitLeaf]
    exact List.pairwise_map.2 (SortedSet.ascending _)
  | union l ms => exact hunite _ _
  | join l op cs =>
    cases cs with
    | nil => exact .nil
    | cons input params => exact hunite _ _

theorem nodup_keys_parts (s : Space Unit) : ((s.parts states).map (·.1)).Nodup := by
  refine List.pairwise_map.2 ((pairwise_parts s).imp fun {a b} hab h => ?_)
  rw [h] at hab
  simp at hab

theorem isEmpty_of_mem_parts {s : Space Unit} {c : Part} (hc : c ∈ s.parts states) :
    c.2.isEmpty = false := by
  have hunite : ∀ {shared : Bool} {parts : List Part}, c ∈ Part.unite shared parts →
      c.2.isEmpty = false := by
    intro shared parts h
    simpa using (List.mem_filter.1 h).2
  cases s with
  | leaf l ps =>
    obtain ⟨values, hvalues, rfl⟩ := List.mem_map.1 hc
    obtain ⟨p, hp, hv⟩ := List.mem_filterMap.1 (SortedSet.mem_ofList.1 hvalues)
    refine Space.not_isEmpty_of_contains (p := p) ?_
    rw [Space.contains_leaf, SortedSet.mem_filter]
    exact ⟨hp, by simp [hv]⟩
  | union l ms => exact hunite hc
  | join l op cs =>
    cases cs with
    | nil => simp [Space.parts] at hc
    | cons input params => exact hunite hc

/-! ### Each part -/

/-- Where keys do not repeat, only a part itself has its key. -/
theorem filter_graded {parts : List Part} (hkeys : (parts.map (·.1)).Nodup) {c : Part}
    (hc : c ∈ parts) :
    (graded parts).filter (fun e => e.1 = c.1) = c.2.enumerate.map (c.1, ·) := by
  have hblock : ∀ d : Part, (d.2.enumerate.map (d.1, ·)).filter (fun e => e.1 = c.1) =
      if d.1 = c.1 then d.2.enumerate.map (d.1, ·) else [] := by
    intro d
    by_cases hd : d.1 = c.1 <;> simp [hd, List.filter_map, Function.comp_def]
  induction parts with
  | nil => simp at hc
  | cons d ds ih =>
    obtain ⟨hd, hkeys⟩ := List.nodup_cons.1 hkeys
    have hcons : graded (d :: ds) = d.2.enumerate.map (d.1, ·) ++ graded ds := rfl
    rw [hcons, List.filter_append, hblock]
    rcases List.mem_cons.1 hc with rfl | hc
    · have hrest : (graded ds).filter (fun e => e.1 = c.1) = [] := by
        rw [List.filter_eq_nil_iff]
        intro e he
        obtain ⟨d, hmem, he⟩ := List.mem_flatMap.1 he
        obtain ⟨p, _, rfl⟩ := List.mem_map.1 he
        rw [decide_eq_true_eq]
        exact fun h => hd (List.mem_map.2 ⟨d, hmem, h⟩)
      rw [if_pos rfl, hrest, List.append_nil]
    · have hne : d.1 ≠ c.1 := fun h => hd (List.mem_map.2 ⟨c, hc, h.symm⟩)
      rw [if_neg hne, ih hkeys hc, List.nil_append]

/-- A part lists what the space lists with its values, as often. -/
theorem perm_enumerate_part {s : Space Unit} (hs : s.Applied) {c : Part}
    (hc : c ∈ s.parts states) :
    c.2.enumerate.Perm (s.enumerate.filter fun p => p.valuesOn states = some c.1) := by
  have hperm : (graded (s.parts states)).Perm (valued states s.enumerate) := graded_parts hs
  have h := hperm.filter fun e => e.1 = c.1
  rw [filter_graded (nodup_keys_parts s) hc, filter_valued] at h
  simpa [Function.comp_def] using h.map (·.2)

/-- A part holds what the space holds with its values. -/
theorem contains_part {s : Space Unit} (hs : s.Applied) {c : Part} (hc : c ∈ s.parts states)
    {p : Program} : c.2.contains p ↔ s.contains p ∧ p.valuesOn states = some c.1 := by
  constructor
  · exact fun h => (offers_parts hs).1 ⟨c, hc, rfl, h⟩
  · intro h
    obtain ⟨d, hd, hkey, hp⟩ := (offers_parts hs).2 h
    obtain rfl : d = c := List.inj_on_of_nodup_map (nodup_keys_parts s) hd hc hkey
    exact hp

/-- The values a program of the space has on the states are the key of a part. -/
theorem exists_part {s : Space Unit} (hs : s.Applied) {p : Program} (hp : p ∈ s.enumerate)
    {values : List Value} (hv : p.valuesOn states = some values) :
    ∃ c ∈ s.parts states, c.1 = values := by
  have h := (graded_parts hs).mem_iff.2 (mem_valued.2 ⟨hp, hv⟩)
  obtain ⟨c, hc, he⟩ := List.mem_flatMap.1 h
  obtain ⟨q, _, he⟩ := List.mem_map.1 he
  exact ⟨c, hc, (Prod.mk.inj he).1⟩

/-- A part has a value for each state. -/
theorem length_of_mem_parts {s : Space Unit} (hs : s.Applied) {c : Part}
    (hc : c ∈ s.parts states) : c.1.length = states.length := by
  have hne : ¬ ∀ p, ¬ c.2.contains p := by
    rw [← Space.isEmpty_iff, isEmpty_of_mem_parts hc]
    exact Bool.false_ne_true
  push Not at hne
  obtain ⟨p, hp⟩ := hne
  have hmem := (Space.mem_enumerate (applied_of_mem_parts hs hc).proper).2 hp
  have hv := (List.mem_filter.1 ((perm_enumerate_part hs hc).mem_iff.1 hmem)).2
  exact Program.length_of_valuesOn (by simpa using hv)

end ArithLearn
