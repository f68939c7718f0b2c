/-
Spaces in which no program stands twice.

A program may be reached in more than one way: through several members of a
union, or through different ways to its arguments (`Space.paths`). In a
space that is `Unambiguous` the members of a union have no program in
common, and there is one way only (`Unambiguous.paths_eq`), so that the
list of programs has no repeats and the count is exact
(`Unambiguous.holdsOnce`). Splitting a space keeps it so
(`unambiguous_of_mem_parts`): parts of different members were disjoint
before, and two choices of parts for the arguments of an operator differ in
the values of some argument.
-/
import ArithLearn.Proofs.Space.Count
import ArithLearn.Proofs.Space.Partition

namespace ArithLearn

namespace Space

variable {ι : Type}

/-! ### Ways to a program -/

/-- A way from a space down to a program. -/
inductive Path where
  /-- The program is listed here. -/
  | listed
  /-- It is held by the member at this place. -/
  | member (place : Nat) (below : Path)
  /-- It is an application; there is a way to each argument. -/
  | arguments (below : List Path)

mutual

/-- All ways to a program. -/
def paths : Space ι → Program → List Path
  | leaf _ ps, p => if ps.contains p then [.listed] else []
  | union _ ms, p => memberPaths 0 ms p
  | join _ op cs, .app f args => if op = f then (argumentPaths cs args).map .arguments else []
  | join _ _ _, _ => []

/-- Those through members, the first of which is at the given place. -/
def memberPaths (place : Nat) : List (Space ι) → Program → List Path
  | [], _ => []
  | m :: ms, p => (paths m p).map (.member place) ++ memberPaths (place + 1) ms p

/-- All choices of a way to each argument. -/
def argumentPaths : List (Space ι) → List Program → List (List Path)
  | [], [] => [[]]
  | c :: cs, a :: args => (paths c a).flatMap fun way => (argumentPaths cs args).map (way :: ·)
  | _, _ => []

end

theorem memberPaths_eq_nil {ms : List (Space ι)} {p : Program} {place : Nat} :
    memberPaths place ms p = [] ↔ ∀ m ∈ ms, m.paths p = [] := by
  induction ms generalizing place with
  | nil => simp [memberPaths]
  | cons m ms ih => simp [memberPaths, ih]

theorem argumentPaths_eq_nil {cs : List (Space ι)} (args : List Program)
    (h : ∀ c ∈ cs, ∀ p, c.paths p = [] ↔ ¬ c.contains p) :
    argumentPaths cs args = [] ↔ ¬ eachContains cs args := by
  induction cs generalizing args with
  | nil => cases args <;> simp [argumentPaths, eachContains]
  | cons c cs ih =>
    cases args with
    | nil => simp [argumentPaths, eachContains]
    | cons a args =>
      have hway : (∃ way, way ∈ c.paths a) ↔ c.contains a := by
        rw [← not_iff_not, not_exists, ← h c (by simp) a, List.eq_nil_iff_forall_not_mem]
      simp only [argumentPaths, eachContains, List.flatMap_eq_nil_iff, List.map_eq_nil_iff,
        ih args fun d hd => h d (by simp [hd]), Bool.and_eq_true, not_and, ← hway, forall_exists_index]

/-- There is a way to the programs a space holds, and to no others. -/
theorem paths_eq_nil {s : Space ι} {p : Program} : s.paths p = [] ↔ ¬ s.contains p := by
  induction s using Space.induction generalizing p with
  | leaf l ps => simp [paths, contains]
  | union l ms ih =>
    rw [paths, memberPaths_eq_nil, contains_union]
    push Not
    exact forall₂_congr fun m hm => ih m hm
  | join l op cs ih =>
    cases p with
    | input => simp [paths, contains]
    | lit n => simp [paths, contains]
    | app f args =>
      have hargs := argumentPaths_eq_nil args fun c hc p => ih c hc
      by_cases hop : op = f <;> simp [paths, contains, hop, hargs]

/-! ### Unambiguous spaces -/

/-- The spaces have no program in common. -/
def Apart (s t : Space ι) : Prop := ∀ p, s.contains p → ¬ t.contains p

/-- Members of a union have no program in common, here and at every node below. -/
inductive Unambiguous : Space ι → Prop
  | leaf (l : ι) (ps : SortedSet Program) : Unambiguous (leaf l ps)
  | union {l : ι} {ms : List (Space ι)} (members : ∀ m ∈ ms, Unambiguous m)
      (apart : ms.Pairwise Apart) : Unambiguous (union l ms)
  | join {l : ι} {op : Op} {cs : List (Space ι)} (children : ∀ c ∈ cs, Unambiguous c) :
      Unambiguous (join l op cs)

theorem Unambiguous.child {s c : Space ι} (h : s.Unambiguous) (hc : c ∈ s.children) :
    c.Unambiguous := by
  cases h with
  | leaf l ps => cases hc
  | union members _ => exact members c hc
  | join children => exact children c hc

/-- Of members that have no program in common, one alone leads to a program. -/
theorem exists_memberPaths_eq {ms : List (Space ι)} {p : Program} (place : Nat)
    (h : ∀ m ∈ ms, m.contains p → ∃ way, m.paths p = [way]) (apart : ms.Pairwise Apart)
    (hp : ∃ m ∈ ms, m.contains p) : ∃ way, memberPaths place ms p = [way] := by
  induction ms generalizing place with
  | nil => simp at hp
  | cons m ms ih =>
    obtain ⟨hm, hms⟩ := List.forall_mem_cons.1 h
    obtain ⟨hapart, apart⟩ := List.pairwise_cons.1 apart
    by_cases hc : m.contains p
    · obtain ⟨way, hway⟩ := hm hc
      have hrest : memberPaths (place + 1) ms p = [] :=
        memberPaths_eq_nil.2 fun m' hm' => paths_eq_nil.2 (hapart m' hm' p hc)
      exact ⟨.member place way, by simp [memberPaths, hway, hrest]⟩
    · obtain ⟨way, hway⟩ := ih (place + 1) hms apart (by simpa [hc] using hp)
      exact ⟨way, by simp [memberPaths, paths_eq_nil.2 hc, hway]⟩

/-- One way to each argument is one way to all. -/
theorem exists_argumentPaths_eq {cs : List (Space ι)} {args : List Program}
    (h : ∀ c ∈ cs, ∀ p, c.contains p → ∃ way, c.paths p = [way])
    (hargs : List.Forall₂ (fun c q => c.contains q = true) cs args) :
    ∃ ways, argumentPaths cs args = [ways] := by
  induction hargs with
  | nil => exact ⟨[], rfl⟩
  | cons ha _ ih =>
    obtain ⟨hc, hcs⟩ := List.forall_mem_cons.1 h
    obtain ⟨way, hway⟩ := hc _ ha
    obtain ⟨ways, hways⟩ := ih hcs
    exact ⟨way :: ways, by simp [argumentPaths, hway, hways]⟩

/-- There is one way only to a program of an unambiguous space. -/
theorem Unambiguous.paths_eq {s : Space ι} (h : s.Unambiguous) {p : Program} (hp : s.contains p) :
    ∃ way, s.paths p = [way] := by
  induction h generalizing p with
  | leaf l ps => exact ⟨.listed, by simp_all [paths, contains]⟩
  | union _ apart ih =>
    exact exists_memberPaths_eq 0 (fun m hm hp => ih m hm hp) apart (contains_union.1 hp)
  | join _ ih =>
    obtain ⟨args, rfl, hargs⟩ := contains_join.1 hp
    obtain ⟨ways, hways⟩ := exists_argumentPaths_eq (fun c hc p hp => ih c hc hp) hargs
    exact ⟨.arguments ways, by simp [paths, hways]⟩

/-- An unambiguous space lists no program twice. -/
theorem Unambiguous.nodup {s : Space ι} (h : s.Unambiguous) (hs : s.Proper) : s.enumerate.Nodup := by
  induction h with
  | leaf l ps => simpa using ps.nodup
  | union _ apart ih =>
    cases hs with
    | union members =>
      rw [enumerate_union]
      refine List.nodup_flatMap.2 ⟨fun m hm => ih m hm (members m hm), ?_⟩
      refine apart.imp_of_mem fun {m m'} hm hm' happart p hp hp' => ?_
      exact happart p ((mem_enumerate (members m hm)).1 hp) ((mem_enumerate (members m' hm')).1 hp')
  | join _ ih =>
    cases hs with
    | join children =>
      rw [enumerate_join]
      refine (nodup_choices ?_).map fun _ _ h => (Program.app.inj h).2
      exact List.forall_mem_map.2 fun c hc => ih c hc (children c hc)

/-- Every program of the space is there once. -/
structure HoldsOnce (s : Space ι) : Prop where
  nodup : s.enumerate.Nodup
  /-- However many are wanted, no program is given twice. -/
  programs : ∀ limit, (s.programs limit).Nodup
  /-- Where counting does not stop at its bound, it counts the programs. -/
  count : s.count < maxCount → s.count = {p | s.contains p}.ncard
  path : ∀ p, s.contains p → ∃ way, s.paths p = [way]

theorem Unambiguous.holdsOnce {s : Space ι} (h : s.Unambiguous) (hs : s.Proper) : s.HoldsOnce where
  nodup := h.nodup hs
  programs limit := by
    rw [programs_eq_take]
    exact (h.nodup hs).sublist (List.take_sublist _ _)
  count hlt := by
    have hcount := count_eq_min hs
    rw [ncard_contains hs, (h.nodup hs).dedup]
    omega
  path _ hp := h.paths_eq hp

/-! ### Shapes and pruning -/

theorem apart_shape {s t : Space ι} : s.shape.Apart t.shape ↔ s.Apart t := by
  simp only [Apart, contains_shape]

/-- The labels have no part in it. -/
theorem unambiguous_shape {s : Space ι} : s.shape.Unambiguous ↔ s.Unambiguous := by
  induction s using Space.induction with
  | leaf l ps =>
    rw [shape_leaf]
    exact iff_of_true (.leaf () ps) (.leaf l ps)
  | union l ms ih =>
    rw [shape_union]
    constructor
    · intro h
      cases h with
      | union members apart =>
        refine .union (fun m hm => (ih m hm).1 (List.forall_mem_map.1 members m hm)) ?_
        exact (List.pairwise_map.1 apart).imp apart_shape.1
    · intro h
      cases h with
      | union members apart =>
        refine .union (List.forall_mem_map.2 fun m hm => (ih m hm).2 (members m hm)) ?_
        exact List.pairwise_map.2 (apart.imp apart_shape.2)
  | join l op cs ih =>
    rw [shape_join]
    constructor
    · intro h
      cases h with
      | join children => exact .join fun c hc => (ih c hc).1 (List.forall_mem_map.1 children c hc)
    · intro h
      cases h with
      | join children =>
        exact .join (List.forall_mem_map.2 fun c hc => (ih c hc).2 (children c hc))

theorem Unambiguous.unionOf {l : ι} {members : List (Member ι)}
    (h : ∀ m ∈ members, m.space.Unambiguous)
    (apart : members.Pairwise fun m m' => m.space.Apart m'.space) :
    (unionOf l members).Unambiguous := by
  have hkept : ∀ m ∈ members.filter fun m => !m.space.isEmpty, m.space.Unambiguous :=
    fun m hm => h m (List.mem_filter.1 hm).1
  have hunion : (Space.union l ((members.filter fun m => !m.space.isEmpty).map (·.space))).Unambiguous :=
    .union (List.forall_mem_map.2 hkept) (List.pairwise_map.2 (apart.filter _))
  unfold Space.unionOf
  split
  · exact .union (by simp) .nil
  · rename_i m heq
    split
    · rwa [heq] at hunion
    · exact hkept m (by simp [heq])
  · exact hunion

theorem Unambiguous.joinOf {l : ι} {op : Op} {cs : List (Space ι)}
    (h : ∀ c ∈ cs, c.Unambiguous) : (joinOf l op cs).Unambiguous := by
  unfold Space.joinOf
  split
  · exact .union (by simp) .nil
  · exact .join h

end Space

/-! ### Parts -/

section Parts

open Space

variable {states : List Input}

/-- Parts that have a program in common are one part: its values are the key. -/
theorem eq_of_contains_part {s : Space Unit} (hs : s.Applied) {c d : Part}
    (hc : c ∈ s.parts states) (hd : d ∈ s.parts states) {p : Program} (hp : c.2.contains p)
    (hp' : d.2.contains p) : c = d := by
  have hvalues := ((contains_part hs hc).1 hp).2
  rw [((contains_part hs hd).1 hp').2] at hvalues
  exact List.inj_on_of_nodup_map (nodup_keys_parts s) hc hd (Option.some.inj hvalues).symm

theorem apart_parts {s : Space Unit} (hs : s.Applied) :
    (s.parts states).Pairwise fun c d => c.2.Apart d.2 := by
  have hnodup : (s.parts states).Nodup := .of_map _ (nodup_keys_parts s)
  refine hnodup.imp_of_mem fun {c d} hc hd hne p hp hp' => ?_
  exact hne (eq_of_contains_part hs hc hd hp hp')

/-- Uniting parts that have no program in common gives unambiguous ones. -/
theorem unambiguous_of_mem_unite {shared : Bool} {parts : List Part} {c : Part}
    (h : ∀ d ∈ parts, d.2.Unambiguous)
    (apart : parts.Pairwise fun d e => d.2.Apart e.2)
    (hc : c ∈ Part.unite shared parts) : c.2.Unambiguous := by
  obtain ⟨⟨g, hg, rfl⟩, _⟩ : (∃ g ∈ groupByKey parts, _) ∧ _ := by
    simpa only [Part.unite, List.mem_filter, List.mem_map] using hc
  refine .unionOf (List.forall_mem_map.2 fun s hs => ?_) ?_
  · exact h (g.1, s) ((mem_of_mem_groupByKey hg).1 hs)
  · rw [(mem_groupByKey.1 hg).2, List.map_map, List.pairwise_map]
    exact apart.filter _

/-- The parts of one space have nothing in common, and neither have those of two that have not. -/
theorem apart_parts_members {ms : List (Space Unit)} (hms : ∀ m ∈ ms, m.Applied)
    (apart : ms.Pairwise Apart) :
    (ms.flatMap (Space.parts states)).Pairwise fun c d => c.2.Apart d.2 := by
  refine List.pairwise_flatMap.2 ⟨fun m hm => apart_parts (hms m hm), ?_⟩
  refine apart.imp_of_mem fun {m m'} hm hm' happart c hc d hd p hp hp' => ?_
  exact happart p ((contains_part (hms m hm) hc).1 hp).1 ((contains_part (hms m' hm') hd).1 hp').1

/-- Of the choices of parts for the arguments of an operator, one alone holds given arguments. -/
theorem eq_of_arguments {params : List (Space Unit)} (hparams : ∀ s ∈ params, s.Applied)
    {combo combo' : List Part} {args : List Program}
    (h : List.Forall₂ (fun c s => c ∈ Space.parts states s) combo params)
    (h' : List.Forall₂ (fun c s => c ∈ Space.parts states s) combo' params)
    (hargs : List.Forall₂ (fun c q => c.contains q = true) (combo.map (·.2)) args)
    (hargs' : List.Forall₂ (fun c q => c.contains q = true) (combo'.map (·.2)) args) :
    combo = combo' := by
  induction h generalizing combo' args with
  | nil => exact (List.forall₂_nil_right_iff.1 h').symm
  | @cons c s combo params hc _ ih =>
    obtain ⟨d, rest, hd, hrest, rfl⟩ := List.forall₂_cons_right_iff.1 h'
    obtain ⟨a, args, hca, hcombo, rfl⟩ := List.forall₂_cons_left_iff.1 hargs
    obtain ⟨hda, hrest'⟩ := List.forall₂_cons.1 hargs'
    obtain ⟨hs, hparams⟩ := List.forall_mem_cons.1 hparams
    rw [eq_of_contains_part hs hc hd hca hda, ih hparams hrest hcombo hrest']

/-- Applications assembled from different choices of parts have nothing in common. -/
theorem apart_assemble {op : Op} {input : Space Unit} {params : List (Space Unit)}
    (hparams : ∀ s ∈ params, s.Applied) :
    ((choices (partsAll states params)).filterMap (Part.assemble states op input)).Pairwise
      fun c d => c.2.Apart d.2 := by
  have hcombo : ∀ {combo}, combo ∈ choices (partsAll states params) →
      List.Forall₂ (fun c s => c ∈ Space.parts states s) combo params := by
    intro combo h
    rw [partsAll_eq] at h
    exact List.forall₂_map_right_iff.1 (forall₂_of_mem_choices h)
  have hnodup : (choices (partsAll states params)).Nodup := by
    rw [partsAll_eq]
    refine nodup_choices (List.forall_mem_map.2 fun s _ => ?_)
    exact .of_map _ (nodup_keys_parts s)
  refine List.pairwise_filterMap.2 (hnodup.imp_of_mem fun {combo combo'} hc hc' hne => ?_)
  intro d hd d' hd' p hp hp'
  obtain ⟨_, _, rfl⟩ := Option.map_eq_some_iff.1 hd
  obtain ⟨_, _, rfl⟩ := Option.map_eq_some_iff.1 hd'
  obtain ⟨_, rfl, hall⟩ := contains_join.1 hp
  obtain ⟨_, heq, hall'⟩ := contains_join.1 hp'
  obtain ⟨_, args, _, hargs, rfl⟩ := List.forall₂_cons_left_iff.1 hall
  obtain ⟨_, hargs'⟩ := List.forall₂_cons.1 ((Program.app.inj heq).2 ▸ hall')
  exact hne (eq_of_arguments hparams (hcombo hc) (hcombo hc') hargs hargs')

/-- **The parts of an unambiguous space are unambiguous.** -/
theorem unambiguous_of_mem_parts {s : Space Unit} (hs : s.Applied) (hu : s.Unambiguous) {c : Part}
    (hc : c ∈ s.parts states) : c.2.Unambiguous := by
  induction hs generalizing c with
  | leaf l ps =>
    obtain ⟨values, _, rfl⟩ := List.mem_map.1 hc
    exact .leaf _ _
  | @union l ms happlied ih =>
    cases hu with
    | union members apart =>
      rw [Space.parts, partsAll_eq, ← List.flatMap_def] at hc
      refine unambiguous_of_mem_unite (fun d hd => ?_) (apart_parts_members happlied apart) hc
      obtain ⟨m, hm, hd⟩ := List.mem_flatMap.1 hd
      exact ih m hm (members m hm) hd
  | @join l l' op t params happlied ih =>
    cases hu with
    | join children =>
      rw [Space.parts] at hc
      refine unambiguous_of_mem_unite (fun d hd => ?_) (apart_assemble happlied) hc
      obtain ⟨combo, hcombo, hd⟩ := List.mem_filterMap.1 hd
      obtain ⟨values, _, rfl⟩ := Option.map_eq_some_iff.1 hd
      rw [partsAll_eq] at hcombo
      have hcombo := List.forall₂_map_right_iff.1 (forall₂_of_mem_choices hcombo)
      refine .join (List.forall_mem_cons.2 ⟨.leaf _ _, List.forall_mem_map.2 fun d hd => ?_⟩)
      obtain ⟨q, hq, hd⟩ := exists_of_forall₂ hcombo hd
      exact ih q hq (children q (List.mem_cons_of_mem _ hq)) hd

end Parts

end ArithLearn
