/-
The list of all programs of a space, constructor by constructor.

A space lists what it holds (`mem_enumerate`), as long as each of its
operators has a child (`Proper`): an operator over nothing would hold its
application to no arguments and list nothing. Neither the labels nor
pruning have a say in the list, not even in its order or in how often a
program stands there (`enumerate_shape`, `enumerate_unionOf`). Whoever wants
some programs only gets the first ones of the list (`programs_eq_take`).
-/
import ArithLearn.Proofs.Choice
import ArithLearn.Proofs.Space.Parts

namespace ArithLearn

namespace Space

variable {ι : Type}

/-- Every operator has at least one child. -/
inductive Proper : Space ι → Prop
  | leaf (l : ι) (ps : SortedSet Program) : Proper (leaf l ps)
  | union {l : ι} {ms : List (Space ι)} (members : ∀ m ∈ ms, Proper m) : Proper (union l ms)
  | join {l : ι} {op : Op} {c : Space ι} {cs : List (Space ι)}
      (children : ∀ s ∈ c :: cs, Proper s) : Proper (join l op (c :: cs))

theorem Applied.proper {s : Space ι} (h : s.Applied) : s.Proper := by
  induction h with
  | leaf l ps => exact .leaf l ps
  | union _ ih => exact .union ih
  | join _ ih => exact .join (List.forall_mem_cons.2 ⟨.leaf _ _, ih⟩)

/-! ### Constructors -/

@[simp] theorem enumerate_leaf {l : ι} {ps : SortedSet Program} :
    (leaf l ps).enumerate = ps.toList := by
  simp [enumerate]

@[simp] theorem enumerate_union {l : ι} {ms : List (Space ι)} :
    (union l ms).enumerate = ms.flatMap enumerate := by
  simp [enumerate, enumerateAll_eq, List.flatMap_def]

@[simp] theorem enumerate_join {l : ι} {op : Op} {cs : List (Space ι)} :
    (join l op cs).enumerate = (choices (cs.map enumerate)).map (.app op) := by
  simp [enumerate, enumerateAll_eq]

/-- The labels are not read. -/
theorem enumerate_shape (s : Space ι) : s.shape.enumerate = s.enumerate := by
  induction s using Space.induction with
  | leaf l ps => simp
  | union l ms ih =>
    rw [shape_union, enumerate_union, enumerate_union, List.flatMap_map]
    exact List.flatMap_congr ih
  | join l op cs ih =>
    have hcs : (cs.map shape).map enumerate = cs.map enumerate := by
      rw [List.map_map]
      exact List.map_congr_left ih
    rw [shape_join, enumerate_join, enumerate_join, hcs]

/-! ### Members -/

/-- To choose a program from each list is to choose one from each space. -/
theorem mem_tuples_enumerate {cs : List (Space ι)} {args : List Program}
    (ih : ∀ c ∈ cs, ∀ p, p ∈ c.enumerate ↔ c.contains p) :
    args ∈ tuples (cs.map enumerate) ↔
      List.Forall₂ (fun c q => c.contains q = true) cs args := by
  rw [mem_tuples, List.forall₂_map_right_iff]
  induction cs generalizing args with
  | nil => cases args <;> simp
  | cons c cs ihc =>
    have hc := ih c (by simp)
    cases args with
    | nil => simp
    | cons a args =>
      rw [List.forall₂_cons, List.forall₂_cons, hc, ihc fun d hd => ih d (by simp [hd])]

/-- A space lists the programs it holds. -/
theorem mem_enumerate {s : Space ι} (hs : s.Proper) {p : Program} :
    p ∈ s.enumerate ↔ s.contains p := by
  induction hs generalizing p with
  | leaf l ps => simp [SortedSet.mem_def]
  | union _ ih =>
    rw [enumerate_union, List.mem_flatMap, contains_union]
    exact exists_congr fun m => and_congr_right fun hm => ih m hm
  | @join l op c cs _ ih =>
    rw [enumerate_join, List.mem_map, contains_join]
    constructor
    · intro h
      obtain ⟨args, hargs, rfl⟩ := h
      exact ⟨args, rfl, (mem_tuples_enumerate fun s hs p => ih s hs).1 hargs⟩
    · intro h
      obtain ⟨args, rfl, hargs⟩ := h
      exact ⟨args, (mem_tuples_enumerate fun s hs p => ih s hs).2 hargs, rfl⟩

/-! ### Pruning -/

/-- What is empty lists nothing. -/
theorem enumerate_of_isEmpty {s : Space ι} (h : s.isEmpty) : s.enumerate = [] := by
  induction s using Space.induction with
  | leaf l ps => simpa [SortedSet.isEmpty] using h
  | union l ms ih =>
    rw [isEmpty_union, List.all_eq_true] at h
    rw [enumerate_union, List.flatMap_eq_nil_iff]
    exact fun m hm => ih m hm (h m hm)
  | join l op cs ih =>
    rw [isEmpty_join, List.any_eq_true] at h
    obtain ⟨c, hc, he⟩ := h
    have hnil : [] ∈ cs.map enumerate := List.mem_map.2 ⟨c, hc, ih c hc he⟩
    obtain ⟨d, ds, rfl⟩ := List.exists_cons_of_ne_nil (List.ne_nil_of_mem hc)
    rw [enumerate_join, List.map_cons, choices, ← List.map_cons, tuples_eq_nil.2 hnil, List.map_nil]

/-- Pruning a union leaves the list as it is. -/
theorem enumerate_unionOf {label : ι} {members : List (Member ι)} :
    (unionOf label members).enumerate = members.flatMap fun m => m.space.enumerate := by
  have hkept : (members.filter fun m => !m.space.isEmpty).flatMap (fun m => m.space.enumerate) =
      members.flatMap fun m => m.space.enumerate := by
    induction members with
    | nil => rfl
    | cons m members ih =>
      rw [List.filter_cons, List.flatMap_cons, ← ih]
      cases he : m.space.isEmpty with
      | true => simp [enumerate_of_isEmpty he]
      | false => simp
  rw [← hkept, unionOf]
  split
  · simp [*]
  · split <;> simp [*]
  · simp [List.flatMap_map]

/-! ### The first programs -/

/-- A space gives as many programs as are wanted, the first ones of its list. -/
theorem programs_eq_take (s : Space ι) (limit : Nat) : s.programs limit = s.enumerate.take limit := by
  induction s using Space.induction generalizing limit with
  | leaf l ps => simp [programs]
  | union l ms ih =>
    rw [programs, enumerate_union]
    induction ms generalizing limit with
    | nil => simp [programsUnion]
    | cons m ms ihm =>
      unfold programsUnion
      split
      · simp [*]
      · have hrest := ihm fun m' hm' => ih m' (by simp [hm'])
        have hleft : limit - (m.enumerate.take limit).length = limit - m.enumerate.length := by
          rw [List.length_take]
          omega
        dsimp only
        rw [ih m (by simp), hrest, hleft, List.flatMap_cons, List.take_append]
  | join l op cs ih =>
    have hcs : cs.map (programs limit) = (cs.map enumerate).map (List.take limit) := by
      rw [List.map_map]
      exact List.map_congr_left fun c hc => ih c hc limit
    rw [programs, programsAll_eq, hcs, firstChoices_eq_take, take_choices_map_take, enumerate_join,
      List.map_take]

/-- **Asked for some programs only, a space gives the first ones of its list**, and so the first ones
of what it gives when it is asked for more. An operator without children is no exception. -/
theorem programs_first (s : Space ι) (limit : Nat) :
    s.programs limit = s.enumerate.take limit ∧
      ∀ more, s.programs limit = (s.programs (limit + more)).take limit := by
  refine ⟨programs_eq_take s limit, fun more => ?_⟩
  rw [programs_eq_take, programs_eq_take, List.take_take, Nat.min_eq_left (Nat.le_add_right _ _)]

end Space

end ArithLearn
