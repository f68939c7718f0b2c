/-
Membership in a space, constructor by constructor, and what forgetting the
labels and pruning leave of it.

A space without its labels holds the same programs (`contains_shape`). The
union and the operator that are built with pruning hold what the plain ones
would (`contains_unionOf`, `contains_joinOf`), since what is empty holds no
program (`isEmpty_iff`), and their shape depends on the shapes alone
(`shape_unionOf`, `shape_joinOf`).
-/
import ArithLearn.Space.Basic
import Mathlib.Data.List.Forall2

namespace ArithLearn

namespace Space

variable {ι : Type}

/-! ### Shapes -/

@[simp] theorem shape_leaf {l : ι} {ps : SortedSet Program} : (leaf l ps).shape = leaf () ps := by
  simp [shape, map]

@[simp] theorem shape_union {l : ι} {ms : List (Space ι)} :
    (union l ms).shape = union () (ms.map shape) := by
  simp [shape, map, mapAll_eq]

@[simp] theorem shape_join {l : ι} {op : Op} {cs : List (Space ι)} :
    (join l op cs).shape = join () op (cs.map shape) := by
  simp [shape, map, mapAll_eq]

@[simp] theorem shape_inputLeaf {l : ι} : (inputLeaf l).shape = inputLeaf () := shape_leaf

/-- Below a node, one level down. -/
def children : Space ι → List (Space ι)
  | leaf _ _ => []
  | union _ ss | join _ _ ss => ss

/-- What holds of a space if it holds of the children holds of every space. -/
theorem children_induction {motive : Space ι → Prop}
    (step : ∀ s, (∀ c ∈ s.children, motive c) → motive s) (s : Space ι) : motive s := by
  induction s using Space.induction with
  | leaf l ps => exact step _ (by simp [children])
  | union l ms ih | join l op ms ih => exact step _ ih

/-! ### Emptiness -/

@[simp] theorem isEmpty_leaf {l : ι} {ps : SortedSet Program} :
    (leaf l ps).isEmpty = ps.isEmpty := by
  simp [isEmpty]

@[simp] theorem isEmpty_union {l : ι} {ms : List (Space ι)} :
    (union l ms).isEmpty = ms.all isEmpty := by
  simp [isEmpty, allEmpty_eq]

@[simp] theorem isEmpty_join {l : ι} {op : Op} {cs : List (Space ι)} :
    (join l op cs).isEmpty = cs.any isEmpty := by
  simp [isEmpty, anyEmpty_eq]

@[simp] theorem isEmpty_shape (s : Space ι) : s.shape.isEmpty = s.isEmpty := by
  induction s using Space.induction with
  | leaf l ps => simp
  | union l ms ih =>
    simp only [shape_union, isEmpty_union, List.all_map]
    rw [Bool.eq_iff_iff, List.all_eq_true, List.all_eq_true]
    exact forall₂_congr fun m hm => by simp [ih m hm]
  | join l op cs ih =>
    simp only [shape_join, isEmpty_join, List.any_map]
    rw [Bool.eq_iff_iff, List.any_eq_true, List.any_eq_true]
    refine exists_congr fun c => and_congr_right fun hc => ?_
    simp [ih c hc]

/-! ### Membership -/

@[simp] theorem contains_leaf {l : ι} {ps : SortedSet Program} {p : Program} :
    (leaf l ps).contains p ↔ p ∈ ps := by
  simp [contains]

@[simp] theorem contains_union {l : ι} {ms : List (Space ι)} {p : Program} :
    (union l ms).contains p ↔ ∃ m ∈ ms, m.contains p := by
  simp [contains, anyContains_eq]

theorem eachContains_iff {cs : List (Space ι)} {ps : List Program} :
    eachContains cs ps ↔ List.Forall₂ (fun c p => c.contains p = true) cs ps := by
  induction cs generalizing ps with
  | nil => cases ps <;> simp [eachContains]
  | cons c cs ih =>
    cases ps with
    | nil => simp [eachContains]
    | cons p ps => simp [eachContains, ih]

theorem contains_join {l : ι} {op : Op} {cs : List (Space ι)} {p : Program} :
    (join l op cs).contains p ↔
      ∃ args, p = .app op args ∧ List.Forall₂ (fun c q => c.contains q = true) cs args := by
  cases p with
  | input => simp [contains]
  | lit n => simp [contains]
  | app f args =>
    simp only [contains, Bool.and_eq_true, decide_eq_true_eq, eachContains_iff,
      Program.app.injEq]
    constructor
    · intro h
      obtain ⟨rfl, h⟩ := h
      exact ⟨args, ⟨rfl, rfl⟩, h⟩
    · intro h
      obtain ⟨_, ⟨rfl, rfl⟩, h⟩ := h
      exact ⟨rfl, h⟩

@[simp] theorem contains_inputLeaf {l : ι} {p : Program} :
    (inputLeaf l).contains p ↔ p = .input := by
  simp [inputLeaf]

/-- An operator over the input and other spaces holds the applications to members of these. -/
theorem contains_join_inputLeaf {l l' : ι} {op : Op} {cs : List (Space ι)} {p : Program} :
    (join l op (inputLeaf l' :: cs)).contains p ↔
      ∃ args, p = .apply op args ∧ List.Forall₂ (fun c q => c.contains q = true) cs args := by
  rw [contains_join]
  constructor
  · intro h
    obtain ⟨_, rfl, h⟩ := h
    obtain ⟨a, args, ha, hargs, rfl⟩ := List.forall₂_cons_left_iff.1 h
    obtain rfl := contains_inputLeaf.1 ha
    exact ⟨args, rfl, hargs⟩
  · intro h
    obtain ⟨args, rfl, h⟩ := h
    exact ⟨_, rfl, .cons (by simp) h⟩

/-- Forgetting the labels forgets no program. -/
@[simp] theorem contains_shape (s : Space ι) (p : Program) : s.shape.contains p = s.contains p := by
  rw [Bool.eq_iff_iff]
  induction s using Space.induction generalizing p with
  | leaf l ps => simp
  | union l ms ih =>
    simp only [shape_union, contains_union, List.mem_map]
    constructor
    · intro h
      obtain ⟨_, ⟨m, hm, rfl⟩, h⟩ := h
      exact ⟨m, hm, (ih m hm p).1 h⟩
    · intro h
      obtain ⟨m, hm, h⟩ := h
      exact ⟨_, ⟨m, hm, rfl⟩, (ih m hm p).2 h⟩
  | join l op cs ih =>
    have each : ∀ args, List.Forall₂ (fun c q => c.contains q = true) (cs.map shape) args ↔
        List.Forall₂ (fun c q => c.contains q = true) cs args := by
      intro args
      rw [List.forall₂_map_left_iff]
      induction cs generalizing args with
      | nil => simp
      | cons c cs ihc =>
        have hc := ih c (by simp)
        have hcs := ihc fun d hd => ih d (by simp [hd])
        cases args with
        | nil => simp
        | cons a args => simp only [List.forall₂_cons, hc, hcs]
    simp only [shape_join, contains_join, each]

/-- A space is empty exactly if it holds no program. -/
theorem isEmpty_iff {s : Space ι} : s.isEmpty ↔ ∀ p, ¬ s.contains p := by
  induction s using Space.induction with
  | leaf l ps => simp [SortedSet.isEmpty_iff]
  | union l ms ih =>
    simp only [isEmpty_union, List.all_eq_true, contains_union]
    constructor
    · intro h p h
      obtain ⟨m, hm, hp⟩ := h
      exact (ih m hm).1 (h m hm) p hp
    · intro h m hm
      exact (ih m hm).2 fun p hp => h p ⟨m, hm, hp⟩
  | join l op cs ih =>
    simp only [isEmpty_join, List.any_eq_true]
    constructor
    · intro h p hp
      obtain ⟨c, hc, he⟩ := h
      obtain ⟨args, rfl, h⟩ := contains_join.1 hp
      obtain ⟨i, hi, rfl⟩ := List.getElem_of_mem hc
      have hlen := h.length_eq
      exact (ih _ hc).1 he _ (h.get hi (by omega))
    · intro h
      by_contra hne
      -- If no child is empty, an argument can be chosen from each.
      have harg : ∀ c ∈ cs, ∃ a, c.contains a = true := by
        intro c hc
        by_contra hno
        exact hne ⟨c, hc, (ih c hc).2 fun a ha => hno ⟨a, ha⟩⟩
      obtain ⟨args, hargs⟩ : ∃ args, List.Forall₂ (fun c q => c.contains q = true) cs args := by
        clear h ih hne
        induction cs with
        | nil => exact ⟨[], .nil⟩
        | cons c cs ihc =>
          obtain ⟨a, ha⟩ := harg c (by simp)
          obtain ⟨args, hargs⟩ := ihc fun d hd => harg d (by simp [hd])
          exact ⟨a :: args, .cons ha hargs⟩
      exact h (.app op args) (contains_join.2 ⟨args, rfl, hargs⟩)

theorem not_isEmpty_of_contains {s : Space ι} {p : Program} (h : s.contains p) :
    s.isEmpty = false := by
  rw [Bool.eq_false_iff]
  exact fun he => isEmpty_iff.1 he p h

/-! ### Pruning -/

/-- A union with pruning is one of three: no member, a lone one, or a union of what is not empty. -/
theorem unionOf_cases {motive : Space ι → Prop} {label : ι} {members : List (Member ι)}
    (union : ∀ kept : List (Space ι), (∀ s ∈ kept, ∃ m ∈ members, m.space = s) →
      (∀ m ∈ members, m.space.isEmpty = false → m.space ∈ kept) → motive (.union label kept))
    (lone : ∀ m ∈ members, m.shared = false →
      (∀ m' ∈ members, m'.space.isEmpty = false → m' = m) → motive m.space) :
    motive (unionOf label members) := by
  have hkept : ∀ m, m ∈ members.filter (fun m => !m.space.isEmpty) ↔
      m ∈ members ∧ m.space.isEmpty = false := by simp
  unfold unionOf
  split
  · rename_i h
    refine union [] (by simp) fun m hm he => ?_
    have := (hkept m).2 ⟨hm, he⟩
    simp [h] at this
  · rename_i m h
    have hm : m ∈ members ∧ m.space.isEmpty = false := (hkept m).1 (by simp [h])
    have only : ∀ m' ∈ members, m'.space.isEmpty = false → m' = m := by
      intro m' hm' he
      have := (hkept m').2 ⟨hm', he⟩
      simpa [h] using this
    split
    · refine union [m.space] ?_ fun m' hm' he => by simp [only m' hm' he]
      intro s hs
      exact ⟨m, hm.1, (List.mem_singleton.1 hs).symm⟩
    · rename_i hsh
      exact lone m hm.1 (by simpa using hsh) only
  · rename_i h₁ h₂
    refine union _ ?_ fun m hm he => List.mem_map.2 ⟨m, (hkept m).2 ⟨hm, he⟩, rfl⟩
    intro s hs
    obtain ⟨m, hm, rfl⟩ := List.mem_map.1 hs
    exact ⟨m, ((hkept m).1 hm).1, rfl⟩

/-- Pruning a union loses no program. -/
@[simp] theorem contains_unionOf {label : ι} {members : List (Member ι)} {p : Program} :
    (unionOf label members).contains p ↔ ∃ m ∈ members, m.space.contains p := by
  refine unionOf_cases (motive := fun s => s.contains p = true ↔ _) ?_ ?_
  · intro kept hk hall
    rw [contains_union]
    constructor
    · intro h
      obtain ⟨s, hs, hp⟩ := h
      obtain ⟨m, hm, rfl⟩ := hk s hs
      exact ⟨m, hm, hp⟩
    · intro h
      obtain ⟨m, hm, hp⟩ := h
      exact ⟨m.space, hall m hm (not_isEmpty_of_contains hp), hp⟩
  · intro m hm _ only
    constructor
    · intro hp
      exact ⟨m, hm, hp⟩
    · intro h
      obtain ⟨m', hm', hp⟩ := h
      rw [← only m' hm' (not_isEmpty_of_contains hp)]
      exact hp

/-- Pruning an operator loses no program. -/
@[simp] theorem contains_joinOf {label : ι} {op : Op} {cs : List (Space ι)} {p : Program} :
    (joinOf label op cs).contains p ↔ (join label op cs).contains p := by
  unfold joinOf
  split
  · rename_i h
    have he : (join label op cs).isEmpty = true := by simpa [isEmpty_join, ← anyEmpty_eq] using h
    have hno := isEmpty_iff.1 he p
    simp [hno]
  · rfl

theorem contains_joinOf_unary {l l' : ι} {op : Op} {s : Space ι} {p : Program} :
    (joinOf l op [inputLeaf l', s]).contains p ↔ ∃ a, p = .apply op [a] ∧ s.contains a := by
  rw [contains_joinOf, contains_join_inputLeaf]
  constructor
  · intro h
    obtain ⟨args, rfl, hargs⟩ := h
    obtain ⟨a, _, ha, hnil, rfl⟩ := List.forall₂_cons_left_iff.1 hargs
    cases hnil
    exact ⟨a, rfl, ha⟩
  · intro h
    obtain ⟨a, rfl, ha⟩ := h
    exact ⟨[a], rfl, .cons ha .nil⟩

theorem contains_joinOf_binary {l l' : ι} {op : Op} {s t : Space ι} {p : Program} :
    (joinOf l op [inputLeaf l', s, t]).contains p ↔
      ∃ a b, p = .apply op [a, b] ∧ s.contains a ∧ t.contains b := by
  rw [contains_joinOf, contains_join_inputLeaf]
  constructor
  · intro h
    obtain ⟨args, rfl, hargs⟩ := h
    obtain ⟨a, _, ha, hrest, rfl⟩ := List.forall₂_cons_left_iff.1 hargs
    obtain ⟨b, _, hb, hnil, rfl⟩ := List.forall₂_cons_left_iff.1 hrest
    cases hnil
    exact ⟨a, b, rfl, ha, hb⟩
  · intro h
    obtain ⟨a, b, rfl, ha, hb⟩ := h
    exact ⟨[a, b], rfl, .cons ha (.cons hb .nil)⟩

/-- A member with its labels forgotten. -/
def Member.shape (m : Member ι) : Member Unit := ⟨m.space.shape, m.shared⟩

theorem shape_unionOf {label : ι} {members : List (Member ι)} :
    (unionOf label members).shape = unionOf () (members.map Member.shape) := by
  have hf : (members.map Member.shape).filter (fun m => !m.space.isEmpty) =
      (members.filter fun m => !m.space.isEmpty).map Member.shape := by
    rw [List.filter_map]
    congr 1
    exact List.filter_congr fun m _ => by simp [Member.shape]
  unfold unionOf
  rw [hf]
  generalize members.filter (fun m => !m.space.isEmpty) = kept
  rcases kept with _ | ⟨m, _ | ⟨m', ms⟩⟩
  · simp
  · by_cases hs : m.shared = true <;> simp [Member.shape, hs]
  · simp [Member.shape, Function.comp_def]

theorem shape_joinOf {label : ι} {op : Op} {cs : List (Space ι)} :
    (joinOf label op cs).shape = joinOf () op (cs.map shape) := by
  have he : anyEmpty (cs.map shape) = anyEmpty cs := by
    simp [anyEmpty_eq, Function.comp_def]
  unfold joinOf
  rw [he]
  split <;> simp

end Space

end ArithLearn
