/-
How many choices of one member from each list there are, and what choosing
commutes with.

There are as many choices as the product says (`length_tuples`), no two of
them alike if no list has a member twice (`nodup_tuples`), and in
lexicographic order if the lists ascend (`pairwise_tuples`). The lists may be
reordered (`perm_tuples`), their members may be dropped or replaced one by
one (`tuples_filterMap`), and a list that is put together from parts may be
chosen from part by part (`perm_tuples_flatMap`). The last holds up to
order only: the odometer turns within a part before it goes on to the next
one.
-/
import ArithLearn.Choice
import Mathlib.Algebra.BigOperators.Group.List.Basic
import Mathlib.Data.List.Nodup
import Mathlib.Data.List.Perm.Basic

namespace ArithLearn

variable {α β : Type}

/-- There is nothing to choose exactly where one list has no member. -/
theorem tuples_eq_nil {factors : List (List α)} : tuples factors = [] ↔ [] ∈ factors := by
  induction factors with
  | nil => simp [tuples]
  | cons xs rest ih =>
    rw [tuples, List.flatMap_eq_nil_iff, List.mem_cons, ← ih]
    cases xs with
    | nil => simp
    | cons x xs => simpa using fun h _ _ => h

theorem length_tuples (factors : List (List α)) :
    (tuples factors).length = (factors.map List.length).prod := by
  induction factors with
  | nil => rfl
  | cons xs rest ih => simp [tuples, List.length_flatMap, ih]

theorem nodup_tuples {factors : List (List α)} (h : ∀ xs ∈ factors, xs.Nodup) :
    (tuples factors).Nodup := by
  induction factors with
  | nil => simp [tuples]
  | cons xs rest ih =>
    obtain ⟨hxs, hrest⟩ := List.forall_mem_cons.1 h
    have hinner : ∀ x ∈ xs, ((tuples rest).map (x :: ·)).Nodup :=
      fun _ _ => (ih hrest).map List.cons_injective
    refine List.nodup_flatMap.2 ⟨hinner, hxs.imp fun {x y} hne t hx hy => ?_⟩
    obtain ⟨_, _, rfl⟩ := List.mem_map.1 hx
    obtain ⟨_, _, heq⟩ := List.mem_map.1 hy
    exact hne (List.cons.inj heq).1.symm

/-- From ascending lists the tuples are chosen in lexicographic order. -/
theorem pairwise_tuples {lt : α → α → Prop} {factors : List (List α)}
    (h : ∀ xs ∈ factors, xs.Pairwise lt) : (tuples factors).Pairwise (List.Lex lt) := by
  induction factors with
  | nil => exact List.pairwise_singleton _ _
  | cons xs rest ih =>
    obtain ⟨hxs, hrest⟩ := List.forall_mem_cons.1 h
    refine List.pairwise_flatMap.2 ⟨fun x _ => ?_, hxs.imp fun {x y} hxy s hs t ht => ?_⟩
    · exact List.pairwise_map.2 ((ih hrest).imp .cons)
    · obtain ⟨_, _, rfl⟩ := List.mem_map.1 hs
      obtain ⟨_, _, rfl⟩ := List.mem_map.1 ht
      exact .rel hxy

theorem nodup_choices {factors : List (List α)} (h : ∀ xs ∈ factors, xs.Nodup) :
    (choices factors).Nodup := by
  cases factors with
  | nil => exact List.nodup_nil
  | cons xs rest => exact nodup_tuples h

theorem pairwise_choices {lt : α → α → Prop} {factors : List (List α)}
    (h : ∀ xs ∈ factors, xs.Pairwise lt) : (choices factors).Pairwise (List.Lex lt) := by
  cases factors with
  | nil => exact .nil
  | cons xs rest => exact pairwise_tuples h

/-- Choosing from one list after some others and before the rest. -/
theorem tuples_append_cons (front : List (List α)) (xs : List α) (rest : List (List α)) :
    tuples (front ++ xs :: rest) =
      (tuples front).flatMap fun u => xs.flatMap fun x => (tuples rest).map fun w => u ++ x :: w := by
  induction front with
  | nil => simp [tuples]
  | cons ys front ih =>
    simp [tuples, ih, List.map_flatMap, List.flatMap_assoc, List.flatMap_map, Function.comp_def]

/-- Choosing from lists whose members are replaced one by one. -/
theorem tuples_map (f : α → β) (factors : List (List α)) :
    tuples (factors.map (List.map f)) = (tuples factors).map (List.map f) := by
  induction factors with
  | nil => rfl
  | cons xs rest ih =>
    simp [tuples, ih, List.flatMap_map, List.map_flatMap, Function.comp_def]

theorem choices_map (f : α → β) (factors : List (List α)) :
    choices (factors.map (List.map f)) = (choices factors).map (List.map f) := by
  cases factors with
  | nil => rfl
  | cons xs rest => exact tuples_map f (xs :: rest)

theorem perm_tuples {factors factors' : List (List α)}
    (h : List.Forall₂ List.Perm factors factors') : (tuples factors).Perm (tuples factors') := by
  induction h with
  | nil => exact .refl _
  | cons hxs _ ih => exact hxs.flatMap fun x _ => ih.map _

/-- Two loops, the one inside the other or the other way round. -/
theorem perm_flatMap_comm {γ : Type} (xs : List α) (ys : List β) (f : α → β → List γ) :
    (xs.flatMap fun x => ys.flatMap fun y => f x y).Perm
      (ys.flatMap fun y => xs.flatMap fun x => f x y) := by
  induction xs with
  | nil => simp
  | cons x xs ih =>
    simp only [List.flatMap_cons]
    exact (ih.append_left _).trans (List.flatMap_append_perm ys _ _)

/-- Choosing from lists that are put together from parts is choosing a part of each first. -/
theorem perm_tuples_flatMap (f : β → List α) (factors : List (List β)) :
    (tuples (factors.map (·.flatMap f))).Perm
      ((tuples factors).flatMap fun t => tuples (t.map f)) := by
  induction factors with
  | nil => simp [tuples]
  | cons ys rest ih =>
    have hsplit : tuples ((ys :: rest).map (·.flatMap f)) =
        ys.flatMap fun y => (f y).flatMap fun x =>
          (tuples (rest.map (·.flatMap f))).map (x :: ·) := by
      simp [tuples, List.flatMap_assoc]
    have hparts : ((tuples (ys :: rest)).flatMap fun t => tuples (t.map f)) =
        ys.flatMap fun y => (tuples rest).flatMap fun t => (f y).flatMap fun x =>
          (tuples (t.map f)).map (x :: ·) := by
      simp [tuples, List.flatMap_assoc, List.flatMap_map]
    rw [hsplit, hparts]
    refine .flatMap_left _ fun y _ => ?_
    refine .trans (.flatMap_left _ fun x _ => ih.map _) ?_
    simp only [List.map_flatMap]
    exact perm_flatMap_comm _ _ _

/-- Choosing from what is left of each list is to see what is left of each choice. -/
theorem tuples_filterMap (f : α → Option β) (factors : List (List α)) :
    tuples (factors.map (·.filterMap f)) = (tuples factors).filterMap (·.mapM f) := by
  induction factors with
  | nil => simp [tuples]
  | cons xs rest ih =>
    simp only [List.map_cons, tuples, ih, List.filterMap_flatMap, List.filterMap_map]
    induction xs with
    | nil => rfl
    | cons x xs ihx =>
      cases hx : f x with
      | none => simpa [List.filterMap_cons, hx, Function.comp_def] using ihx
      | some y =>
        rw [List.filterMap_cons_some hx, List.flatMap_cons, List.flatMap_cons, ihx]
        congr 1
        rw [List.map_filterMap]
        refine List.filterMap_congr fun t _ => ?_
        cases ht : t.mapM f <;> simp [hx, ht]

/-- Where every block has a member, the first `n` blocks are enough for the first `n` members. -/
theorem take_flatMap_take {f : α → List β} (hf : ∀ x, f x ≠ []) (xs : List α) {m n : Nat}
    (h : m ≤ n) : ((xs.take n).flatMap f).take m = (xs.flatMap f).take m := by
  induction xs generalizing m n with
  | nil => simp
  | cons x xs ih =>
    cases n with
    | zero =>
      obtain rfl : m = 0 := Nat.le_zero.1 h
      simp
    | succ n =>
      have hlen : 0 < (f x).length := List.length_pos_iff.2 (hf x)
      rw [List.take_succ_cons, List.flatMap_cons, List.flatMap_cons, List.take_append,
        List.take_append, ih (by omega)]

/-- For the first `n` tuples, the first `n` members of each list are enough. -/
theorem take_tuples_map_take (n : Nat) (factors : List (List α)) :
    (tuples (factors.map (List.take n))).take n = (tuples factors).take n := by
  induction factors with
  | nil => rfl
  | cons xs rest ih =>
    rw [List.map_cons, tuples, tuples]
    have htails : ∀ m ≤ n, (tuples (rest.map (List.take n))).take m = (tuples rest).take m := by
      intro m hm
      rw [← Nat.min_eq_left hm, ← List.take_take, ih, List.take_take]
    rw [← prepend_eq_take n _ fun _ _ => rfl, prepend_eq_take n _ htails]
    cases hrest : tuples rest with
    | nil => simp [List.flatMap_def]
    | cons t ts => exact take_flatMap_take (by simp) xs (Nat.le_refl n)

theorem take_choices_map_take (n : Nat) (factors : List (List α)) :
    (choices (factors.map (List.take n))).take n = (choices factors).take n := by
  cases factors with
  | nil => rfl
  | cons xs rest => exact take_tuples_map_take n (xs :: rest)

/-- Choosing from lists whose members all bear the label of their list. -/
theorem tuples_labelled {γ : Type} (label : γ → β) (f : γ → List α) (cs : List γ) :
    tuples (cs.map fun c => (f c).map (label c, ·)) =
      (tuples (cs.map f)).map ((cs.map label).zip ·) := by
  induction cs with
  | nil => simp [tuples]
  | cons c cs ih =>
    simp [tuples, ih, List.flatMap_map, List.map_flatMap, Function.comp_def]

end ArithLearn
