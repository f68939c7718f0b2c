/-
A pruned space beside the one that keeps everything.

`Space.unionOf` leaves out the members that are empty, and a lone one that
nothing else refers to stands for the union itself; `Space.joinOf` makes
nothing of an operator with an empty child. No view can tell (`Alike`): what
is left out holds no program, so it lists none and counts for nothing
(`count_of_isEmpty`), however it is nested. An operator without children is
no exception. It is not empty, as it holds its application to no arguments,
and it is kept.
-/
import ArithLearn.Proofs.Space.Count
import Mathlib.Algebra.BigOperators.Ring.List

namespace ArithLearn

namespace Space

variable {ι κ : Type}

/-! ### Counts -/

/-- A space counts no further than counting goes. -/
theorem count_le (s : Space ι) : s.count ≤ maxCount := by
  have hsum : ∀ (ms : List (Space ι)) acc, acc ≤ maxCount → sumCount acc ms ≤ maxCount := by
    intro ms
    induction ms with
    | nil => exact fun acc h => h
    | cons m ms ih => exact fun acc _ => ih _ (Nat.min_le_left _ _)
  have hprod : ∀ (cs : List (Space ι)) acc, acc ≤ maxCount → productCount acc cs ≤ maxCount := by
    intro cs
    induction cs with
    | nil => exact fun acc h => h
    | cons c cs ih => exact fun acc _ => ih _ (Nat.min_le_left _ _)
  cases s with
  | leaf l ps => exact Nat.min_le_left _ _
  | union l ms => exact hsum ms 0 (Nat.zero_le _)
  | join l op cs => exact hprod cs 1 (by decide)

theorem count_union {l : ι} {ms : List (Space ι)} :
    (union l ms).count = min maxCount (ms.map count).sum :=
  count_union_eq_min fun m _ => (Nat.min_eq_right m.count_le).symm

theorem count_join {l : ι} {op : Op} {cs : List (Space ι)} :
    (join l op cs).count = min maxCount (cs.map count).prod :=
  count_join_eq_min fun c _ => (Nat.min_eq_right c.count_le).symm

/-- What is empty counts for nothing. -/
theorem count_of_isEmpty {s : Space ι} (h : s.isEmpty) : s.count = 0 := by
  induction s using Space.induction with
  | leaf l ps =>
    rw [isEmpty_leaf, SortedSet.isEmpty, List.isEmpty_iff] at h
    rw [count, SortedSet.size, h, List.length_nil, Nat.min_zero]
  | union l ms ih =>
    rw [isEmpty_union, List.all_eq_true] at h
    have hzero : (ms.map count).sum = 0 :=
      List.sum_eq_zero (List.forall_mem_map.2 fun m hm => ih m hm (h m hm))
    rw [count_union, hzero, Nat.min_zero]
  | join l op cs ih =>
    rw [isEmpty_join, List.any_eq_true] at h
    obtain ⟨c, hc, he⟩ := h
    have hzero : (cs.map count).prod = 0 :=
      List.prod_eq_zero (List.mem_map.2 ⟨c, hc, ih c hc he⟩)
    rw [count_join, hzero, Nat.min_zero]

/-- Leaving out what is empty leaves a sum of counts as it is. -/
theorem sum_count_filter (members : List (Member ι)) :
    ((members.filter fun m => !m.space.isEmpty).map fun m => m.space.count).sum =
      (members.map fun m => m.space.count).sum := by
  induction members with
  | nil => rfl
  | cons m members ih =>
    rw [List.filter_cons, List.map_cons, List.sum_cons, ← ih]
    cases he : m.space.isEmpty with
    | true => simp [count_of_isEmpty he]
    | false => simp

/-- Pruning a union leaves its count as it is, whether a lone member comes to stand for it or not. -/
theorem count_unionOf {label : ι} {members : List (Member ι)} :
    (unionOf label members).count =
      min maxCount (members.map fun m => m.space.count).sum := by
  rw [← sum_count_filter, unionOf]
  split
  · simp [count_union, *]
  · rename_i m h
    have hlone : min maxCount m.space.count = m.space.count := Nat.min_eq_right m.space.count_le
    split <;> simp [count_union, h, hlone]
  · simp [count_union, Function.comp_def]

/-! ### Views -/

theorem isEmpty_unionOf {label : ι} {members : List (Member ι)} :
    (unionOf label members).isEmpty = members.all (·.space.isEmpty) := by
  rw [Bool.eq_iff_iff, isEmpty_iff, List.all_eq_true]
  simp only [contains_unionOf, isEmpty_iff]
  constructor
  · exact fun h m hm p hp => h p ⟨m, hm, hp⟩
  · intro h p hp
    obtain ⟨m, hm, hp⟩ := hp
    exact h m hm p hp

/-- Every view of the one space is that of the other. -/
structure Alike (s : Space ι) (t : Space κ) : Prop where
  enumerate : s.enumerate = t.enumerate
  programs : ∀ limit, s.programs limit = t.programs limit
  contains : ∀ p, s.contains p = t.contains p
  isEmpty : s.isEmpty = t.isEmpty
  count : s.count = t.count

theorem Alike.of_enumerate {s : Space ι} {t : Space κ} (enumerate : s.enumerate = t.enumerate)
    (contains : ∀ p, s.contains p ↔ t.contains p) (isEmpty : s.isEmpty = t.isEmpty)
    (count : s.count = t.count) : Alike s t where
  enumerate := enumerate
  programs limit := by rw [programs_eq_take, programs_eq_take, enumerate]
  contains p := Bool.eq_iff_iff.2 (contains p)
  isEmpty := isEmpty
  count := count

/-- What is empty is alike. -/
theorem Alike.of_isEmpty {s : Space ι} {t : Space κ} (hs : s.isEmpty) (ht : t.isEmpty) :
    Alike s t := by
  refine .of_enumerate ?_ (fun p => ?_) ?_ ?_
  · rw [enumerate_of_isEmpty hs, enumerate_of_isEmpty ht]
  · exact iff_of_false (isEmpty_iff.1 hs p) (isEmpty_iff.1 ht p)
  · rw [hs, ht]
  · rw [count_of_isEmpty hs, count_of_isEmpty ht]

/-- **Pruning changes no view**: the union and the operator that are built with pruning list the
programs of the plain ones in the same order, hold the same programs, are empty where those are and
count as many, whatever the members and children are, and whoever else refers to them. -/
theorem pruned_alike (label label' : ι) (op : Op) (members : List (Member ι))
    (children : List (Space ι)) :
    Alike (unionOf label members) (union label' (members.map (·.space))) ∧
      Alike (joinOf label op children) (join label' op children) := by
  constructor
  · refine .of_enumerate ?_ (fun p => ?_) ?_ ?_
    · rw [enumerate_unionOf, enumerate_union, List.flatMap_map]
    · simp
    · rw [isEmpty_unionOf, isEmpty_union, List.all_map]
      rfl
    · rw [count_unionOf, count_union, List.map_map]
      rfl
  · unfold joinOf
    split
    · -- With an empty child the plain operator is empty too.
      rename_i h
      have hjoin : (join label' op children).isEmpty := by
        rwa [isEmpty_join, ← anyEmpty_eq]
      exact .of_isEmpty (by simp) hjoin
    · refine .of_enumerate ?_ (fun p => ?_) ?_ ?_
      · rw [enumerate_join, enumerate_join]
      · rw [contains_join, contains_join]
      · rw [isEmpty_join, isEmpty_join]
      · rw [count_join, count_join]

/-- An operator without children is kept. It holds a program and counts for one, though there is
nothing to choose from, and so none is listed. -/
example :
    let s : Space Unit := unionOf () [⟨join () .sum [], false⟩, ⟨union () [], true⟩]
    s.isEmpty = false ∧ s.contains (.app .sum []) ∧ s.count = 1 ∧ s.enumerate = [] := by
  decide +kernel

end Space

end ArithLearn
