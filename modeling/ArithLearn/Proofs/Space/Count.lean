/-
How many programs a space counts, and how many there are.

Counting stops at `maxCount`, at every node anew. Where a number is cut off
before it goes into a sum or a product makes no difference to the end
(`min_add_min`, `min_mul_min`), and so a space counts the programs it lists,
up to `maxCount` (`count_eq_min`). A program may be listed more than once;
each counted once, they are those the space holds (`ncard_contains`).
-/
import ArithLearn.Proofs.Space.Enumerate
import Mathlib.Data.Set.Card

namespace ArithLearn

namespace Space

/-! ### Numbers up to a bound -/

theorem min_add_min (k m n : Nat) : min k (min k m + min k n) = min k (m + n) := by
  omega

theorem min_min_mul (k m n : Nat) : min k (min k m * n) = min k (m * n) := by
  rcases Nat.le_total m k with hm | hm
  · rw [Nat.min_eq_right hm]
  rcases Nat.eq_zero_or_pos n with rfl | hn
  · rfl
  · -- What is cut off was the bound or more, and stays so.
    have hle : k ≤ k * n := Nat.le_mul_of_pos_right k hn
    rw [Nat.min_eq_left hm, Nat.min_eq_left hle,
      Nat.min_eq_left (Nat.le_trans hle (Nat.mul_le_mul_right n hm))]

theorem min_mul_min (k m n : Nat) : min k (min k m * min k n) = min k (m * n) := by
  rw [min_min_mul, Nat.mul_comm, min_min_mul, Nat.mul_comm]

/-! ### Counts of spaces -/

variable {ι : Type}

/-- A sum that is cut off at every step is that of the whole numbers, cut off at the end. -/
theorem sumCount_eq_min {f : Space ι → Nat} {ms : List (Space ι)}
    (h : ∀ m ∈ ms, m.count = min maxCount (f m)) (n : Nat) :
    sumCount (min maxCount n) ms = min maxCount (n + (ms.map f).sum) := by
  induction ms generalizing n with
  | nil => rfl
  | cons m ms ih =>
    obtain ⟨hm, hms⟩ := List.forall_mem_cons.1 h
    rw [sumCount, hm, min_add_min, ih hms, List.map_cons, List.sum_cons, Nat.add_assoc]

/-- So is a product. -/
theorem productCount_eq_min {f : Space ι → Nat} {cs : List (Space ι)}
    (h : ∀ c ∈ cs, c.count = min maxCount (f c)) (n : Nat) :
    productCount (min maxCount n) cs = min maxCount (n * (cs.map f).prod) := by
  induction cs generalizing n with
  | nil => rw [productCount, List.map_nil, List.prod_nil, Nat.mul_one]
  | cons c cs ih =>
    obtain ⟨hc, hcs⟩ := List.forall_mem_cons.1 h
    rw [productCount, hc, min_mul_min, ih hcs, List.map_cons, List.prod_cons, Nat.mul_assoc]

theorem count_union_eq_min {f : Space ι → Nat} {l : ι} {ms : List (Space ι)}
    (h : ∀ m ∈ ms, m.count = min maxCount (f m)) :
    (union l ms).count = min maxCount (ms.map f).sum := by
  have hsum := sumCount_eq_min h 0
  rwa [Nat.min_zero, Nat.zero_add] at hsum

theorem count_join_eq_min {f : Space ι → Nat} {l : ι} {op : Op} {cs : List (Space ι)}
    (h : ∀ c ∈ cs, c.count = min maxCount (f c)) :
    (join l op cs).count = min maxCount (cs.map f).prod := by
  have hprod := productCount_eq_min h 1
  have hone : min maxCount 1 = 1 := by decide
  rwa [hone, Nat.one_mul] at hprod

theorem length_enumerate_join {l : ι} {op : Op} {c : Space ι} {cs : List (Space ι)} :
    (join l op (c :: cs)).enumerate.length =
      ((c :: cs).map fun s => s.enumerate.length).prod := by
  rw [enumerate_join, List.length_map, List.map_cons, choices, ← List.map_cons, length_tuples,
    List.map_map]
  rfl

/-- A space counts what it lists, as far as it counts. -/
theorem count_eq_min {s : Space ι} (hs : s.Proper) :
    s.count = min maxCount s.enumerate.length := by
  induction hs with
  | leaf l ps => rw [count, enumerate_leaf, SortedSet.size]
  | union _ ih => rw [count_union_eq_min ih, enumerate_union, List.length_flatMap]
  | join _ ih => rw [count_join_eq_min ih, length_enumerate_join]

/-- The programs a space holds are those it lists, each counted once. -/
theorem ncard_contains {s : Space ι} (hs : s.Proper) :
    {p | s.contains p}.ncard = s.enumerate.dedup.length := by
  have heq : {p | s.contains p} = (s.enumerate.toFinset : Set Program) := by
    ext p
    simp [mem_enumerate hs]
  rw [heq, Set.ncard_coe_finset, List.card_toFinset]

/-! ### Views -/

/-- **The views of a space agree.** If each operator has a child, the programs that walking the space
finds in it are those it lists, it is empty exactly if it lists none, and it counts as many as it
lists, up to `maxCount`. The list is what the space gives whoever wants that many programs or
more. -/
theorem views_agree {s : Space ι} (hs : s.Proper) :
    (∀ limit, s.enumerate.length ≤ limit → s.programs limit = s.enumerate) ∧
      (∀ p, s.contains p ↔ p ∈ s.enumerate) ∧
      (s.isEmpty ↔ s.enumerate = []) ∧
      s.count = min maxCount s.enumerate.length := by
  refine ⟨fun limit h => ?_, fun p => (mem_enumerate hs).symm, ?_, count_eq_min hs⟩
  · rw [programs_eq_take, List.take_of_length_le h]
  · rw [isEmpty_iff, List.eq_nil_iff_forall_not_mem]
    exact forall_congr' fun p => not_congr (mem_enumerate hs).symm

/-- A sum over thirty-three digits in base sixteen, more programs than are counted; and one that has
nothing to choose for a last argument, and no program. -/
theorem views_agree_digits :
    let digit : Space Unit := leaf () (.ofList ((List.range 16).map fun n => .lit (.ofNat n)))
    let digits := List.replicate 33 digit
    maxCount ≤ (join () .sum digits).enumerate.length ∧
      (join () .sum (digits ++ [union () []])).enumerate = [] ∧
      (join () .sum (digits ++ [union () []])).count = 0 := by
  intro digit digits
  have hdigits : ∀ s ∈ digits, s.Proper := fun s hs => List.eq_of_mem_replicate hs ▸ .leaf _ _
  have hmany : (join () .sum digits).Proper := .join hdigits
  have hnone : (join () .sum (digits ++ [union () []])).Proper := by
    have hall : ∀ s ∈ digits ++ [union () []], s.Proper :=
      List.forall_mem_append.2 ⟨hdigits, List.forall_mem_singleton.2 (.union (by simp))⟩
    exact .join hall
  have hcount : (join () .sum digits).count = maxCount := by
    decide +kernel
  have hempty : (join () .sum (digits ++ [union () []])).isEmpty := by
    decide +kernel
  obtain ⟨_, _, _, hlength⟩ := views_agree hmany
  obtain ⟨_, _, hlists, hzero⟩ := views_agree hnone
  have hnil := hlists.1 hempty
  rw [hnil] at hzero
  exact ⟨by omega, hnil, hzero.trans (Nat.min_zero _)⟩

end Space

end ArithLearn
