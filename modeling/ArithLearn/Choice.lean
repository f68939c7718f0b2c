/-
Choosing one member from each of several lists.

The choices come in the order of an odometer: the last list moves fastest. There may be very
many, so `firstChoices n` finds the first `n` of them without the rest; the main statement here
is that these are what the complete list begins with.
-/

namespace ArithLearn

variable {α : Type}

/-- All lists with one member from each of the given lists; from no lists, the empty list. -/
def tuples : List (List α) → List (List α)
  | [] => [[]]
  | xs :: rest => xs.flatMap fun x => (tuples rest).map (x :: ·)

/-- All choices of one member from each list. Without a list there is nothing to choose from, and so
no choice. -/
def choices : List (List α) → List (List α)
  | [] => []
  | xs :: rest => tuples (xs :: rest)

/-- Puts each `x` in turn in front of all of `tails`, until there are `n` lists. -/
def prepend (n : Nat) (tails : List (List α)) : List α → List (List α)
  | [] => []
  | x :: xs =>
    if n = 0 then [] else
      let firsts := (tails.take n).map (x :: ·)
      firsts ++ prepend (n - firsts.length) tails xs

/-- The first `n` of the tuples. -/
def firstTuples (n : Nat) : List (List α) → List (List α)
  | [] => [[]].take n
  | xs :: rest => prepend n (firstTuples n rest) xs

/-- The first `n` of the choices. -/
def firstChoices (n : Nat) : List (List α) → List (List α)
  | [] => []
  | xs :: rest => firstTuples n (xs :: rest)

theorem prepend_eq_take (n : Nat) {tails all : List (List α)} (xs : List α)
    (h : ∀ m ≤ n, tails.take m = all.take m) :
    prepend n tails xs = (xs.flatMap fun x => all.map (x :: ·)).take n := by
  induction xs generalizing n with
  | nil => simp [prepend]
  | cons x xs ih =>
    unfold prepend
    split
    · simp [*]
    · have ht : (tails.take n).length = min n all.length := by rw [h n (Nat.le_refl n)]; simp
      rw [List.flatMap_cons, List.take_append, ← List.map_take, h n (Nat.le_refl n)]
      simp only [List.length_map, List.length_take]
      rw [ih _ fun m hm => h m (by omega)]
      congr 2
      omega

theorem firstTuples_eq_take (n : Nat) (factors : List (List α)) :
    firstTuples n factors = (tuples factors).take n := by
  induction factors with
  | nil => rfl
  | cons xs rest ih =>
    refine prepend_eq_take n xs fun m hm => ?_
    rw [ih, List.take_take, Nat.min_eq_left hm]

/-- **The first `n` choices are the first `n` of all choices.** -/
theorem firstChoices_eq_take (n : Nat) (factors : List (List α)) :
    firstChoices n factors = (choices factors).take n := by
  cases factors with
  | nil => simp [firstChoices, choices]
  | cons xs rest => exact firstTuples_eq_take n (xs :: rest)

theorem mem_tuples_cons {xs : List α} {rest : List (List α)} {t : List α} :
    t ∈ tuples (xs :: rest) ↔ ∃ x ∈ xs, ∃ s ∈ tuples rest, t = x :: s := by
  simp only [tuples, List.mem_flatMap, List.mem_map, eq_comm]

/-- A tuple has a member for each list. -/
theorem length_of_mem_tuples {factors : List (List α)} {t : List α} (h : t ∈ tuples factors) :
    t.length = factors.length := by
  induction factors generalizing t with
  | nil => simp_all [tuples]
  | cons xs rest ih =>
    obtain ⟨x, _, s, hs, rfl⟩ := mem_tuples_cons.1 h
    simp [ih hs]

end ArithLearn
