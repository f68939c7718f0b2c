/-
A ranking that is cut down at every node has the beginning of the complete
one.

In natural numbers a sum or a product is no better for a worse operand
(`combine_le`). So of an argument's entries none is missed that `k` others
of it beat: with the other arguments left as they are, the applications to
it are beaten by those to the `k` others (`best_tuples`). For the position
of an element this is not so, since a literal counts there by its value and
not by its score, and positions must not be cut down. They are not, where
they stand in leaves: `Rankable` asks for that.
-/
import ArithLearn.Proofs.Ranking.Offers
import Mathlib.Data.List.Nodup

namespace ArithLearn

/-! ### Scores in natural numbers -/

theorem precedes_iff_le {a b : Ranked Nat} : a.precedes b ↔ b.score ≤ a.score := by
  rw [Ranked.precedes_iff]
  show (compare b.score a.score).isLE ↔ b.score ≤ a.score
  rw [Nat.isLE_compare]

theorem scoreAt_le {front rest : List (Ranked Nat)} {a b : Ranked Nat} (h : b.score ≤ a.score)
    (i : Nat) : scoreAt (front ++ b :: rest) i ≤ scoreAt (front ++ a :: rest) i := by
  unfold scoreAt
  rcases Nat.lt_trichotomy i front.length with hi | rfl | hi
  · simp [List.getElem?_append_left hi]
  · simpa using h
  · obtain ⟨j, hj⟩ : ∃ j, i - front.length = j + 1 := ⟨i - front.length - 1, by omega⟩
    simp [List.getElem?_append_right (Nat.le_of_lt hi), hj]

/-- An argument with a higher score makes for no lower one, unless it is a position. -/
theorem combine_le {op : Op} {front rest : List (Ranked Nat)} {a b : Ranked Nat}
    (h : b.score ≤ a.score) (hpos : op = .elementAt → front.length ≠ 1) :
    combine op (front ++ b :: rest) ≤ combine op (front ++ a :: rest) := by
  cases op with
  | sum => exact Nat.add_le_add (scoreAt_le h 1) (scoreAt_le h 2)
  | mul => exact Nat.mul_le_mul (scoreAt_le h 1) (scoreAt_le h 2)
  | div => exact Nat.mul_le_mul (scoreAt_le h 1) (scoreAt_le h 2)
  | elementAt =>
    -- The position is another argument, so it is the same on both sides.
    match front, hpos rfl with
    | [], _ =>
      match rest with
      | [] => exact Nat.le_refl _
      | ⟨_, .lit n⟩ :: _ | ⟨_, .input⟩ :: _ | ⟨_, .app _ _⟩ :: _ => exact Nat.le_refl _
    | _ :: ⟨_, .lit n⟩ :: _, _ | _ :: ⟨_, .input⟩ :: _, _ | _ :: ⟨_, .app _ _⟩ :: _, _ =>
      exact Nat.le_refl _

/-! ### Cuts -/

/-- The first list is what the second begins with, and beats the rest of it. -/
structure Cut {σ : Type} [Score σ] (k : Nat) (as bs : List (Ranked σ)) : Prop where
  append : as ++ bs.drop as.length = bs
  beaten : ∀ r ∈ bs.drop as.length, Beaten k as r

section Cut

variable {σ : Type} [Score σ] {k : Nat}

theorem Cut.refl (as : List (Ranked σ)) : Cut k as as := ⟨by simp, by simp⟩

/-- The first `k` of all entries beat the others. -/
theorem cut_take (k : Nat) (entries : List (Ranked σ)) :
    Cut k ((bestAll entries).take k) (bestAll entries) := by
  have hsplit : (bestAll entries).take k ++ (bestAll entries).drop k = bestAll entries :=
    List.take_append_drop k _
  have hdrop : (bestAll entries).drop ((bestAll entries).take k).length =
      (bestAll entries).drop k := by
    rw [List.length_take]
    rcases Nat.le_total k (bestAll entries).length with hk | hk
    · rw [Nat.min_eq_left hk]
    · rw [Nat.min_eq_right hk, List.drop_length, List.drop_eq_nil_of_le hk]
  refine ⟨by rw [hdrop, hsplit], fun r hr => ?_⟩
  rw [hdrop] at hr
  have hlen : k < (bestAll entries).length := by
    have h := List.length_pos_of_mem hr
    rw [List.length_drop] at h
    omega
  have hnodup : (((bestAll entries).take k).map (·.program)).Nodup :=
    (nodup_bestAll entries).sublist ((List.take_sublist _ _).map _)
  have hsorted := pairwise_bestAll entries
  rw [← hsplit] at hsorted
  refine ⟨(bestAll entries).take k, ?_, hnodup, fun b hb => ⟨hb, ?_⟩⟩
  · rw [List.length_take, Nat.min_eq_left (Nat.le_of_lt hlen)]
  · exact (List.pairwise_append.1 hsorted).2.2 b hb r hr

/-- The best of all members' entries are among what is left of them. -/
theorem best_members {α : Type} {ms : List α} {f g : α → List (Ranked σ)}
    (h : ∀ m ∈ ms, Cut k (f m) (g m)) : best k (ms.flatMap f) = best k (ms.flatMap g) := by
  have hg : ms.flatMap g = ms.flatMap fun m => f m ++ (g m).drop (f m).length :=
    List.flatMap_congr fun m hm => ((h m hm).append).symm
  have hbest := best_flatMap (fun m hm => (h m hm).beaten) []
  rw [List.nil_append, List.nil_append, ← hg] at hbest
  exact hbest.symm

end Cut

/-- What beats an argument beats it with other arguments around it, too. -/
theorem Beaten.app {k : Nat} {op : Op} {front rest as : List (Ranked Nat)} {b : Ranked Nat}
    (h : Beaten k as b) (hpos : op = .elementAt → front.length ≠ 1) :
    Beaten k (as.map fun a => Ranked.app op (front ++ a :: rest))
      (Ranked.app op (front ++ b :: rest)) := by
  obtain ⟨bs, hlen, hnodup, hbs⟩ := h
  refine ⟨bs.map fun a => Ranked.app op (front ++ a :: rest), ?_, ?_, fun r hr => ?_⟩
  · rw [List.length_map, hlen]
  · -- The programs differ in the argument, and in nothing else.
    have hinj : Function.Injective fun p : Program =>
        Program.app op (front.map (·.program) ++ p :: rest.map (·.program)) := by
      intro p q hpq
      simpa using hpq
    have hprograms : (bs.map fun a => Ranked.app op (front ++ a :: rest)).map (·.program) =
        (bs.map (·.program)).map fun p =>
          Program.app op (front.map (·.program) ++ p :: rest.map (·.program)) := by
      simp [Ranked.app, Function.comp_def]
    rw [hprograms]
    exact hnodup.map hinj
  · obtain ⟨a, ha, rfl⟩ := List.mem_map.1 hr
    obtain ⟨hmem, hle⟩ := hbs a ha
    refine ⟨List.mem_map.2 ⟨a, hmem, rfl⟩, ?_⟩
    exact precedes_iff_le.2 (combine_le (precedes_iff_le.1 hle) hpos)

/-- One argument's entries may be cut, if it is not a position. -/
theorem best_tuples_cut {k : Nat} {op : Op} {front offers : List (List (Ranked Nat))}
    {as bs : List (Ranked Nat)} (h : Cut k as bs)
    (hpos : op = .elementAt → front.length = 1 → as = bs) :
    best k ((tuples (front ++ as :: offers)).map (Ranked.app op)) =
      best k ((tuples (front ++ bs :: offers)).map (Ranked.app op)) := by
  -- The applications to the entries `xs` at this place, for one choice before it.
  let block (u xs : List (Ranked Nat)) : List (Ranked Nat) :=
    xs.flatMap fun x => (tuples offers).map fun w => Ranked.app op (u ++ x :: w)
  have hblocks : ∀ xs, (tuples (front ++ xs :: offers)).map (Ranked.app op) =
      (tuples front).flatMap fun u => block u xs := by
    intro xs
    simp [block, tuples_append_cons, List.map_flatMap, Function.comp_def]
  have hsplit : ∀ u, block u bs = block u as ++ block u (bs.drop as.length) := by
    intro u
    rw [← List.flatMap_append, h.append]
  have hbeaten : ∀ u ∈ tuples front, ∀ r ∈ block u (bs.drop as.length),
      Beaten k (block u as) r := by
    intro u hu r hr
    obtain ⟨b, hb, hr⟩ := List.mem_flatMap.1 hr
    obtain ⟨w, hw, rfl⟩ := List.mem_map.1 hr
    have hplace : op = .elementAt → u.length ≠ 1 := by
      intro hop hlen
      have heq := hpos hop (by rw [← length_of_mem_tuples hu, hlen])
      simp [heq] at hb
    refine ((h.beaten b hb).app hplace).mono fun r hr => ?_
    obtain ⟨a, ha, rfl⟩ := List.mem_map.1 hr
    exact List.mem_flatMap.2 ⟨a, ha, List.mem_map.2 ⟨w, hw, rfl⟩⟩
  have hbest := best_flatMap hbeaten []
  rw [hblocks, hblocks, List.flatMap_congr fun u _ => hsplit u]
  simpa using hbest.symm

/-- Every argument's entries may be cut, but for those of a position. -/
theorem best_tuples {k : Nat} {op : Op} {front offers rankings : List (List (Ranked Nat))}
    (h : List.Forall₂ (Cut k) offers rankings)
    (hpos : op = .elementAt → ∀ i, front.length + i = 1 → offers[i]? = rankings[i]?) :
    best k ((tuples (front ++ offers)).map (Ranked.app op)) =
      best k ((tuples (front ++ rankings)).map (Ranked.app op)) := by
  induction h generalizing front with
  | nil => rfl
  | @cons as bs offers rankings hcut _ ih =>
    have hhead : op = .elementAt → front.length = 1 → as = bs := fun hop hlen => by
      simpa using hpos hop 0 hlen
    have htail : op = .elementAt → ∀ i, (front ++ [bs]).length + i = 1 →
        offers[i]? = rankings[i]? := by
      intro hop i hi
      rw [List.length_append, List.length_singleton] at hi
      simpa using hpos hop (i + 1) (by omega)
    calc best k ((tuples (front ++ as :: offers)).map (Ranked.app op))
        = best k ((tuples (front ++ bs :: offers)).map (Ranked.app op)) :=
          best_tuples_cut hcut hhead
      _ = best k ((tuples ((front ++ [bs]) ++ offers)).map (Ranked.app op)) := by simp
      _ = best k ((tuples ((front ++ [bs]) ++ rankings)).map (Ranked.app op)) := ih htail
      _ = best k ((tuples (front ++ bs :: rankings)).map (Ranked.app op)) := by simp

/-! ### Whole spaces -/

namespace Space

variable {ι : Type}

/-- Whether a space is listed, and not put together from others. -/
def isLeaf : Space ι → Bool
  | leaf _ _ => true
  | union _ _ | join _ _ _ => false

/-- Listed are the input and literals only, each operator has a child, and where an element is read
its position is listed. -/
inductive Rankable : Space ι → Prop
  | leaf {l : ι} {ps : SortedSet Program} (terminal : ∀ p ∈ ps, p = .input ∨ ∃ n, p = .lit n) :
      Rankable (leaf l ps)
  | union {l : ι} {ms : List (Space ι)} (members : ∀ m ∈ ms, Rankable m) : Rankable (union l ms)
  | join {l : ι} {op : Op} {c : Space ι} {cs : List (Space ι)}
      (children : ∀ s ∈ c :: cs, Rankable s)
      (position : op = .elementAt → ∀ s ∈ cs.head?, s.isLeaf) : Rankable (join l op (c :: cs))

theorem Rankable.proper {s : Space ι} (h : s.Rankable) : s.Proper := by
  induction h with
  | leaf _ => exact .leaf _ _
  | union _ ih => exact .union ih
  | join _ _ ih => exact .join ih

variable {k : Nat}

theorem rankWith_best_union {l : ι} {ms : List (Space ι)}
    (h : ∀ m ∈ ms, Cut (σ := Nat) k (m.rankWith (best k)) (m.rankWith bestAll)) :
    ((union l ms).rankWith (best k) : List (Ranked Nat)) =
      ((union l ms).rankWith bestAll).take k := by
  rw [rankWith_union, rankWith_union, best_members h, best_eq_take]

theorem rankWith_best_join {l : ι} {op : Op} {c : Space ι} {cs : List (Space ι)}
    (h : ∀ s ∈ c :: cs, Cut (σ := Nat) k (s.rankWith (best k)) (s.rankWith bestAll))
    (position : op = .elementAt → ∀ s ∈ cs.head?, s.isLeaf) :
    ((join l op (c :: cs)).rankWith (best k) : List (Ranked Nat)) =
      ((join l op (c :: cs)).rankWith bestAll).take k := by
  have hcuts : List.Forall₂ (Cut (σ := Nat) k) ((c :: cs).map (rankWith (best k)))
      ((c :: cs).map (rankWith bestAll)) := by
    rw [List.forall₂_map_left_iff, List.forall₂_map_right_iff, List.forall₂_same]
    exact h
  have hpos : op = .elementAt → ∀ i, ([] : List (List (Ranked Nat))).length + i = 1 →
      ((c :: cs).map (rankWith (best k)))[i]? =
        ((c :: cs).map (rankWith (bestAll (σ := Nat))))[i]? := by
    intro hop i hi
    obtain rfl : i = 1 := by simpa using hi
    match cs, position hop with
    | [], _ => rfl
    | .leaf _ _ :: _, _ => simp
    | .union _ _ :: _, hleaf | .join _ _ _ :: _, hleaf => simp [isLeaf] at hleaf
  have hbest := best_tuples hcuts hpos
  rw [List.nil_append, List.nil_append] at hbest
  rw [rankWith_join, rankWith_join, ← best_eq_take]
  exact hbest

/-- What is kept of a node is cut from what there is. -/
theorem Rankable.cut {s : Space ι} (hs : s.Rankable) :
    Cut (σ := Nat) k (s.rankWith (best k)) (s.rankWith bestAll) := by
  induction hs with
  | leaf _ =>
    rw [rankWith_leaf, rankWith_leaf]
    exact .refl _
  | union _ ih =>
    rw [rankWith_best_union ih, rankWith_union]
    exact cut_take k _
  | join _ position ih =>
    rw [rankWith_best_join ih position, rankWith_join]
    exact cut_take k _

/-- **The best `k` of a space are what the ranking of all its programs begins with.** -/
theorem Rankable.rankWith_best {s : Space ι} (hs : s.Rankable) (hleaf : s.isLeaf = false) :
    (s.rankWith (best k) : List (Ranked Nat)) = (s.rankWith bestAll).take k := by
  cases hs with
  | leaf _ => cases hleaf
  | union members => exact rankWith_best_union fun m hm => (members m hm).cut
  | join children position =>
    exact rankWith_best_join (fun c hc => (children c hc).cut) position

end Space

end ArithLearn
