/-
The best entries of a list, and which entries do not count among them.

Cutting off is the last step of `best`: it takes the first `k` of
`bestAll`, which sorts the whole list and leaves out programs that stood
there before (`best_eq_take`). The sort is stable, so an entry that `k`
entries with other programs stand before, and with no lower scores, is
never among the best (`Beaten`), and leaving it out of the list to begin
with changes nothing (`best_append_cons`). This is what lets a ranking be
cut short before it is complete.
-/
import ArithLearn.Space.Ranking
import Mathlib.Data.List.Perm.Subperm

namespace ArithLearn

/-! ### Stable sorting -/

section Sorting

variable {α : Type} {le : α → α → Bool}

/-- A new first entry goes before those it may stand before, and behind the others. -/
theorem mergeSort_cons_eq (trans : ∀ a b c, le a b → le b c → le a c)
    (total : ∀ a b, le a b || le b a) (a : α) (l : List α) :
    (a :: l).mergeSort le =
      (l.mergeSort le).filter (fun b => !le a b) ++ a :: (l.mergeSort le).filter (le a) := by
  obtain ⟨front, back, hcons, hl, hfront⟩ := List.mergeSort_cons trans total a l
  have hsorted := List.pairwise_mergeSort trans total (a :: l)
  rw [hcons] at hsorted
  have hback : ∀ b ∈ back, le a b = true :=
    (List.pairwise_cons.1 (List.pairwise_append.1 hsorted).2.1).1
  have hfront' : ∀ b ∈ front, le a b = false := fun b hb => by simpa using hfront b hb
  have h1 : (front ++ back).filter (fun b => !le a b) = front := by
    rw [List.filter_append, List.filter_eq_self.2 fun b hb => by simp [hfront' b hb],
      List.filter_eq_nil_iff.2 fun b hb => by simp [hback b hb], List.append_nil]
  have h2 : (front ++ back).filter (le a) = back := by
    rw [List.filter_append, List.filter_eq_nil_iff.2 fun b hb => by simp [hfront' b hb],
      List.filter_eq_self.2 hback, List.nil_append]
  rw [hcons, hl, h1, h2]

/-- An entry is sorted in among the others, behind those that stood before it and may do so. -/
theorem exists_mergeSort_append_cons (trans : ∀ a b c, le a b → le b c → le a c)
    (total : ∀ a b, le a b || le b a) (pre : List α) (x : α) (post : List α) :
    ∃ front back, (pre ++ x :: post).mergeSort le = front ++ x :: back ∧
      (pre ++ post).mergeSort le = front ++ back ∧ ∀ a ∈ pre, le a x → a ∈ front := by
  induction pre with
  | nil =>
    obtain ⟨front, back, hcons, hpost, _⟩ := List.mergeSort_cons trans total x post
    exact ⟨front, back, hcons, hpost, by simp⟩
  | cons a pre ih =>
    obtain ⟨front, back, hx, hrest, hpre⟩ := ih
    have hsorted := List.pairwise_mergeSort trans total (pre ++ x :: post)
    rw [hx] at hsorted
    obtain ⟨_, hback, hfront⟩ := List.pairwise_append.1 hsorted
    have hback : ∀ b ∈ back, le x b = true := (List.pairwise_cons.1 hback).1
    have hfront : ∀ b ∈ front, le b x = true := fun b hb => hfront b hb x (by simp)
    rw [List.cons_append, List.cons_append, mergeSort_cons_eq trans total,
      mergeSort_cons_eq trans total, hx, hrest]
    by_cases hax : le a x = true
    · have hnone : back.filter (fun b => !le a b) = [] :=
        List.filter_eq_nil_iff.2 fun b hb => by simp [trans a x b hax (hback b hb)]
      refine ⟨front.filter (fun b => !le a b) ++ a :: front.filter (le a), back.filter (le a),
        ?_, ?_, fun b hb hbx => ?_⟩
      · simp [hax, hnone]
      · simp [hnone]
      · rcases List.mem_cons.1 hb with rfl | hb
        · simp
        · have hmem := hpre b hb hbx
          by_cases hab : le a b = true <;> simp [hmem, hab]
    · have hnot : ∀ b ∈ front, le a b = false := by
        intro b hb
        by_contra hab
        exact hax (trans a b x (by simpa using hab) (hfront b hb))
      have hnone : front.filter (le a) = [] :=
        List.filter_eq_nil_iff.2 fun b hb => by simp [hnot b hb]
      refine ⟨front.filter (fun b => !le a b),
        back.filter (fun b => !le a b) ++ a :: back.filter (le a), ?_, ?_, fun b hb hbx => ?_⟩
      · simp [hax, hnone]
      · simp [hnone]
      · rcases List.mem_cons.1 hb with rfl | hb
        · exact absurd hbx hax
        · have hmem := hpre b hb hbx
          simp [hmem, hnot b hmem]

end Sorting

variable {σ : Type}

namespace Ranked

variable [Score σ]

theorem precedes_iff {a b : Ranked σ} :
    a.precedes b ↔ (Score.compare b.score a.score).isLE := by
  unfold precedes
  cases Score.compare b.score a.score <;> decide

theorem precedes_trans (a b c : Ranked σ) (hab : a.precedes b) (hbc : b.precedes c) :
    a.precedes c := by
  rw [precedes_iff] at hab hbc ⊢
  exact Std.TransCmp.isLE_trans hbc hab

theorem precedes_total (a b : Ranked σ) : a.precedes b || b.precedes a := by
  have hswap : Score.compare b.score a.score = (Score.compare a.score b.score).swap :=
    Std.OrientedCmp.eq_swap
  rw [Bool.or_eq_true, precedes_iff, precedes_iff, hswap]
  cases Score.compare a.score b.score <;> decide

end Ranked

/-! ### Distinct programs -/

/-- The entries whose programs are not among those seen, nor repeat one before them. -/
def distinct : List Program → List (Ranked σ) → List (Ranked σ)
  | _, [] => []
  | seen, r :: rs =>
    if seen.contains r.program then distinct seen rs else r :: distinct (r.program :: seen) rs

theorem firstDistinct_eq_take (k : Nat) (seen : List Program) (rs : List (Ranked σ)) :
    firstDistinct k seen rs = (distinct seen rs).take k := by
  induction rs generalizing k seen with
  | nil => cases k <;> simp [firstDistinct, distinct]
  | cons r rs ih =>
    cases k with
    | zero => simp [firstDistinct]
    | succ k =>
      rw [firstDistinct, distinct]
      split
      · exact ih (k + 1) seen
      · rw [ih, List.take_succ_cons]

theorem distinct_sublist (seen : List Program) (rs : List (Ranked σ)) :
    (distinct seen rs).Sublist rs := by
  induction rs generalizing seen with
  | nil => exact .slnil
  | cons r rs ih =>
    rw [distinct]
    split
    · exact .cons r (ih seen)
    · exact .cons_cons r (ih _)

/-- What is kept has programs that were not seen, and each of them once. -/
theorem nodup_distinct (seen : List Program) (rs : List (Ranked σ)) :
    ((distinct seen rs).map (·.program)).Nodup ∧
      ∀ r ∈ distinct seen rs, r.program ∉ seen := by
  induction rs generalizing seen with
  | nil => simp [distinct]
  | cons r rs ih =>
    rw [distinct]
    split
    · exact ih seen
    · rename_i hr
      obtain ⟨hnodup, hseen⟩ := ih (r.program :: seen)
      have hnot : ∀ r' ∈ distinct (r.program :: seen) rs, r'.program ≠ r.program ∧
          r'.program ∉ seen := fun r' hr' => by simpa using hseen r' hr'
      refine ⟨List.nodup_cons.2 ⟨fun hmem => ?_, hnodup⟩, List.forall_mem_cons.2 ⟨?_, ?_⟩⟩
      · obtain ⟨r', hr', heq⟩ := List.mem_map.1 hmem
        exact (hnot r' hr').1 heq
      · simpa using hr
      · exact fun r' hr' => (hnot r' hr').2

/-- A program that was not seen before is kept, if not with this entry then with an earlier one. -/
theorem exists_mem_distinct {seen : List Program} {rs : List (Ranked σ)} {r : Ranked σ}
    (hr : r ∈ rs) (hseen : r.program ∉ seen) :
    ∃ r' ∈ distinct seen rs, r'.program = r.program := by
  induction rs generalizing seen with
  | nil => simp at hr
  | cons q rs ih =>
    by_cases hq : q.program = r.program
    · have hcons : distinct seen (q :: rs) = q :: distinct (q.program :: seen) rs := by
        rw [distinct, if_neg (by simpa [hq] using hseen)]
      exact ⟨q, by simp [hcons], hq⟩
    · have hr : r ∈ rs := (List.mem_cons.1 hr).resolve_left fun h => hq (h ▸ rfl)
      rw [distinct]
      split
      · exact ih hr hseen
      · have hseen' : r.program ∉ q.program :: seen := by simp [Ne.symm hq, hseen]
        obtain ⟨r', hr', heq⟩ := ih hr hseen'
        exact ⟨r', by simp [hr'], heq⟩

/-- What is kept of a list is kept of a longer one. -/
theorem distinct_append (seen : List Program) (rs rs' : List (Ranked σ)) :
    ∃ more, distinct seen (rs ++ rs') = distinct seen rs ++ more := by
  induction rs generalizing seen with
  | nil => exact ⟨_, rfl⟩
  | cons r rs ih =>
    rw [List.cons_append, distinct, distinct]
    split
    · exact ih seen
    · obtain ⟨more, hmore⟩ := ih (r.program :: seen)
      exact ⟨more, by rw [hmore, List.cons_append]⟩

/-- Of entries with `k` different programs or more, the first `k` are kept whatever comes after. -/
theorem take_distinct_append {k : Nat} {as rs : List (Ranked σ)} {ps : List Program}
    (hnodup : ps.Nodup) (hlen : ps.length = k) (hps : ∀ p ∈ ps, p ∈ as.map (·.program)) :
    (distinct [] (as ++ rs)).take k = (distinct [] as).take k := by
  have hkept : ps ⊆ (distinct [] as).map (·.program) := by
    intro p hp
    obtain ⟨r, hr, rfl⟩ := List.mem_map.1 (hps p hp)
    obtain ⟨r', hr', heq⟩ := exists_mem_distinct hr (by simp : r.program ∉ [])
    exact List.mem_map.2 ⟨r', hr', heq⟩
  have hle : k ≤ (distinct [] as).length := by
    have h := (hnodup.subperm hkept).length_le
    rwa [hlen, List.length_map] at h
  obtain ⟨more, hmore⟩ := distinct_append [] as rs
  rw [hmore, List.take_append_of_le_length hle]

/-! ### Best entries -/

variable [Score σ]

/-- All entries with distinct programs, from the highest score down. -/
def bestAll (entries : List (Ranked σ)) : List (Ranked σ) :=
  distinct [] (entries.mergeSort Ranked.precedes)

/-- **The best entries are what the list of all begins with.** -/
theorem best_eq_take (k : Nat) (entries : List (Ranked σ)) :
    best k entries = (bestAll entries).take k :=
  firstDistinct_eq_take k [] _

theorem mem_of_mem_bestAll {entries : List (Ranked σ)} {r : Ranked σ} (h : r ∈ bestAll entries) :
    r ∈ entries :=
  List.mem_mergeSort.1 ((distinct_sublist _ _).subset h)

theorem exists_mem_bestAll {entries : List (Ranked σ)} {r : Ranked σ} (h : r ∈ entries) :
    ∃ r' ∈ bestAll entries, r'.program = r.program :=
  exists_mem_distinct (List.mem_mergeSort.2 h) (by simp)

theorem nodup_bestAll (entries : List (Ranked σ)) :
    ((bestAll entries).map (·.program)).Nodup :=
  (nodup_distinct [] _).1

theorem pairwise_bestAll (entries : List (Ranked σ)) :
    (bestAll entries).Pairwise fun a b => a.precedes b = true :=
  (List.pairwise_mergeSort Ranked.precedes_trans Ranked.precedes_total entries).sublist
    (distinct_sublist _ _)

/-- There are `k` entries with different programs among these that may stand before `r`. -/
def Beaten (k : Nat) (as : List (Ranked σ)) (r : Ranked σ) : Prop :=
  ∃ bs : List (Ranked σ), bs.length = k ∧ (bs.map (·.program)).Nodup ∧
    ∀ b ∈ bs, b ∈ as ∧ b.precedes r = true

theorem Beaten.mono {k : Nat} {as as' : List (Ranked σ)} {r : Ranked σ} (h : Beaten k as r)
    (hsub : as ⊆ as') : Beaten k as' r := by
  obtain ⟨bs, hlen, hnodup, hbs⟩ := h
  exact ⟨bs, hlen, hnodup, fun b hb => ⟨hsub (hbs b hb).1, (hbs b hb).2⟩⟩

/-- **An entry that is beaten by what stands before it may be left out.** -/
theorem best_append_cons {k : Nat} {pre post : List (Ranked σ)} {r : Ranked σ}
    (h : Beaten k pre r) : best k (pre ++ r :: post) = best k (pre ++ post) := by
  obtain ⟨bs, hlen, hnodup, hbs⟩ := h
  obtain ⟨front, back, hwith, hwithout, hfront⟩ :=
    exists_mergeSort_append_cons Ranked.precedes_trans Ranked.precedes_total pre r post
  have hps : ∀ p ∈ bs.map (·.program), p ∈ front.map (·.program) := by
    intro p hp
    obtain ⟨b, hb, rfl⟩ := List.mem_map.1 hp
    obtain ⟨hmem, hle⟩ := hbs b hb
    exact List.mem_map.2 ⟨b, hfront b hmem hle, rfl⟩
  have hlen : (bs.map (·.program)).length = k := by rw [List.length_map, hlen]
  rw [best_eq_take, best_eq_take, bestAll, bestAll, hwith, hwithout,
    take_distinct_append hnodup hlen hps, take_distinct_append hnodup hlen hps]

theorem best_append_append {k : Nat} {pre mid post : List (Ranked σ)}
    (h : ∀ r ∈ mid, Beaten k pre r) : best k (pre ++ (mid ++ post)) = best k (pre ++ post) := by
  induction mid with
  | nil => rfl
  | cons r mid ih =>
    rw [List.cons_append, best_append_cons (h r (by simp)), ih fun r' hr' => h r' (by simp [hr'])]

/-- Of several lists, each may lose what its own beginning beats. -/
theorem best_flatMap {α : Type} {k : Nat} {us : List α} {front back : α → List (Ranked σ)}
    (h : ∀ u ∈ us, ∀ r ∈ back u, Beaten k (front u) r) (pre : List (Ranked σ)) :
    best k (pre ++ us.flatMap fun u => front u ++ back u) = best k (pre ++ us.flatMap front) := by
  induction us generalizing pre with
  | nil => rfl
  | cons u us ih =>
    have hbeaten : ∀ r ∈ back u, Beaten k (pre ++ front u) r := fun r hr =>
      (h u (by simp) r hr).mono (List.subset_append_right _ _)
    have hus : ∀ v ∈ us, ∀ r ∈ back v, Beaten k (front v) r := fun v hv => h v (by simp [hv])
    calc best k (pre ++ (u :: us).flatMap fun v => front v ++ back v)
        = best k ((pre ++ front u) ++ (back u ++ us.flatMap fun v => front v ++ back v)) := by
          simp [List.append_assoc]
      _ = best k ((pre ++ front u) ++ us.flatMap fun v => front v ++ back v) :=
          best_append_append hbeaten
      _ = best k ((pre ++ front u) ++ us.flatMap front) := ih hus _
      _ = best k (pre ++ (u :: us).flatMap front) := by simp [List.append_assoc]

end ArithLearn
