/-
Which of two members a list shows first.

`Leads l p q` compares first occurrences, so it does not matter how often
a member stands in the list. Entries that are filtered out or dropped as
repetitions do not change it, nor does a stable sort where it has nothing
to prefer (`leads_bestAll`). In lists put together from others it is
decided by the first of them that has either member
(`leads_append_of_mem`), and in a product by the first factor at which the
members differ (`leads_tuples_cons`).
-/
import ArithLearn.Proofs.Ranking.Best
import Mathlib.Data.List.Nodup

namespace ArithLearn

section Leads

variable {α β : Type} [DecidableEq α] [DecidableEq β] {l l' : List α} {p q x : α}

/-- The first `p` of the list stands before the first `q`. If there is no `q`, any `p` does. -/
def Leads (l : List α) (p q : α) : Prop := l.idxOf p < l.idxOf q

theorem not_leads_nil : ¬ Leads ([] : List α) p q := by
  simp [Leads]

theorem leads_cons : Leads (x :: l) p q ↔ x ≠ q ∧ (x = p ∨ Leads l p q) := by
  unfold Leads
  by_cases hq : x = q
  · simp [hq]
  rw [List.idxOf_cons_ne l hq]
  by_cases hp : x = p
  · simp [hp, hp ▸ hq]
  · simp [List.idxOf_cons_ne l hp, hp, hq]

/-- Only members lead. -/
theorem Leads.mem (h : Leads l p q) : p ∈ l := by
  have hlt : l.idxOf p < l.length := Nat.lt_of_lt_of_le h List.idxOf_le_length
  exact List.idxOf_lt_length_iff.1 hlt

theorem Leads.ne (h : Leads l p q) : p ≠ q := by
  intro heq
  rw [heq] at h
  exact Nat.lt_irrefl _ h

theorem Leads.asymm (h : Leads l p q) : ¬ Leads l q p := Nat.lt_asymm h

/-- A member leads what is no member. -/
theorem leads_of_not_mem (hp : p ∈ l) (hq : q ∉ l) : Leads l p q := by
  rw [Leads, List.idxOf_of_notMem hq]
  exact List.idxOf_lt_length_iff.2 hp

/-- Of two members one leads. -/
theorem leads_or_leads (hp : p ∈ l) (hne : p ≠ q) : Leads l p q ∨ Leads l q p :=
  Nat.lt_or_gt_of_ne fun h => hne ((List.idxOf_inj hp).1 h)

/-- What has one of the two decides. -/
theorem leads_append_of_mem (h : p ∈ l ∨ q ∈ l) : Leads (l ++ l') p q ↔ Leads l p q := by
  induction l with
  | nil => simp at h
  | cons x l ih =>
    rw [List.cons_append, leads_cons, leads_cons]
    by_cases hq : x = q
    · simp [hq]
    by_cases hp : x = p
    · simp [hp]
    · rw [ih (by simpa [Ne.symm hp, Ne.symm hq] using h)]

/-- What has neither of the two decides nothing. -/
theorem leads_append_of_not_mem (hp : p ∉ l) (hq : q ∉ l) :
    Leads (l ++ l') p q ↔ Leads l' p q := by
  rw [Leads, List.idxOf_append_of_notMem hp, List.idxOf_append_of_notMem hq,
    Nat.add_lt_add_iff_left, Leads]

theorem leads_map {f : α → β} (hf : Function.Injective f) :
    Leads (l.map f) (f p) (f q) ↔ Leads l p q := by
  induction l with
  | nil => simp [not_leads_nil]
  | cons x l ih => rw [List.map_cons, leads_cons, leads_cons, hf.eq_iff, ne_eq, hf.eq_iff, ih]

/-- What is filtered out does not count, if the two stay. -/
theorem leads_filter {f : α → Bool} (hp : f p) (hq : f q) :
    Leads (l.filter f) p q ↔ Leads l p q := by
  induction l with
  | nil => rfl
  | cons x l ih =>
    by_cases hx : f x
    · rw [List.filter_cons_of_pos hx, leads_cons, leads_cons, ih]
    · have hxp : x ≠ p := fun h => hx (h ▸ hp)
      have hxq : x ≠ q := fun h => hx (h ▸ hq)
      rw [List.filter_cons_of_neg hx, leads_cons, ih]
      simp [hxp, hxq]

/-- The first of two members stands to the second as every member to a later one. -/
theorem Leads.rel {R : α → α → Prop} (h : l.Pairwise R) (hpq : Leads l p q) (hq : q ∈ l) :
    R p q := by
  induction l with
  | nil => simp at hq
  | cons x l ih =>
    obtain ⟨hx, hl⟩ := List.pairwise_cons.1 h
    obtain ⟨hne, rfl | hpq⟩ := leads_cons.1 hpq
    · exact hx q ((List.mem_cons.1 hq).resolve_left (Ne.symm hne))
    · exact ih hl hpq ((List.mem_cons.1 hq).resolve_left (Ne.symm hne))

/-- Where members ascend, the smaller one leads. -/
theorem leads_iff_of_pairwise {lt : α → α → Prop} (hasymm : ∀ a b, lt a b → ¬ lt b a)
    (h : l.Pairwise lt) (hp : p ∈ l) (hq : q ∈ l) : Leads l p q ↔ lt p q := by
  constructor
  · exact fun hpq => hpq.rel h hq
  · intro hlt
    have hne : p ≠ q := by
      rintro rfl
      exact hasymm p p hlt hlt
    exact (leads_or_leads hp hne).resolve_right fun hqp => hasymm p q hlt (hqp.rel h hp)

end Leads

/-- The first factor at which two members of a product differ decides. -/
theorem leads_tuples_cons {α : Type} [DecidableEq α] {xs : List α} {rest : List (List α)} {a b : α}
    {as bs : List α} (ha : a ∈ xs) (hb : b ∈ xs) (has : as ∈ tuples rest) (hbs : bs ∈ tuples rest) :
    Leads (tuples (xs :: rest)) (a :: as) (b :: bs) ↔
      if a = b then Leads (tuples rest) as bs else Leads xs a b := by
  have hblock : ∀ {x y : α} {ys : List α}, ys ∈ tuples rest →
      (y :: ys ∈ (tuples rest).map (x :: ·) ↔ x = y) := by
    intro x y ys hys
    simp [hys]
  induction xs with
  | nil => simp at ha
  | cons x xs ih =>
    have htuples : tuples ((x :: xs) :: rest) =
        (tuples rest).map (x :: ·) ++ tuples (xs :: rest) := by
      simp [tuples]
    rw [htuples]
    by_cases hxa : x = a
    · subst hxa
      rw [leads_append_of_mem (.inl ((hblock has).2 rfl))]
      by_cases hab : x = b
      · subst hab
        rw [if_pos rfl, leads_map List.cons_injective]
      · rw [if_neg hab, leads_cons]
        refine iff_of_true (leads_of_not_mem ((hblock has).2 rfl) ?_) ⟨hab, .inl rfl⟩
        exact fun h => hab ((hblock hbs).1 h)
    · by_cases hxb : x = b
      · subst hxb
        rw [leads_append_of_mem (.inr ((hblock hbs).2 rfl)), if_neg (Ne.symm hxa), leads_cons]
        exact iff_of_false (fun h => hxa ((hblock has).1 h.mem)) fun h => h.1 rfl
      · rw [leads_append_of_not_mem (fun h => hxa ((hblock has).1 h))
          fun h => hxb ((hblock hbs).1 h), leads_cons]
        have hxs := ih ((List.mem_cons.1 ha).resolve_left (Ne.symm hxa))
          ((List.mem_cons.1 hb).resolve_left (Ne.symm hxb))
        simp [hxs, hxa, hxb]

/-! ### Sorting -/

/-- A stable sort leaves those in their order among which it has nothing to prefer. -/
theorem filter_mergeSort {α : Type} {le : α → α → Bool} (trans : ∀ a b c, le a b → le b c → le a c)
    (total : ∀ a b, le a b || le b a) {f : α → Bool} {l : List α}
    (htie : ∀ a ∈ l, ∀ b ∈ l, f a → f b → le a b) :
    (l.mergeSort le).filter f = l.filter f := by
  induction l with
  | nil => simp
  | cons a l ih =>
    have htie' : ∀ b ∈ l, ∀ c ∈ l, f b → f c → le b c :=
      fun b hb c hc => htie b (by simp [hb]) c (by simp [hc])
    have hl := ih htie'
    have hmem : ∀ b ∈ l.mergeSort le, b ∈ l := fun b hb => List.mem_mergeSort.1 hb
    rw [mergeSort_cons_eq trans total, List.filter_append]
    -- The new entry goes before all of those that stay, or behind all of them.
    by_cases hall : ∀ b ∈ l, f b → le a b
    · have hfront : ((l.mergeSort le).filter fun b => !le a b).filter f = [] := by
        refine List.filter_eq_nil_iff.2 fun b hb hf => ?_
        obtain ⟨hb, hab⟩ := List.mem_filter.1 hb
        simp [hall b (hmem b hb) hf] at hab
      have hback : ((l.mergeSort le).filter (le a)).filter f = l.filter f := by
        rw [List.filter_filter, ← hl]
        refine List.filter_congr fun b hb => ?_
        by_cases hf : f b <;> simp [hf]
        exact hall b (hmem b hb) hf
      rw [hfront, List.nil_append, List.filter_cons, hback, List.filter_cons]
    · have hnone : ∀ b ∈ l, f b → le a b = false := by
        push Not at hall
        obtain ⟨c, hc, hfc, hac⟩ := hall
        intro b hb hf
        by_contra hab
        exact hac (trans a b c (by simpa using hab) (htie' b hb c hc hf hfc))
      have ha : f a = false := by
        by_contra hf
        exact hall fun b hb hfb => htie a (by simp) b (by simp [hb]) (by simpa using hf) hfb
      have hfront : ((l.mergeSort le).filter fun b => !le a b).filter f = l.filter f := by
        rw [List.filter_filter, ← hl]
        refine List.filter_congr fun b hb => ?_
        by_cases hf : f b <;> simp [hf]
        exact hnone b (hmem b hb) hf
      have hback : ((l.mergeSort le).filter (le a)).filter f = [] := by
        refine List.filter_eq_nil_iff.2 fun b hb hf => ?_
        obtain ⟨hb, hab⟩ := List.mem_filter.1 hb
        simp [hnone b (hmem b hb) hf] at hab
      rw [hfront, List.filter_cons, hback, List.filter_cons]
      simp [ha]

variable {σ : Type} {p q : Program}

/-- Dropping repetitions keeps first occurrences. -/
theorem leads_distinct {seen : List Program} {rs : List (Ranked σ)} (hp : p ∉ seen)
    (hq : q ∉ seen) :
    Leads ((distinct seen rs).map (·.program)) p q ↔ Leads (rs.map (·.program)) p q := by
  induction rs generalizing seen with
  | nil => rfl
  | cons r rs ih =>
    rw [distinct]
    split
    · rename_i hr
      have hseen : r.program ∈ seen := by simpa using hr
      have hrp : r.program ≠ p := fun h => hp (h ▸ hseen)
      have hrq : r.program ≠ q := fun h => hq (h ▸ hseen)
      rw [ih hp hq, List.map_cons, leads_cons]
      simp [hrp, hrq]
    · rw [List.map_cons, List.map_cons, leads_cons, leads_cons]
      by_cases hrq : r.program = q
      · simp [hrq]
      by_cases hrp : r.program = p
      · simp [hrp]
      · rw [ih (by simp [hp, Ne.symm hrp]) (by simp [hq, Ne.symm hrq])]

/-- How two programs compare by their scores. -/
def Program.byScore (σ : Type) [Score σ] (p q : Program) : Ordering :=
  Score.compare (p.score : σ) q.score

variable [Score σ]

theorem Program.byScore_self : p.byScore σ p = .eq :=
  (Std.ReflCmp.compare_self : Score.compare (p.score : σ) p.score = .eq)

/-- The entries are programs with their own scores. -/
def SelfScored (rs : List (Ranked σ)) : Prop := ∀ r ∈ rs, r = r.program.ranked

/-- Of two programs that score the same, the best entries show that one first which all do. -/
theorem leads_bestAll {entries : List (Ranked σ)} (hself : SelfScored entries)
    (htie : p.byScore σ q = .eq) :
    Leads ((bestAll entries).map (·.program)) p q ↔ Leads (entries.map (·.program)) p q := by
  -- The programs that score as both do; among them the sort has nothing to prefer.
  let same (r : Program) : Bool := p.byScore σ r = .eq
  have hsame : ∀ a ∈ entries, ∀ b ∈ entries, same a.program → same b.program → a.precedes b := by
    intro a ha b hb hpa hpb
    have hab : Score.compare b.program.score (a.program.score : σ) = .eq :=
      Std.TransCmp.eq_trans (Std.OrientedCmp.eq_symm (of_decide_eq_true hpb))
        (of_decide_eq_true hpa)
    rw [hself a ha, hself b hb, Ranked.precedes_iff]
    show (Score.compare b.program.score (a.program.score : σ)).isLE
    rw [hab]
    rfl
  have hp : same p := decide_eq_true Program.byScore_self
  have hq : same q := decide_eq_true htie
  have hsorted : ((entries.mergeSort Ranked.precedes).map (·.program)).filter same =
      (entries.map (·.program)).filter same := by
    rw [List.filter_map, List.filter_map, Function.comp_def,
      filter_mergeSort Ranked.precedes_trans Ranked.precedes_total hsame]
  rw [bestAll, leads_distinct (by simp) (by simp), ← leads_filter hp hq, hsorted,
    leads_filter hp hq]

/-- A program with a higher score leads among the best. -/
theorem leads_bestAll_of_gt {entries : List (Ranked σ)} (hself : SelfScored entries)
    (hp : p ∈ (bestAll entries).map (·.program)) (hq : q ∈ (bestAll entries).map (·.program))
    (hgt : p.byScore σ q = .gt) : Leads ((bestAll entries).map (·.program)) p q := by
  have hpairwise : ((bestAll entries).map (·.program)).Pairwise fun a b =>
      (b.byScore σ a).isLE := by
    refine List.pairwise_map.2 ((pairwise_bestAll entries).imp_of_mem ?_)
    intro a b ha hb hab
    have ha := hself a (mem_of_mem_bestAll ha)
    have hb := hself b (mem_of_mem_bestAll hb)
    rw [ha, hb, Ranked.precedes_iff] at hab
    exact hab
  have hne : p ≠ q := by
    rintro rfl
    rw [Program.byScore_self] at hgt
    cases hgt
  refine (leads_or_leads hp hne).resolve_right fun hqp => ?_
  have hle := hqp.rel hpairwise hp
  rw [hgt] at hle
  cases hle

end ArithLearn
