/-
What a ranking keeps of each node, without the memory of nodes visited
before.

`Space.rankWith pick` ranks a space where `pick` cuts down what a union or
an operator is offered. Cut down to the best `k` it is what `topK` computes
(`topK_eq`), as long as labels tell nodes apart. Whatever is picked, an
entry is a program of the space with its own score (`mem_rankWith`); if
`pick` drops no program, all programs of the space are there
(`exists_mem_rankWith`).
-/
import ArithLearn.Proofs.Ranking.Best
import ArithLearn.Proofs.Space.Coherent
import ArithLearn.Proofs.Space.Enumerate

namespace ArithLearn

namespace Space

variable {ι σ : Type} [Score σ] {pick : List (Ranked σ) → List (Ranked σ)}

mutual

/-- The ranked programs of a space, where `pick` keeps some of what unions and operators offer. -/
def rankWith (pick : List (Ranked σ) → List (Ranked σ)) : Space ι → List (Ranked σ)
  | leaf _ ps => ps.toList.map Program.ranked
  | union _ ms => pick (rankWithAll pick ms).flatten
  | join _ op cs => pick ((choices (rankWithAll pick cs)).map (Ranked.app op))

def rankWithAll (pick : List (Ranked σ) → List (Ranked σ)) :
    List (Space ι) → List (List (Ranked σ))
  | [] => []
  | s :: ss => rankWith pick s :: rankWithAll pick ss

end

theorem rankWithAll_eq (ss : List (Space ι)) : rankWithAll pick ss = ss.map (rankWith pick) := by
  induction ss with
  | nil => rfl
  | cons s ss ih => simp [rankWithAll, ih]

@[simp] theorem rankWith_leaf {l : ι} {ps : SortedSet Program} :
    (leaf l ps).rankWith pick = ps.toList.map Program.ranked := by
  simp [rankWith]

@[simp] theorem rankWith_union {l : ι} {ms : List (Space ι)} :
    (union l ms).rankWith pick = pick (ms.flatMap (rankWith pick)) := by
  simp [rankWith, rankWithAll_eq, List.flatMap_def]

@[simp] theorem rankWith_join {l : ι} {op : Op} {cs : List (Space ι)} :
    (join l op cs).rankWith pick =
      pick ((choices (cs.map (rankWith pick))).map (Ranked.app op)) := by
  simp [rankWith, rankWithAll_eq]

/-- The labels are not read. -/
theorem rankWith_shape (s : Space ι) : s.shape.rankWith pick = s.rankWith pick := by
  induction s using Space.induction with
  | leaf l ps => simp
  | union l ms ih =>
    rw [shape_union, rankWith_union, rankWith_union, List.flatMap_map]
    exact congrArg pick (List.flatMap_congr ih)
  | join l op cs ih =>
    have hcs : (cs.map shape).map (rankWith pick) = cs.map (rankWith pick) := by
      rw [List.map_map]
      exact List.map_congr_left ih
    rw [shape_join, rankWith_join, rankWith_join, hcs]

/-! ### Entries -/

theorem ranked_app {op : Op} {args : List (Ranked σ)} (h : ∀ r ∈ args, r = r.program.ranked) :
    Ranked.app op args = (Ranked.app op args).program.ranked := by
  have hargs : (args.map (·.program)).map Program.ranked = args := by
    rw [List.map_map]
    exact (List.map_congr_left fun r hr => (h r hr).symm).trans (List.map_id args)
  rw [Ranked.app, Program.ranked, Program.score, Program.rankAll_eq, hargs]

/-- **A ranked program is one of the space, with its own score.** -/
theorem mem_rankWith (hpick : ∀ rs, ∀ r ∈ pick rs, r ∈ rs) {s : Space ι} {r : Ranked σ}
    (h : r ∈ s.rankWith pick) : s.contains r.program ∧ r = r.program.ranked := by
  induction s using Space.induction generalizing r with
  | leaf l ps =>
    rw [rankWith_leaf] at h
    obtain ⟨p, hp, rfl⟩ := List.mem_map.1 h
    exact ⟨by simpa [Program.ranked] using SortedSet.mem_def.2 hp, rfl⟩
  | union l ms ih =>
    rw [rankWith_union] at h
    obtain ⟨m, hm, hr⟩ := List.mem_flatMap.1 (hpick _ r h)
    obtain ⟨hp, heq⟩ := ih m hm hr
    exact ⟨contains_union.2 ⟨m, hm, hp⟩, heq⟩
  | join l op cs ih =>
    rw [rankWith_join] at h
    obtain ⟨args, hargs, rfl⟩ := List.mem_map.1 (hpick _ r h)
    have hmem := List.forall₂_map_right_iff.1 (forall₂_of_mem_choices hargs)
    have heach : ∀ a ∈ args, a = a.program.ranked := by
      intro a ha
      obtain ⟨c, hc, hac⟩ := exists_of_forall₂ hmem ha
      exact (ih c hc hac).2
    have hcontains : List.Forall₂ (fun c a => c.contains a.program = true) cs args :=
      ((List.forall₂_and_left _ _).2 ⟨fun c hc => @ih c hc, hmem.flip⟩).imp fun _ _ h => (h.1 h.2).1
    exact ⟨contains_join.2 ⟨_, rfl, List.forall₂_map_right_iff.2 hcontains⟩, ranked_app heach⟩

/-- Where each argument is ranked, there is a choice of ranked arguments. -/
theorem exists_choice {cs : List (Space ι)} {args : List Program}
    (h : List.Forall₂ (fun c q => ∃ r ∈ c.rankWith pick, r.program = q) cs args) :
    ∃ rs ∈ tuples (cs.map (rankWith pick)), rs.map (·.program) = args := by
  induction h with
  | nil => exact ⟨[], by simp [tuples], rfl⟩
  | cons hr _ ih =>
    obtain ⟨r, hr, rfl⟩ := hr
    obtain ⟨rs, hrs, rfl⟩ := ih
    exact ⟨r :: rs, mem_tuples_cons.2 ⟨r, hr, rs, hrs, rfl⟩, rfl⟩

/-- **Every program is ranked**, if no program is dropped on the way. -/
theorem exists_mem_rankWith (hpick : ∀ rs, ∀ r ∈ rs, ∃ r' ∈ pick rs, r'.program = r.program)
    {s : Space ι} (hs : s.Proper) {p : Program} (h : s.contains p) :
    ∃ r ∈ s.rankWith pick, r.program = p := by
  induction hs generalizing p with
  | leaf l ps =>
    rw [rankWith_leaf]
    exact ⟨p.ranked, List.mem_map.2 ⟨p, contains_leaf.1 h, rfl⟩, rfl⟩
  | union _ ih =>
    obtain ⟨m, hm, hp⟩ := contains_union.1 h
    obtain ⟨r, hr, rfl⟩ := ih m hm hp
    rw [rankWith_union]
    exact hpick _ r (List.mem_flatMap.2 ⟨m, hm, hr⟩)
  | @join l op c cs _ ih =>
    obtain ⟨args, rfl, hargs⟩ := contains_join.1 h
    have hranked : List.Forall₂ (fun s q => ∃ r ∈ s.rankWith pick, r.program = q) (c :: cs) args :=
      ((List.forall₂_and_left _ _).2 ⟨fun s hs => @ih s hs, hargs⟩).imp fun _ _ h => h.1 h.2
    obtain ⟨rs, hrs, hprograms⟩ := exists_choice hranked
    rw [rankWith_join]
    obtain ⟨r, hr, hp⟩ := hpick _ (Ranked.app op rs) (List.mem_map.2 ⟨rs, hrs, rfl⟩)
    exact ⟨r, hr, by rw [hp, Ranked.app, hprograms]⟩

/-! ### The memory of nodes -/

/-- What is known for a label in use is the ranking of the node it stands for. -/
def RankingsFit (k : Nat) (r : Registry) (known : Rankings σ) : Prop :=
  ∀ l ranked, known[l]? = some ranked → l < r.next ∧ ranked = (r.shapeOf l).rankWith (best k)

variable {k : Nat} {r : Registry}

theorem yields_rankOnce {label : Nat} {s : Space Unit}
    {compute : StateM (Rankings σ) (List (Ranked σ))} (lt : label < r.next)
    (shape : r.shapeOf label = s)
    (h : Yields (RankingsFit k) r compute fun _ ranked => ranked = s.rankWith (best k)) :
    Yields (RankingsFit k) r (rankOnce label compute) fun _ ranked =>
      ranked = s.rankWith (best k) := by
  subst shape
  unfold rankOnce
  refine .bind .get fun r' known _ hknown => ?_
  obtain ⟨rfl, hknown⟩ := hknown
  cases hk : known[label]? with
  | some ranked => exact .pure (hknown label ranked hk).2
  | none =>
    refine .bind h fun r₁ ranked hr₁ heq => ?_
    have hlabel : label < r₁.next ∧ ranked = (r₁.shapeOf label).rankWith (best k) := by
      rw [hr₁.2 label lt]
      exact ⟨Nat.lt_of_lt_of_le lt hr₁.1, heq⟩
    exact .bind (.modify fun known hknown => forall_getElem?_insert hknown hlabel)
      fun r₂ _ _ _ => .pure heq

theorem rankAll_eq_mapM (gs : List Graph) :
    (rankAll k gs : StateM (Rankings σ) _) = gs.mapM (rank k) := by
  induction gs with
  | nil => rfl
  | cons g gs ih => rw [rankAll, ih, List.mapM_cons]

/-- The rankings of several graphs, given those of each. -/
theorem yields_rankAll {gs : List Graph} (hg : ∀ g ∈ gs, r.Holds g)
    (ih : ∀ g ∈ gs, ∀ r', r ≤ r' → r'.Holds g →
      Yields (RankingsFit k) r' (rank k g : StateM (Rankings σ) _) fun _ ranked =>
        ranked = g.rankWith (best k)) :
    Yields (RankingsFit k) r (rankAll k gs : StateM (Rankings σ) _) fun _ rankings =>
      rankings = gs.map (rankWith (best k)) := by
  rw [rankAll_eq_mapM]
  refine .imp (.mapM (Q := fun (g : Graph) _ ranked => ranked = g.rankWith (best k))
    (fun _ _ _ _ _ _ h => h) fun g hmem r' hr => ih g hmem r' hr ((hg g hmem).mono hr)) ?_
  intro r' rankings _ h
  have hflip := h.flip
  rw [← List.forall₂_map_right_iff, List.forall₂_eq_eq_eq] at hflip
  exact hflip

/-- A node is ranked as if nothing were remembered. -/
theorem yields_rank {g : Graph} (hg : r.Holds g) :
    Yields (RankingsFit k) r (rank k g : StateM (Rankings σ) _) fun _ ranked =>
      ranked = g.rankWith (best k) := by
  induction g using Space.induction generalizing r with
  | leaf l ps =>
    obtain ⟨lt, shape, _⟩ := hg
    rw [rank, ← rankWith_shape]
    exact yields_rankOnce lt shape (.pure (by simp))
  | union l ms ih =>
    obtain ⟨lt, shape, hms⟩ := hg
    rw [rank, ← rankWith_shape]
    refine yields_rankOnce lt shape
      (.bind (yields_rankAll hms fun m hm r' _ h => ih m hm h) fun r' offers _ hoffers => .pure ?_)
    rw [hoffers, rankWith_shape, rankWith_union, List.flatMap_def]
  | join l op cs ih =>
    obtain ⟨lt, shape, hcs⟩ := hg
    rw [rank, ← rankWith_shape]
    refine yields_rankOnce lt shape
      (.bind (yields_rankAll hcs fun c hc r' _ h => ih c hc h) fun r' offers _ hoffers => .pure ?_)
    rw [hoffers, rankWith_shape, rankWith_join]

/-- **The best programs are those of the ranking without a memory**, where labels tell nodes
apart. -/
theorem topK_eq {g : Graph} (hg : Coherent [g]) (hk : 0 < k) :
    (g.topK k : List (Ranked σ)) = g.rankWith (best k) := by
  obtain ⟨next, hlt⟩ := exists_label_lt g
  obtain ⟨r, _, hr⟩ := exists_holds hg (List.forall_mem_singleton.2 hlt)
  obtain ⟨_, _, _, hranked⟩ := yields_rank (hr g (by simp)) (∅ : Rankings σ) (by simp [RankingsFit])
  rw [topK, if_neg (Nat.ne_of_gt hk)]
  exact hranked _ rfl

/-- The best programs are programs of the space. -/
theorem contains_of_mem_topK {g : Graph} (hg : Coherent [g]) {entry : Ranked σ}
    (h : entry ∈ (g.topK k : List (Ranked σ))) : g.contains entry.program := by
  rcases Nat.eq_zero_or_pos k with rfl | hk
  · simp [topK] at h
  rw [topK_eq hg hk] at h
  refine (mem_rankWith (fun entries r hr => ?_) h).1
  rw [best_eq_take] at hr
  exact mem_of_mem_bestAll (List.mem_of_mem_take hr)

end Space

end ArithLearn
