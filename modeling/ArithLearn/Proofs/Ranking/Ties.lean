/-
Which of two programs with equal scores is returned first.

`Space.earlier cmp` walks a space down to where two of its programs part.
In a union that is the first member that holds one of them, and among the
arguments of an operator the first at which they differ; there `cmp` has
the say, and where it has no preference the walk goes on below. Without
any preference this is the order in which a space lists its programs
(`leads_enumerate`). With the scores it is the order of a ranking, since
arguments are ranked themselves before they are combined (`leads_rankWith`):
so ties need not stay in the order of the list. They do where the programs
part level (`Program.level`).
-/
import ArithLearn.Proofs.Ranking.Count
import ArithLearn.Proofs.Ranking.Order

namespace ArithLearn

namespace Program

mutual

/-- Two programs part level: where they apply one operator, the first arguments at which they differ
compare as equal, and part level themselves. -/
def level (cmp : Program → Program → Ordering) : Program → Program → Bool
  | .app op args, .app op' args' => op != op' || levelArguments cmp args args'
  | _, _ => true

def levelArguments (cmp : Program → Program → Ordering) : List Program → List Program → Bool
  | a :: as, b :: bs =>
    if a = b then levelArguments cmp as bs else cmp a b == .eq && level cmp a b
  | _, _ => true

end

end Program

namespace Space

variable {ι σ : Type} [Score σ]

mutual

/-- Whether `p` comes before `q`: in a list by the order of programs, in a union by the first member
that holds one of the two, and in the applications of an operator by the first arguments that
differ, where what compares as greater comes first. -/
def earlier (cmp : Program → Program → Ordering) : Space ι → Program → Program → Bool
  | leaf _ _, p, q => compare p q == .lt
  | union _ ms, p, q => earlierMember cmp ms p q
  | join _ _ cs, .app _ args, .app _ args' => earlierArgument cmp cs args args'
  | join _ _ _, _, _ => false

def earlierMember (cmp : Program → Program → Ordering) : List (Space ι) → Program → Program → Bool
  | [], _, _ => false
  | m :: ms, p, q =>
    match m.contains p, m.contains q with
    | true, true => earlier cmp m p q
    | true, false => true
    | false, true => false
    | false, false => earlierMember cmp ms p q

def earlierArgument (cmp : Program → Program → Ordering) :
    List (Space ι) → List Program → List Program → Bool
  | c :: cs, a :: as, b :: bs =>
    if a = b then earlierArgument cmp cs as bs
    else
      match cmp a b with
      | .gt => true
      | .lt => false
      | .eq => earlier cmp c a b
  | _, _, _ => false

end

/-- Listed are the input and literals only, and each operator has a child. -/
inductive Terminal : Space ι → Prop
  | leaf {l : ι} {ps : SortedSet Program} (terminal : ∀ p ∈ ps, p = .input ∨ ∃ n, p = .lit n) :
      Terminal (leaf l ps)
  | union {l : ι} {ms : List (Space ι)} (members : ∀ m ∈ ms, Terminal m) : Terminal (union l ms)
  | join {l : ι} {op : Op} {c : Space ι} {cs : List (Space ι)}
      (children : ∀ s ∈ c :: cs, Terminal s) : Terminal (join l op (c :: cs))

theorem Rankable.terminal {s : Space ι} (h : s.Rankable) : s.Terminal := by
  induction h with
  | leaf terminal => exact .leaf terminal
  | union _ ih => exact .union ih
  | join _ _ ih => exact .join ih

theorem Terminal.proper {s : Space ι} (h : s.Terminal) : s.Proper := by
  induction h with
  | leaf _ => exact .leaf _ _
  | union _ ih => exact .union ih
  | join _ ih => exact .join ih

/-! ### Arrangements -/

/-- A way of listing the programs of every space, of which `cmp` is the first concern, and the order
of members and arguments the second. -/
structure Arranges (cmp : Program → Program → Ordering) (list : Space ι → List Program) : Prop where
  mem : ∀ {s p}, s.Terminal → (p ∈ list s ↔ s.contains p)
  greater : ∀ {s p q}, s.Terminal → s.contains p → s.contains q → cmp p q = .gt → Leads (list s) p q
  swap : ∀ {p q}, cmp p q = .lt → cmp q p = .gt
  leaf : ∀ {l ps}, list (.leaf l ps) = ps.toList
  union : ∀ {l ms p q}, (Space.union l ms).Terminal → cmp p q = .eq →
    (Leads (list (.union l ms)) p q ↔ Leads (ms.flatMap list) p q)
  join : ∀ {l op cs p q}, (Space.join l op cs).Terminal → cmp p q = .eq →
    (Leads (list (.join l op cs)) p q ↔ Leads ((tuples (cs.map list)).map (.app op)) p q)

namespace Arranges

variable {cmp : Program → Program → Ordering} {list : Space ι → List Program}

theorem leads_members (h : Arranges cmp list) {ms : List (Space ι)} (hms : ∀ m ∈ ms, m.Terminal)
    {p q : Program} (ih : ∀ m ∈ ms, m.contains p → m.contains q →
      (Leads (list m) p q ↔ m.earlier cmp p q)) :
    Leads (ms.flatMap list) p q ↔ earlierMember cmp ms p q := by
  induction ms with
  | nil => simp [not_leads_nil, earlierMember]
  | cons m ms ihms =>
    have hmem : ∀ p, p ∈ list m ↔ m.contains p := fun p => h.mem (hms m (by simp))
    have hrest := ihms (fun m hm => hms m (by simp [hm])) fun m hm => ih m (by simp [hm])
    rw [List.flatMap_cons, earlierMember]
    cases hp : m.contains p with
    | true =>
      rw [leads_append_of_mem (.inl ((hmem p).2 hp))]
      cases hq : m.contains q with
      | true => exact ih m (by simp) hp hq
      | false =>
        have hnot : q ∉ list m := by simp [hmem, hq]
        exact iff_of_true (leads_of_not_mem ((hmem p).2 hp) hnot) rfl
    | false =>
      have hnot : p ∉ list m := by simp [hmem, hp]
      cases hq : m.contains q with
      | true =>
        rw [leads_append_of_mem (.inr ((hmem q).2 hq))]
        exact iff_of_false (fun hl => hnot hl.mem) Bool.false_ne_true
      | false =>
        rw [leads_append_of_not_mem hnot (by simp [hmem, hq])]
        exact hrest

theorem leads_arguments (h : Arranges cmp list) {cs : List (Space ι)}
    (hcs : ∀ c ∈ cs, c.Terminal) {args args' : List Program}
    (hargs : List.Forall₂ (fun c a => c.contains a = true) cs args)
    (hargs' : List.Forall₂ (fun c a => c.contains a = true) cs args')
    (ih : ∀ c ∈ cs, ∀ a b, c.contains a → c.contains b → cmp a b = .eq →
      (Leads (list c) a b ↔ c.earlier cmp a b)) :
    Leads (tuples (cs.map list)) args args' ↔ earlierArgument cmp cs args args' := by
  have hchosen : ∀ {cs args}, (∀ c ∈ cs, c.Terminal) →
      List.Forall₂ (fun c a => c.contains a = true) cs args → args ∈ tuples (cs.map list) := by
    intro cs args hcs hargs
    refine mem_tuples.2 (List.forall₂_map_right_iff.2 ?_)
    exact ((List.forall₂_and_left _ _).2 ⟨hcs, hargs⟩).flip.imp fun _ _ hc => (h.mem hc.1).2 hc.2
  induction hargs generalizing args' with
  | nil =>
    cases hargs'
    simp [tuples, Leads, earlierArgument]
  | @cons c a cs args ha hargs ihcs =>
    obtain ⟨b, args', hb, hrest', rfl⟩ := List.forall₂_cons_left_iff.1 hargs'
    have hc := hcs c (by simp)
    have hrest : ∀ d ∈ cs, d.Terminal := fun d hd => hcs d (by simp [hd])
    rw [List.map_cons, leads_tuples_cons ((h.mem hc).2 ha) ((h.mem hc).2 hb)
      (hchosen hrest hargs) (hchosen hrest hrest'), earlierArgument]
    by_cases hab : a = b
    · rw [if_pos hab, if_pos hab]
      exact ihcs hrest hrest' fun d hd => ih d (by simp [hd])
    rw [if_neg hab, if_neg hab]
    cases hcmp : cmp a b with
    | gt => exact iff_of_true (h.greater hc ha hb hcmp) rfl
    | lt =>
      exact iff_of_false (h.greater hc hb ha (h.swap hcmp)).asymm Bool.false_ne_true
    | eq => exact ih c (by simp) a b ha hb hcmp

/-- The programs of a space are listed as they part. -/
theorem leads_iff (h : Arranges cmp list) {s : Space ι} (hs : s.Terminal) {p q : Program}
    (hp : s.contains p) (hq : s.contains q) (hcmp : cmp p q = .eq) :
    Leads (list s) p q ↔ s.earlier cmp p q := by
  induction hs generalizing p q with
  | @leaf l ps terminal =>
    rw [h.leaf, earlier, beq_iff_eq]
    refine leads_iff_of_pairwise (fun a b hab hba => ?_) ps.ascending (contains_leaf.1 hp)
      (contains_leaf.1 hq)
    rw [Std.OrientedCmp.gt_of_lt hab] at hba
    cases hba
  | @union l ms members ih =>
    rw [h.union (.union members) hcmp, earlier]
    exact h.leads_members members fun m hm hp hq => ih m hm hp hq hcmp
  | @join l op c cs children ih =>
    obtain ⟨args, rfl, hargs⟩ := contains_join.1 hp
    obtain ⟨args', rfl, hargs'⟩ := contains_join.1 hq
    have hinj : Function.Injective (Program.app op) := fun as bs hab => by simpa using hab
    rw [h.join (.join children) hcmp, leads_map hinj, earlier]
    exact h.leads_arguments children hargs hargs' fun s hs _ _ => ih s hs

end Arranges

/-- The list of all programs is arranged by the order of members and arguments alone. -/
theorem arranges_enumerate : Arranges (fun _ _ => .eq) (enumerate (ι := ι)) where
  mem hs := mem_enumerate hs.proper
  greater _ _ _ h := by cases h
  swap h := by cases h
  leaf := enumerate_leaf
  union _ _ := by rw [enumerate_union]
  join hs _ := by
    cases hs with
    | join _ =>
      rw [enumerate_join]
      rfl

/-! ### Rankings -/

/-- What the members of a union offer are programs with their own scores. -/
theorem selfScored_members {ms : List (Space ι)} :
    SelfScored (ms.flatMap (rankWith (bestAll (σ := σ)))) := by
  intro r hr
  obtain ⟨m, _, hr⟩ := List.mem_flatMap.1 hr
  exact (mem_rankWith (fun _ _ h => mem_of_mem_bestAll h) hr).2

/-- And so are the applications to what arguments offer. -/
theorem selfScored_applications {op : Op} {cs : List (Space ι)} :
    SelfScored ((choices (cs.map (rankWith (bestAll (σ := σ))))).map (Ranked.app op)) := by
  intro r hr
  obtain ⟨args, hargs, rfl⟩ := List.mem_map.1 hr
  refine ranked_app fun a ha => ?_
  have hoffered := List.forall₂_map_right_iff.1 (forall₂_of_mem_choices hargs)
  obtain ⟨c, _, hac⟩ := exists_of_forall₂ hoffered ha
  exact (mem_rankWith (fun _ _ h => mem_of_mem_bestAll h) hac).2

/-- The programs of a space, as the ranking of all has them. -/
abbrev rankedPrograms (σ : Type) [Score σ] (s : Space ι) : List Program :=
  (s.rankWith (bestAll (σ := σ))).map (·.program)

theorem mem_rankedPrograms {s : Space ι} (hs : s.Proper) {p : Program} :
    p ∈ s.rankedPrograms σ ↔ s.contains p := by
  constructor
  · intro h
    obtain ⟨r, hr, rfl⟩ := List.mem_map.1 h
    exact (mem_rankWith (fun _ _ h => mem_of_mem_bestAll h) hr).1
  · intro h
    obtain ⟨r, hr, rfl⟩ :=
      exists_mem_rankWith (σ := σ) (fun _ _ h => exists_mem_bestAll h) hs h
    exact List.mem_map.2 ⟨r, hr, rfl⟩

/-- The input and literals score nothing. -/
theorem byScore_of_terminal {p q : Program} (hp : p = .input ∨ ∃ n, p = .lit n)
    (hq : q = .input ∨ ∃ n, q = .lit n) : p.byScore σ q = .eq := by
  have hzero : ∀ r : Program, (r = .input ∨ ∃ n, r = .lit n) → (r.score : σ) = Score.zero := by
    intro r hr
    rcases hr with rfl | ⟨n, rfl⟩ <;> rw [Program.score]
  rw [Program.byScore, hzero p hp, hzero q hq]
  exact Std.ReflCmp.compare_self

/-- A ranking of all programs is arranged by scores first. -/
theorem arranges_rankWith : Arranges (Program.byScore σ) (rankedPrograms σ (ι := ι)) where
  mem hs := mem_rankedPrograms hs.proper
  greater := by
    intro s p q hs hp hq hgt
    have hp' := (mem_rankedPrograms (σ := σ) hs.proper).2 hp
    have hq' := (mem_rankedPrograms (σ := σ) hs.proper).2 hq
    cases hs with
    | leaf terminal =>
      rw [byScore_of_terminal (terminal p (contains_leaf.1 hp)) (terminal q (contains_leaf.1 hq))]
        at hgt
      cases hgt
    | union members =>
      rw [rankedPrograms, rankWith_union] at hp' hq' ⊢
      exact leads_bestAll_of_gt selfScored_members hp' hq' hgt
    | join children =>
      rw [rankedPrograms, rankWith_join] at hp' hq' ⊢
      exact leads_bestAll_of_gt selfScored_applications hp' hq' hgt
  swap := by
    intro p q h
    have hlt : Score.compare (p.score : σ) q.score = .lt := h
    show Score.compare (q.score : σ) p.score = .gt
    exact Std.OrientedCmp.gt_of_lt hlt
  leaf := by simp [rankedPrograms, Program.ranked, Function.comp_def]
  union _ htie := by
    rw [rankedPrograms, rankWith_union, leads_bestAll selfScored_members htie, List.map_flatMap]
  join := by
    intro l op cs p q hs htie
    cases hs with
    | join _ =>
      rw [rankedPrograms, rankWith_join, leads_bestAll selfScored_applications htie, List.map_cons,
        choices, map_program_app, List.map_cons, List.map_map]
      rfl

/-! ### Programs that part level -/

section Level

variable {cmp : Program → Program → Ordering}

theorem earlierMember_of_level {ms : List (Space ι)} {p q : Program}
    (ih : ∀ m ∈ ms, m.contains p → m.contains q →
      m.earlier cmp p q = m.earlier (fun _ _ => .eq) p q) :
    earlierMember cmp ms p q = earlierMember (fun _ _ => .eq) ms p q := by
  induction ms with
  | nil => rw [earlierMember, earlierMember]
  | cons m ms ihms =>
    rw [earlierMember, earlierMember]
    cases hp : m.contains p <;> cases hq : m.contains q
    · exact ihms fun m hm => ih m (by simp [hm])
    · rfl
    · rfl
    · exact ih m (by simp) hp hq

theorem earlierArgument_of_level {cs : List (Space ι)} {args args' : List Program}
    (hargs : List.Forall₂ (fun c a => c.contains a = true) cs args)
    (hargs' : List.Forall₂ (fun c a => c.contains a = true) cs args')
    (hlevel : Program.levelArguments cmp args args')
    (ih : ∀ c ∈ cs, ∀ a b, c.contains a → c.contains b → a.level cmp b →
      c.earlier cmp a b = c.earlier (fun _ _ => .eq) a b) :
    earlierArgument cmp cs args args' = earlierArgument (fun _ _ => .eq) cs args args' := by
  induction hargs generalizing args' with
  | nil => rw [earlierArgument, earlierArgument] <;> simp
  | @cons c a cs args ha _ ihcs =>
    obtain ⟨b, args', hb, hrest', rfl⟩ := List.forall₂_cons_left_iff.1 hargs'
    rw [Program.levelArguments] at hlevel
    rw [earlierArgument, earlierArgument]
    by_cases hab : a = b
    · rw [if_pos hab] at hlevel
      rw [if_pos hab, if_pos hab]
      exact ihcs hrest' hlevel fun d hd => ih d (by simp [hd])
    · rw [if_neg hab, Bool.and_eq_true, beq_iff_eq] at hlevel
      rw [if_neg hab, if_neg hab, hlevel.1]
      exact ih c (by simp) a b ha hb hlevel.2

/-- Where programs part level there is no preference on the way. -/
theorem earlier_of_level {s : Space ι} {p q : Program} (hp : s.contains p) (hq : s.contains q)
    (hlevel : p.level cmp q) : s.earlier cmp p q = s.earlier (fun _ _ => .eq) p q := by
  induction s using Space.induction generalizing p q with
  | leaf l ps => rw [earlier, earlier]
  | union l ms ih =>
    rw [earlier, earlier]
    exact earlierMember_of_level fun m hm hp hq => ih m hm hp hq hlevel
  | join l op cs ih =>
    obtain ⟨args, rfl, hargs⟩ := contains_join.1 hp
    obtain ⟨args', rfl, hargs'⟩ := contains_join.1 hq
    rw [Program.level, bne_self_eq_false, Bool.false_or] at hlevel
    rw [earlier, earlier]
    exact earlierArgument_of_level hargs hargs' hlevel fun c hc _ _ => ih c hc

end Level

/-! ### Returned programs -/

/-- How ties among returned programs are broken: which of two with one score comes first depends on
where they part, and if they part level, it is the one that is listed first. -/
structure BreaksTies (g : Graph) (returned : List (Ranked σ)) : Prop where
  score : ∀ r ∈ returned, r.score = r.program.score
  parts : ∀ p ∈ returned.map (·.program), ∀ q ∈ returned.map (·.program), p.byScore σ q = .eq →
    ((returned.map (·.program)).idxOf p < (returned.map (·.program)).idxOf q ↔
      g.earlier (Program.byScore σ) p q)
  listed : ∀ p ∈ returned.map (·.program), ∀ q ∈ returned.map (·.program), p.byScore σ q = .eq →
    p.level (Program.byScore σ) q →
      ((returned.map (·.program)).idxOf p < (returned.map (·.program)).idxOf q ↔
        g.enumerate.idxOf p < g.enumerate.idxOf q)

/-- The ranking of all programs breaks ties, and so does every beginning of it. -/
theorem breaksTies_take {g : Graph} (hg : g.Terminal) (k : Nat) :
    g.BreaksTies ((g.rankWith (bestAll (σ := σ))).take k) := by
  have hmem : ∀ r ∈ (g.rankWith (bestAll (σ := σ))).take k,
      g.contains r.program ∧ r = r.program.ranked := fun r hr =>
    mem_rankWith (fun _ _ h => mem_of_mem_bestAll h) (List.mem_of_mem_take hr)
  have hcontains : ∀ p ∈ ((g.rankWith (bestAll (σ := σ))).take k).map (·.program),
      g.contains p := by
    intro p hp
    obtain ⟨r, hr, rfl⟩ := List.mem_map.1 hp
    exact (hmem r hr).1
  have hparts : ∀ p ∈ ((g.rankWith (bestAll (σ := σ))).take k).map (·.program),
      ∀ q ∈ ((g.rankWith (bestAll (σ := σ))).take k).map (·.program), p.byScore σ q = .eq →
        (Leads (((g.rankWith (bestAll (σ := σ))).take k).map (·.program)) p q ↔
          g.earlier (Program.byScore σ) p q) := by
    intro p hp q hq htie
    rw [← arranges_rankWith.leads_iff hg (hcontains p hp) (hcontains q hq) htie, rankedPrograms,
      ← List.take_append_drop k (g.rankWith bestAll), List.map_append, List.take_append_drop]
    exact (leads_append_of_mem (.inl hp)).symm
  refine ⟨fun r hr => congrArg Ranked.score (hmem r hr).2, hparts, ?_⟩
  intro p hp q hq htie hlevel
  have hlisted := arranges_enumerate.leads_iff hg (hcontains p hp) (hcontains q hq) rfl
  rw [← earlier_of_level (hcontains p hp) (hcontains q hq) hlevel] at hlisted
  exact (hparts p hp q hq htie).trans hlisted.symm

/-- A ranking is no longer than the list of programs. -/
theorem length_rankWith_le {s : Space ι} (hs : s.Proper) (hleaf : s.isLeaf = false) :
    (s.rankWith (bestAll (σ := σ))).length ≤ s.enumerate.length := by
  obtain ⟨entries, hentries⟩ := exists_rankWith_eq (bestAll (σ := σ)) hleaf
  have hnodup : (s.rankedPrograms σ).Nodup := by
    rw [rankedPrograms, hentries]
    exact nodup_bestAll entries
  have hsub : s.rankedPrograms σ ⊆ s.enumerate := fun p hp =>
    (mem_enumerate hs).2 ((mem_rankedPrograms hs).1 hp)
  have hle := (hnodup.subperm hsub).length_le
  rwa [List.length_map] at hle

/-- Where as many are wanted as any node lists, nothing is cut off. -/
theorem rankWith_best_of_le {k : Nat} {s : Space ι} (hs : s.Proper)
    (hk : ∀ t, Node s t → t.enumerate.length ≤ k) :
    s.rankWith (best (σ := σ) k) = s.rankWith bestAll := by
  induction hs with
  | leaf l ps => rw [rankWith_leaf, rankWith_leaf]
  | @union l ms members ih =>
    have hms : ms.flatMap (rankWith (best (σ := σ) k)) = ms.flatMap (rankWith bestAll) :=
      List.flatMap_congr fun m hm => ih m hm fun t ht => hk t (.of_child hm ht)
    have hle := Nat.le_trans (length_rankWith_le (σ := σ) (.union members) rfl) (hk _ .top)
    rw [rankWith_union] at hle
    rw [rankWith_union, rankWith_union, hms, best_eq_take, List.take_of_length_le hle]
  | @join l op c cs children ih =>
    have hcs : (c :: cs).map (rankWith (best (σ := σ) k)) = (c :: cs).map (rankWith bestAll) :=
      List.map_congr_left fun d hd => ih d hd fun t ht => hk t (.of_child hd ht)
    have hle := Nat.le_trans (length_rankWith_le (σ := σ) (.join children) rfl) (hk _ .top)
    rw [rankWith_join] at hle
    rw [rankWith_join, rankWith_join, hcs, best_eq_take, List.take_of_length_le hle]

/-- **Ties are broken where programs part**, and in the order of the list where they part level: among
the best programs in natural numbers, however many are wanted, and with any scores if no node has
to drop any. -/
theorem topK_breaksTies (g : Graph) (k : Nat) :
    (g.Extractable → g.BreaksTies (g.topK k : List (Ranked Nat))) ∧
      ∀ (σ : Type) [Score σ], Coherent [g] → g.Terminal → g.isLeaf = false →
        (∀ s, Node g s → s.enumerate.length ≤ k) →
          g.BreaksTies (g.topK k : List (Ranked σ)) := by
  constructor
  · intro hg
    have hterminal := hg.rankable.terminal
    rcases Nat.eq_zero_or_pos k with rfl | hk
    · exact breaksTies_take hterminal 0
    · rw [topK_eq hg.coherent hk, hg.rankable.rankWith_best hg.notLeaf]
      exact breaksTies_take hterminal k
  · intro σ _ hcoherent hg hleaf hk
    rcases Nat.eq_zero_or_pos k with rfl | hpos
    · exact breaksTies_take hg 0
    · have hle := Nat.le_trans (length_rankWith_le (σ := σ) hg.proper hleaf) (hk g .top)
      rw [topK_eq hcoherent hpos, rankWith_best_of_le hg.proper hk,
        ← List.take_of_length_le hle]
      exact breaksTies_take hg k

/-- The best two programs of a version space, and a union of two literals that is returned as a
whole. -/
theorem topK_breaksTies_sums :
    (∃ space, versionSpace [⟨[.ofNat 3, .ofNat 3], .ofNat 6⟩] { limits.maxDepth := 2 } =
        .ok space ∧ space.BreaksTies (space.topK 2 : List (Ranked Nat))) ∧
      let literals : Graph := .leaf 0 (.ofList [.lit (.ofNat 1), .lit (.ofNat 2)])
      BreaksTies (.union 1 [literals]) (topK 2 (.union 1 [literals]) : List (Ranked Float)) := by
  constructor
  · have hspace : (versionSpace [⟨[.ofNat 3, .ofNat 3], .ofNat 6⟩]
        { limits.maxDepth := 2 }).toOption.any fun _ => true := by
      decide +kernel
    obtain ⟨space, hspace, _⟩ := exists_ok_of_any hspace
    exact ⟨space, hspace, (topK_breaksTies space 2).1 (extractable_versionSpace hspace)⟩
  · intro literals
    have hnode : ∀ s, Node (.union 1 [literals]) s → s = .union 1 [literals] ∨ s = literals := by
      intro s hs
      rcases hs.eq_or_child with rfl | ⟨c, hc, hs⟩
      · exact .inl rfl
      · obtain rfl : c = literals := by simpa [children] using hc
        rcases hs.eq_or_child with rfl | ⟨d, hd, _⟩
        · exact .inr rfl
        · simp [literals, children] at hd
    refine (topK_breaksTies _ 2).2 Float ?_ (.union ?_) rfl ?_
    · intro g hg g' hg' s s' hs hs' heq
      obtain rfl := List.mem_singleton.1 hg
      obtain rfl := List.mem_singleton.1 hg'
      rcases hnode s hs with rfl | rfl <;> rcases hnode s' hs' with rfl | rfl
      · rfl
      · cases heq
      · cases heq
      · rfl
    · refine List.forall_mem_singleton.2 (.leaf fun p hp => .inr ?_)
      have hp : p ∈ [Program.lit (.ofNat 1), .lit (.ofNat 2)] := SortedSet.mem_ofList.1 hp
      rcases List.mem_pair.1 hp with rfl | rfl
      · exact ⟨_, rfl⟩
      · exact ⟨_, rfl⟩
    · intro s hs
      rcases hnode s hs with rfl | rfl <;> decide

/-- Six from three and three: the sums of the two elements score the same, and of the ten programs the
one that reads the first element first is listed first, but the other one is returned first,
since the second element scores higher. -/
theorem topK_swaps_sums :
    let p : Program := .sum (.elementAt (.ofNat 1)) (.elementAt (.ofNat 0))
    let q : Program := .sum (.elementAt (.ofNat 0)) (.elementAt (.ofNat 1))
    ∃ space, versionSpace [⟨[.ofNat 3, .ofNat 3], .ofNat 6⟩] { limits.maxDepth := 2 } = .ok space ∧
      p.byScore Nat q = .eq ∧ p ∈ (space.topK 10 : List (Ranked Nat)).map (·.program) ∧
        q ∈ (space.topK 10 : List (Ranked Nat)).map (·.program) ∧
        ((space.topK 10 : List (Ranked Nat)).map (·.program)).idxOf p <
          ((space.topK 10 : List (Ranked Nat)).map (·.program)).idxOf q ∧
        space.enumerate.idxOf q < space.enumerate.idxOf p := by
  intro p q
  have hspace : (versionSpace [⟨[.ofNat 3, .ofNat 3], .ofNat 6⟩]
      { limits.maxDepth := 2 }).toOption.any fun space =>
        decide (space.enumerate.length = 10) && space.contains p && space.contains q &&
          space.earlier (Program.byScore Nat) p q &&
          decide (space.enumerate.idxOf q < space.enumerate.idxOf p) := by
    decide +kernel
  have htie : p.byScore Nat q = .eq := by
    decide
  obtain ⟨space, hspace, h⟩ := exists_ok_of_any hspace
  simp only [Bool.and_eq_true, decide_eq_true_eq] at h
  obtain ⟨⟨⟨⟨hlength, hp⟩, hq⟩, hearlier⟩, hlisted⟩ := h
  have hg := extractable_versionSpace hspace
  have hmem := hg.ranksExactly.mem 10 (by omega) (by omega)
  have hbreaks := breaksTies_take (σ := Nat) hg.rankable.terminal 10
  rw [← hg.rankable.rankWith_best hg.notLeaf, ← topK_eq hg.coherent (by omega)] at hbreaks
  refine ⟨space, hspace, htie, (hmem p).2 hp, (hmem q).2 hq, ?_, hlisted⟩
  exact (hbreaks.parts p ((hmem p).2 hp) q ((hmem q).2 hq) htie).2 hearlier

end Space

end ArithLearn
