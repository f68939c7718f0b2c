/-
How many programs a ranking returns.

Whatever the scores are, cutting down a node leaves enough: what is kept of
it are all programs of its space, or `k` different ones (`Ample`). Where the
offers of the members are ample, that of a union is, and where those of the
arguments are, so are the choices from them, since an argument with `k`
different programs makes for `k` different applications. In the end `k`
programs are returned, or as many as there are (`length_topK`), and none of
them twice (`nodup_topK`).

A bare list is the exception. Below an operator that reads an element it
must be offered whole, and it is not cut down where it stands alone either
(`length_topK_leaf`, `topK_leaf_exceeds`).
-/
import ArithLearn.Proofs.Ranking.Learned
import ArithLearn.Proofs.Space.Count

namespace ArithLearn

/-- All that is held is offered, or `k` different things are. -/
def Ample {α : Type} (k : Nat) (held : α → Prop) (offered : List α) : Prop :=
  (∀ a, held a → a ∈ offered) ∨ ∃ as : List α, as.Nodup ∧ as.length = k ∧ as ⊆ offered

namespace Ample

variable {α β γ : Type} {k : Nat} {held : α → Prop} {offered : List α}

theorem mono {offered' : List α} (h : Ample k held offered) (hsub : offered ⊆ offered') :
    Ample k held offered' := by
  rcases h with hall | ⟨as, hnodup, hlen, has⟩
  · exact .inl fun a ha => hsub (hall a ha)
  · exact .inr ⟨as, hnodup, hlen, List.Subset.trans has hsub⟩

/-- Where nothing is offered, nothing is held. -/
theorem not_held (hk : 0 < k) (h : Ample k held []) (a : α) : ¬ held a := by
  rcases h with hall | ⟨as, _, hlen, has⟩
  · exact fun ha => List.not_mem_nil (hall a ha)
  · obtain rfl : as = [] := List.subset_nil.1 has
    rw [← hlen] at hk
    exact absurd hk (Nat.lt_irrefl 0)

theorem map {f : α → β} (hf : Function.Injective f) (h : Ample k held offered) :
    Ample k (fun b => ∃ a, b = f a ∧ held a) (offered.map f) := by
  rcases h with hall | ⟨as, hnodup, hlen, has⟩
  · refine .inl fun b hb => ?_
    obtain ⟨a, rfl, ha⟩ := hb
    exact List.mem_map.2 ⟨a, hall a ha, rfl⟩
  · exact .inr ⟨as.map f, hnodup.map hf, by rw [List.length_map, hlen], List.map_subset f has⟩

theorem flatMap {held : γ → α → Prop} {ms : List γ} {f : γ → List α}
    (h : ∀ m ∈ ms, Ample k (held m) (f m)) :
    Ample k (fun a => ∃ m ∈ ms, held m a) (ms.flatMap f) := by
  by_cases hall : ∀ m ∈ ms, ∀ a, held m a → a ∈ f m
  · refine .inl fun a ha => ?_
    obtain ⟨m, hm, ha⟩ := ha
    exact List.mem_flatMap.2 ⟨m, hm, hall m hm a ha⟩
  · -- A member that does not offer all has `k` programs to offer.
    push Not at hall
    obtain ⟨m, hm, a, ha, hnot⟩ := hall
    rcases h m hm with hall | ⟨as, hnodup, hlen, has⟩
    · exact absurd (hall a ha) hnot
    · exact .inr ⟨as, hnodup, hlen, fun b hb => List.mem_flatMap.2 ⟨m, hm, has hb⟩⟩

/-- The choices from ample offers are ample. -/
theorem tuples {held : γ → α → Prop} (hk : 0 < k) {cs : List γ} {offers : List (List α)}
    (h : List.Forall₂ (fun c offered => Ample k (held c) offered) cs offers) :
    Ample k (fun args => List.Forall₂ held cs args) (tuples offers) := by
  induction h with
  | nil => exact .inl fun args hargs => by cases hargs; simp [ArithLearn.tuples]
  | @cons c offered cs offers hc _ ih =>
    -- With nothing to choose from at one place, there is nothing held to be chosen.
    have none : (offered = [] ∨ ArithLearn.tuples offers = []) →
        Ample k (fun args => List.Forall₂ held (c :: cs) args)
          (ArithLearn.tuples (offered :: offers)) := by
      intro hnil
      refine .inl fun args hargs => ?_
      obtain ⟨a, rest, ha, hrest, rfl⟩ := List.forall₂_cons_left_iff.1 hargs
      rcases hnil with hnil | hnil
      · exact absurd ha ((hnil ▸ hc).not_held hk a)
      · exact absurd hrest ((hnil ▸ ih).not_held hk rest)
    rcases hc with hall | ⟨as, hnodup, hlen, has⟩
    · rcases ih with hrest | ⟨ts, hnodup, hlen, hts⟩
      · refine .inl fun args hargs => ?_
        obtain ⟨a, rest, ha, hr, rfl⟩ := List.forall₂_cons_left_iff.1 hargs
        exact mem_tuples_cons.2 ⟨a, hall a ha, rest, hrest rest hr, rfl⟩
      · cases offered with
        | nil => exact none (.inl rfl)
        | cons a offered =>
          refine .inr ⟨ts.map (a :: ·), hnodup.map (List.cons_injective), ?_, fun t ht => ?_⟩
          · rw [List.length_map, hlen]
          · obtain ⟨rest, hr, rfl⟩ := List.mem_map.1 ht
            exact mem_tuples_cons.2 ⟨a, by simp, rest, hts hr, rfl⟩
    · rcases hrest : ArithLearn.tuples offers with _ | ⟨rest, more⟩
      · exact none (.inr hrest)
      · have hinj : Function.Injective fun a : α => a :: rest := fun a b hab => by simpa using hab
        refine .inr ⟨as.map (· :: rest), hnodup.map hinj, ?_, fun t ht => ?_⟩
        · rw [List.length_map, hlen]
        · obtain ⟨a, ha, rfl⟩ := List.mem_map.1 ht
          exact mem_tuples_cons.2 ⟨a, has ha, rest, by simp [hrest], rfl⟩

/-- An ample offer of different things, no more than `k` of them, has `k` or as many as there
are. -/
theorem length_eq (h : Ample k held offered) (hfin : {a | held a}.Finite) (hnodup : offered.Nodup)
    (hheld : ∀ a ∈ offered, held a) (hle : offered.length ≤ k) :
    offered.length = min k {a | held a}.ncard := by
  classical
  have hcard : {a | a ∈ offered}.ncard = offered.length := by
    rw [← List.coe_toFinset, Set.ncard_coe_finset, List.toFinset_card_of_nodup hnodup]
  have hsub : offered.length ≤ {a | held a}.ncard := by
    rw [← hcard]
    exact Set.ncard_le_ncard hheld hfin
  rcases h with hall | ⟨as, has, hlen, hmem⟩
  · have heq : {a | held a} = {a | a ∈ offered} := Set.ext fun a => ⟨hall a, hheld a⟩
    rw [heq, hcard, Nat.min_eq_right hle]
  · have hge : k ≤ offered.length := by
      rw [← hlen]
      exact (has.subperm hmem).length_le
    omega

end Ample

/-! ### Rankings -/

variable {σ : Type} [Score σ] {k : Nat}

/-- The best of ample entries are ample. -/
theorem ample_best {held : Program → Prop} {entries : List (Ranked σ)}
    (h : Ample k held (entries.map (·.program))) :
    Ample k held ((best k entries).map (·.program)) := by
  have hcover : entries.map (·.program) ⊆ (bestAll entries).map (·.program) := by
    intro p hp
    obtain ⟨r, hr, rfl⟩ := List.mem_map.1 hp
    obtain ⟨r', hr', heq⟩ := exists_mem_bestAll hr
    exact List.mem_map.2 ⟨r', hr', heq⟩
  rw [best_eq_take]
  rcases Nat.le_total (bestAll entries).length k with hlen | hlen
  · rw [List.take_of_length_le hlen]
    exact h.mono hcover
  · refine .inr ⟨_, (nodup_bestAll entries).sublist ((List.take_sublist _ _).map _), ?_,
      List.Subset.refl _⟩
    rw [List.length_map, List.length_take, Nat.min_eq_left hlen]

/-- The programs of the applications are the applications of the programs. -/
theorem map_program_app {op : Op} {offers : List (List (Ranked σ))} :
    ((tuples offers).map (Ranked.app op)).map (·.program) =
      (tuples (offers.map (List.map (·.program)))).map (.app op) := by
  rw [tuples_map, List.map_map, List.map_map]
  rfl

namespace Space

variable {ι : Type}

/-- What is kept of a space is ample. -/
theorem ample_rankWith (hk : 0 < k) {s : Space ι} (hs : s.Proper) :
    Ample k (fun p => s.contains p = true)
      ((s.rankWith (best k) : List (Ranked σ)).map (·.program)) := by
  induction hs with
  | leaf l ps =>
    refine .inl fun p hp => ?_
    rw [rankWith_leaf]
    exact List.mem_map.2 ⟨p.ranked, List.mem_map.2 ⟨p, contains_leaf.1 hp, rfl⟩, rfl⟩
  | union _ ih =>
    simp only [rankWith_union, contains_union]
    refine ample_best ?_
    rw [List.map_flatMap]
    exact .flatMap ih
  | @join l op c cs _ ih =>
    simp only [rankWith_join, contains_join]
    refine ample_best ?_
    show Ample k _ (((ArithLearn.tuples ((c :: cs).map (rankWith (best k)))).map
      (Ranked.app (σ := σ) op)).map (·.program))
    rw [map_program_app, List.map_map]
    refine .map (fun args args' h => by simpa using h) (.tuples hk ?_)
    rw [List.forall₂_map_right_iff, List.forall₂_same]
    exact ih

/-- There is a best program where there is any. -/
theorem topK_ne_nil {g : Graph} (hg : Coherent [g]) (hs : g.Proper) (hk : 0 < k) {p : Program}
    (h : g.contains p) : (g.topK k : List (Ranked σ)) ≠ [] := by
  intro hnil
  have hample := ample_rankWith (σ := σ) hk hs
  rw [← topK_eq hg hk, hnil, List.map_nil] at hample
  exact hample.not_held hk p h

theorem exists_eq_leaf {s : Space ι} (h : s.isLeaf) : ∃ l ps, s = leaf l ps := by
  cases s with
  | leaf l ps => exact ⟨l, ps, rfl⟩
  | union l ms | join l op cs => cases h

theorem map_program_rankWith_leaf {l : ι} {ps : SortedSet Program}
    {pick : List (Ranked σ) → List (Ranked σ)} :
    ((leaf l ps).rankWith pick).map (·.program) = ps.toList := by
  rw [rankWith_leaf, List.map_map]
  exact List.map_id _

/-- No program is returned twice. -/
theorem nodup_topK {g : Graph} (hg : Coherent [g]) :
    ((g.topK k : List (Ranked σ)).map (·.program)).Nodup := by
  rcases Nat.eq_zero_or_pos k with rfl | hk
  · rw [topK, if_pos rfl]
    exact List.nodup_nil
  rw [topK_eq hg hk]
  cases hleaf : g.isLeaf with
  | true =>
    obtain ⟨l, ps, rfl⟩ := exists_eq_leaf hleaf
    rw [map_program_rankWith_leaf]
    exact ps.nodup
  | false =>
    obtain ⟨entries, hentries⟩ := exists_rankWith_eq (best (σ := σ) k) hleaf
    rw [hentries, best_eq_take]
    exact (nodup_bestAll entries).sublist ((List.take_sublist _ _).map _)

/-- **As many programs are returned as are wanted, or as there are**, whatever the scores, unless the
space is a bare list. -/
theorem length_topK {g : Graph} (hg : Coherent [g]) (hs : g.Proper) (hleaf : g.isLeaf = false)
    (hk : 0 < k) : (g.topK k : List (Ranked σ)).length = min k {p | g.contains p}.ncard := by
  obtain ⟨entries, hentries⟩ := exists_rankWith_eq (best (σ := σ) k) hleaf
  have hfin : {p | g.contains p}.Finite :=
    (List.finite_toSet g.enumerate).subset fun p hp => (mem_enumerate hs).2 hp
  have hheld : ∀ p ∈ (g.topK k : List (Ranked σ)).map (·.program), g.contains p := by
    intro p hp
    obtain ⟨r, hr, rfl⟩ := List.mem_map.1 hp
    exact contains_of_mem_topK hg hr
  have hnodup := nodup_topK (σ := σ) (k := k) hg
  rw [topK_eq hg hk] at hheld hnodup ⊢
  rw [← List.length_map (fun r : Ranked σ => r.program)]
  refine (ample_rankWith hk hs).length_eq hfin hnodup hheld ?_
  rw [List.length_map, hentries, best_eq_take, List.length_take]
  exact Nat.min_le_left _ _

theorem Extractable.length_topK {g : Graph} (hg : g.Extractable) (hk : 0 < k) :
    (g.topK k : List (Ranked σ)).length = min k {p | g.contains p}.ncard :=
  Space.length_topK hg.coherent hg.rankable.proper hg.notLeaf hk

/-- A bare list is returned whole, however few programs are wanted, if any. -/
theorem length_topK_leaf {l : Nat} {ps : SortedSet Program} (hg : Coherent [leaf l ps])
    (hk : 0 < k) : ((leaf l ps).topK k : List (Ranked σ)).length =
      {p | (leaf l ps).contains p}.ncard := by
  rw [topK_eq hg hk, ncard_contains (.leaf l ps), enumerate_leaf, ps.nodup.dedup, rankWith_leaf,
    List.length_map]

/-- **What a ranking returns are different programs of the space, as many as are wanted or as there
are**, whatever the scores. Only the programs of a bare list are all returned, as soon as one is
wanted. -/
theorem topK_distinct {g : Graph} (hg : Coherent [g]) (hs : g.Proper) (k : Nat) :
    ((g.topK k : List (Ranked σ)).map (·.program)).Nodup ∧
      (∀ r ∈ (g.topK k : List (Ranked σ)), g.contains r.program) ∧
      (g.topK k : List (Ranked σ)).length =
        if g.isLeaf ∧ 0 < k then {p | g.contains p}.ncard
        else min k {p | g.contains p}.ncard := by
  refine ⟨nodup_topK hg, fun r => contains_of_mem_topK hg, ?_⟩
  rcases Nat.eq_zero_or_pos k with rfl | hk
  · rw [topK, if_pos rfl, if_neg (by simp), Nat.zero_min]
    rfl
  cases hleaf : g.isLeaf with
  | true =>
    obtain ⟨l, ps, rfl⟩ := exists_eq_leaf hleaf
    rw [if_pos ⟨rfl, hk⟩]
    exact length_topK_leaf hg hk
  | false =>
    rw [if_neg (by simp)]
    exact length_topK hg hs hleaf hk

/-- Two elements that are to be had from two members of a union are two programs, not four. -/
theorem topK_distinct_shared :
    let positions : Graph := leaf 3 (.ofList [.lit (.ofNat 0), .lit (.ofNat 1)])
    let element : Graph := join 1 .elementAt [inputLeaf 2, positions]
    let g : Graph := union 0 [element, element]
    g.enumerate.length = 4 ∧
      ((g.topK 4 : List (Ranked Float)).map (·.program)).Nodup ∧
      (g.topK 4 : List (Ranked Float)).length = 2 ∧
      (g.topK 1 : List (Ranked Float)).length = 1 := by
  intro positions element g
  have hproper : g.Proper := by
    have helement : element.Proper :=
      .join (List.forall_mem_cons.2 ⟨.leaf _ _, List.forall_mem_singleton.2 (.leaf _ _)⟩)
    exact .union (List.forall_mem_cons.2 ⟨helement, List.forall_mem_singleton.2 helement⟩)
  -- Each label stands for the shape of the one node that has it.
  let r : Registry :=
    ⟨4, fun l => if l = 0 then g.shape else if l = 1 then element.shape else
      if l = 2 then inputLeaf () else positions.shape⟩
  have hcoherent : Coherent [g] := by
    have helement : r.Holds element :=
      .join (by decide) rfl (List.forall_mem_cons.2
        ⟨.leaf (by decide) rfl, List.forall_mem_singleton.2 (.leaf (by decide) rfl)⟩)
    have hg : r.Holds g :=
      .union (by decide) rfl
        (List.forall_mem_cons.2 ⟨helement, List.forall_mem_singleton.2 helement⟩)
    exact coherent_of_holds (List.forall_mem_singleton.2 hg)
  have hcard : {p | g.contains p}.ncard = 2 := by
    rw [ncard_contains hproper]
    decide +kernel
  have htop := topK_distinct (σ := Float) hcoherent hproper
  obtain ⟨hnodup, _, hfour⟩ := htop 4
  obtain ⟨_, _, hone⟩ := htop 1
  rw [hcard] at hfour hone
  exact ⟨by decide +kernel, hnodup, hfour, hone⟩

/-- A learned list of two literals is returned whole to whoever wants one program. -/
theorem topK_leaf_exceeds :
    let states : List Input := [[]]
    let spec : Spec := ⟨[.ofList [.ofNat 1, .ofNat 2]]⟩
    let space : Graph := leaf 0 (.ofList [.lit (.ofNat 1), .lit (.ofNat 2)])
    (Search.attempt (Search.learn states 0 .constant spec) (.start {})).1 = .ok space ∧
      Coherent [space] ∧ space.Proper ∧
      (space.topK 1 : List (Ranked Float)).length = 2 ∧
      min 1 {p | space.contains p}.ncard = 1 := by
  intro states spec space
  have hcoherent : Coherent [space] := by
    let r : Registry := ⟨1, fun _ => space.shape⟩
    have hspace : r.Holds space := .leaf (by decide) rfl
    exact coherent_of_holds (List.forall_mem_singleton.2 hspace)
  have hcard : {p | space.contains p}.ncard = 2 := by
    rw [ncard_contains (.leaf _ _)]
    decide +kernel
  exact ⟨rfl, hcoherent, .leaf _ _, rfl, by rw [hcard]; rfl⟩

end Space

end ArithLearn
