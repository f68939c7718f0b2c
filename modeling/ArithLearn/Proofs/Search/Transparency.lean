/-
What a search remembers does not show.

How much room there is for spaces, how many expansions are allowed, and
what was asked before, also in vain, decide how much of a space is found
anew and which of its nodes are shared, and so what its labels are. They
do not decide what the space is: two searches over the same states that
both learn it learn spaces of one shape.
-/
import ArithLearn.Proofs.Search.Plain

namespace ArithLearn

namespace Search

variable {states : List Input}

/-- **A learned space does not depend on the search that learns it**: two searches over the same
states, whatever their limits and their histories, learn spaces of the same shape for a goal, if
both learn one. -/
theorem shape_eq_of_reachable {s s' : Search} (hs : s.Reachable states) (hs' : s'.Reachable states)
    {depth : Nat} {symbol : Symbol} {spec : Spec} {space space' : Graph}
    (h : (attempt (learn states depth symbol spec) s).1 = .ok space)
    (h' : (attempt (learn states depth symbol spec) s').1 = .ok space') :
    space.shape = space'.shape := by
  rw [hs.learn_eq h, hs'.learn_eq h']

/-- A search with no room for spaces, and one with room that has run out of expansions on a deeper
goal: the second still has the space it learned before, and it is the one the first finds. -/
theorem shape_eq_after_failure :
    let states : List Input := [[.ofNat 3, .ofNat 3]]
    let spec : Spec := .exact [.ofNat 6]
    let learned := (attempt (learn states 1 .start spec) (start { maxExpansions := 8 })).2
    let failed := attempt (learn states 3 .start spec) learned
    failed.1.toOption = none ∧
      ∃ space space',
        (attempt (learn states 1 .start spec) (start { cacheCapacity := 0 })).1 = .ok space ∧
        (attempt (learn states 1 .start spec) failed.2).1 = .ok space' ∧
        space.shape = space'.shape := by
  intro states spec learned failed
  have hfailed : failed.1.toOption.isNone := by
    decide +kernel
  have hfresh : (attempt (learn states 1 .start spec)
      (start { cacheCapacity := 0 })).1.toOption.any fun _ => true := by
    decide +kernel
  have hagain : (attempt (learn states 1 .start spec) failed.2).1.toOption.any fun _ => true := by
    decide +kernel
  obtain ⟨space, hspace, _⟩ := exists_ok_of_any hfresh
  obtain ⟨space', hspace', _⟩ := exists_ok_of_any hagain
  refine ⟨Option.isNone_iff_eq_none.1 hfailed, space, space', hspace, hspace', ?_⟩
  have hreachable : failed.2.Reachable states :=
    .learn (.learn (.start { maxExpansions := 8 }) 1 .start spec) 3 .start spec
  exact shape_eq_of_reachable (.start { cacheCapacity := 0 }) hreachable hspace hspace'

end Search

end ArithLearn
