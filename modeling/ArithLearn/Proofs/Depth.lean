/-
How deep a search goes, and how deep the programs are that it finds.

The depth a search is given counts the operators it may still nest. A
deeper search gives an operator more left operands, and so other parts to
solve the right one for, but what it finds beyond a shallower one is only
what is nested deeper: the shallower search finds the same programs up to
its depth. One level of this is `contains_operator_iff_of_lower`.
-/
import ArithLearn.Proofs.Derivation

namespace ArithLearn

namespace Plain

variable {states : List Input} {d D : Nat} {spec : Spec} {p : Program}

/-- An application is nested. -/
theorem depth_pos_of_contains_operator {op : Op}
    (h : (operator states (learn states d) (.of op) spec).contains p) : 0 < p.depth := by
  rcases eq_elementAt_or_inverse op with rfl | ⟨left, right, row⟩
  · obtain ⟨q, rfl, hq⟩ := (contains_operator_elementAt fun _ _ => isEmpty_learn).1 h
    obtain ⟨position, _, rfl⟩ := contains_learn_constant.1 hq
    show 0 < (Program.elementAt position).depth
    rw [Program.depth_elementAt]
    omega
  · rw [row.of_eq] at h
    obtain ⟨a, b, _, rfl, _⟩ :=
      (contains_operator_binary (fun _ _ => isEmpty_learn) (applied_learn d)).1 h
    rw [Program.depth_binary]
    omega

/-- One level deeper: where two searches find the same operands up to a depth, they find the same
applications up to the next. -/
theorem contains_operator_iff_of_lower {op : Op}
    (hl : ∀ spec q, (learn states d .start spec).contains q ↔
      (learn states D .start spec).contains q ∧ q.depth ≤ d) :
    (operator states (learn states d) (.of op) spec).contains p ↔
      (operator states (learn states D) (.of op) spec).contains p ∧ p.depth ≤ d + 1 := by
  have hu : ∀ {depth} (symbol : Symbol) (spec : Spec), spec.isUnsatisfiable →
      (learn states depth symbol spec).isEmpty := fun _ _ => isEmpty_learn
  rcases eq_elementAt_or_inverse op with rfl | ⟨left, right, row⟩
  · -- A position is a literal, and those are the same at every depth.
    simp only [contains_operator_elementAt hu, contains_learn_constant]
    constructor
    · intro h
      obtain ⟨_, rfl, position, hpos, rfl⟩ := h
      refine ⟨⟨_, rfl, position, hpos, rfl⟩, ?_⟩
      show (Program.elementAt position).depth ≤ d + 1
      rw [Program.depth_elementAt]
      omega
    · exact fun h => h.1
  · rw [row.of_eq, contains_operator_binary hu (applied_learn d),
      contains_operator_binary hu (applied_learn D)]
    constructor
    · intro h
      obtain ⟨a, b, values, rfl, ha, hv, hb⟩ := h
      obtain ⟨ha, hda⟩ := (hl _ a).1 ha
      obtain ⟨hb, hdb⟩ := (hl _ b).1 hb
      refine ⟨⟨a, b, values, rfl, ha, hv, hb⟩, ?_⟩
      rw [Program.depth_binary]
      omega
    · intro h
      obtain ⟨⟨a, b, values, rfl, ha, hv, hb⟩, hd⟩ := h
      rw [Program.depth_binary] at hd
      exact ⟨a, b, values, rfl, (hl _ a).2 ⟨ha, by omega⟩, hv, (hl _ b).2 ⟨hb, by omega⟩⟩

/-- The shallower of two searches finds what the deeper one finds up to its depth. -/
theorem contains_learn_iff_of_le (h : d ≤ D) : (learn states d .start spec).contains p ↔
    (learn states D .start spec).contains p ∧ p.depth ≤ d := by
  induction d generalizing D spec p with
  | zero =>
    rw [contains_learn_start, contains_learn_start]
    constructor
    · intro h
      obtain ⟨hu, ⟨k, hk, rfl⟩ | ⟨d, _, hd, _⟩⟩ := h
      · exact ⟨⟨hu, .inl ⟨k, hk, rfl⟩⟩, by simp [Program.depth]⟩
      · omega
    · intro h
      obtain ⟨⟨hu, hlit | ⟨_, _, _, hop⟩⟩, hp⟩ := h
      · exact ⟨hu, .inl hlit⟩
      · have hpos := depth_pos_of_contains_operator hop
        omega
  | succ d ih =>
    obtain ⟨D, rfl⟩ : ∃ n, D = n + 1 := ⟨D - 1, by omega⟩
    have hl : ∀ op, (operator states (learn states d) (.of op) spec).contains p ↔
        (operator states (learn states D) (.of op) spec).contains p ∧ p.depth ≤ d + 1 :=
      fun op => contains_operator_iff_of_lower fun _ _ => ih (by omega)
    rw [contains_learn_start, contains_learn_start]
    constructor
    · intro h
      obtain ⟨hu, ⟨k, hk, rfl⟩ | ⟨_, op, hd, hop⟩⟩ := h
      · exact ⟨⟨hu, .inl ⟨k, hk, rfl⟩⟩, by simp [Program.depth]⟩
      · cases hd
        obtain ⟨hop, hp⟩ := (hl op).1 hop
        exact ⟨⟨hu, .inr ⟨D, op, rfl, hop⟩⟩, hp⟩
    · intro h
      obtain ⟨⟨hu, hlit | ⟨_, op, hd, hop⟩⟩, hp⟩ := h
      · exact ⟨hu, .inl hlit⟩
      · cases hd
        exact ⟨hu, .inr ⟨d, op, rfl, (hl op).2 ⟨hop, hp⟩⟩⟩

end Plain

/-- **Depths are layers**: of two searches over the same states, whatever their limits and their
histories, the shallower one learns for a spec the programs the deeper one learns for it that are
nested no deeper than it may go. So a version space loses nothing when the depth is raised. -/
theorem contains_iff_of_deeper :
    (∀ (states : List Input) (s s' : Search) (spec : Spec) (d D : Nat) (space space' : Graph),
      s.Reachable states → s'.Reachable states → d ≤ D →
        (Search.attempt (Search.learn states d .start spec) s).1 = .ok space →
          (Search.attempt (Search.learn states D .start spec) s').1 = .ok space' →
            ∀ p, space.contains p ↔ space'.contains p ∧ p.depth ≤ d) ∧
      ∀ (examples : List Example) (config deeper : Config) (clock clock' : Clock)
        (space space' : Graph), config.limits.maxDepth ≤ deeper.limits.maxDepth →
          versionSpace examples config clock = .ok space →
          versionSpace examples deeper clock' = .ok space' →
            ∀ p, space.contains p ↔ space'.contains p ∧ p.depth ≤ config.limits.maxDepth := by
  constructor
  · intro states s s' spec d D space space' hs hs' hle h h' p
    rw [← Space.contains_shape (s := space), ← Space.contains_shape (s := space'), hs.learn_eq h,
      hs'.learn_eq h']
    exact Plain.contains_learn_iff_of_le hle
  · intro examples config deeper clock clock' space space' hle h h' p
    rw [← Space.contains_shape (s := space), ← Space.contains_shape (s := space'),
      (versionSpace_eq_ok h).2, (versionSpace_eq_ok h').2]
    exact Plain.contains_learn_iff_of_le hle

/-- Seven from three and four: the sum of the elements is nested twice, and so only the deeper of two
searches finds it, while the sum of the literals is found by both. -/
theorem deeper_sums :
    (∃ space space',
      (Search.attempt (Search.learn [[.ofNat 3, .ofNat 4]] 1 .start (.exact [.ofNat 7]))
        (.start { cacheCapacity := 0 })).1 = .ok space ∧
      (Search.attempt (Search.learn [[.ofNat 3, .ofNat 4]] 2 .start (.exact [.ofNat 7]))
        (Search.attempt (Search.learn [[.ofNat 3, .ofNat 4]] 1 .start (.exact [.ofNat 3]))
          (.start {})).2).1 = .ok space' ∧
      space'.contains (.sum (.elementAt (.ofNat 0)) (.elementAt (.ofNat 1))) ∧
      ¬ space.contains (.sum (.elementAt (.ofNat 0)) (.elementAt (.ofNat 1)))) ∧
    ∃ space space',
      versionSpace [⟨[.ofNat 3, .ofNat 4], .ofNat 7⟩] { limits.maxDepth := 1 } = .ok space ∧
      versionSpace [⟨[.ofNat 3, .ofNat 4], .ofNat 7⟩] { limits.maxDepth := 2 } = .ok space' ∧
      space.contains (.sum (.lit (.ofNat 3)) (.lit (.ofNat 4))) ∧
      space'.contains (.sum (.lit (.ofNat 3)) (.lit (.ofNat 4))) := by
  constructor
  · have hshallow : (Search.attempt
        (Search.learn [[.ofNat 3, .ofNat 4]] 1 .start (.exact [.ofNat 7]))
        (.start { cacheCapacity := 0 })).1.toOption.any fun _ => true := by
      decide +kernel
    have hdeep : (Search.attempt (Search.learn [[.ofNat 3, .ofNat 4]] 2 .start (.exact [.ofNat 7]))
        (Search.attempt (Search.learn [[.ofNat 3, .ofNat 4]] 1 .start (.exact [.ofNat 3]))
          (.start {})).2).1.toOption.any
          (·.contains (.sum (.elementAt (.ofNat 0)) (.elementAt (.ofNat 1)))) := by
      decide +kernel
    obtain ⟨space, hspace, _⟩ := exists_ok_of_any hshallow
    obtain ⟨space', hspace', hp⟩ := exists_ok_of_any hdeep
    refine ⟨space, space', hspace, hspace', hp, fun h => ?_⟩
    have hd := ((contains_iff_of_deeper.1 _ _ _ _ 1 2 space space' (.start { cacheCapacity := 0 })
      (.learn (.start {}) 1 .start _) (by omega) hspace hspace' _).1 h).2
    exact absurd hd (by decide)
  · have hshallow : (versionSpace [⟨[.ofNat 3, .ofNat 4], .ofNat 7⟩]
        { limits.maxDepth := 1 }).toOption.any
        (·.contains (.sum (.lit (.ofNat 3)) (.lit (.ofNat 4)))) := by
      decide +kernel
    have hdeep : (versionSpace [⟨[.ofNat 3, .ofNat 4], .ofNat 7⟩]
        { limits.maxDepth := 2 }).toOption.any fun _ => true := by
      decide +kernel
    obtain ⟨space, hspace, hp⟩ := exists_ok_of_any hshallow
    obtain ⟨space', hspace', _⟩ := exists_ok_of_any hdeep
    refine ⟨space, space', hspace, hspace', hp, ?_⟩
    exact ((contains_iff_of_deeper.2 _ _ _ _ _ space space' (by decide) hspace hspace' _).1 hp).1

end ArithLearn
