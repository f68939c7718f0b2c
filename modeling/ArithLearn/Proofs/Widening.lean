/-
A spec that accepts more loses no program.

Where every state accepts at least what it did, the witnesses find at least
the operands they did (`Inverse.left_mono`, `Inverse.right_mono`), also
beside a zero, where a wider spec may bring in a rule of its own. So the
operands of a derivation are asked for no less, and it goes through as it
stands (`Derives.mono`). A wider spec makes the clusters of a left operand
larger and more, but a derivation speaks only of the one its operand is in.
-/
import ArithLearn.Proofs.Derivation

namespace ArithLearn

/-- Lists that are related member by member stay so when they are combined with others that are. -/
theorem forall₂_zipWith {α β γ : Type} {R : α → α → Prop} {S : β → β → Prop} {T : γ → γ → Prop}
    {f : α → β → γ} (hf : ∀ {a a' b b'}, R a a' → S b b' → T (f a b) (f a' b')) {as as' : List α}
    {bs bs' : List β} (ha : List.Forall₂ R as as') (hb : List.Forall₂ S bs bs') :
    List.Forall₂ T (List.zipWith f as bs) (List.zipWith f as' bs') := by
  induction ha generalizing bs bs' with
  | nil => simp
  | cons ha _ ih =>
    cases hb with
    | nil => simp
    | cons hb hbs => exact .cons (hf ha hb) (ih hbs)

/-- Each state accepts in the second spec all that it accepts in the first. -/
def Spec.Within (spec wider : Spec) : Prop :=
  List.Forall₂ (fun outputs more => ∀ n ∈ outputs, n ∈ more) spec.outputs wider.outputs

namespace Spec.Within

variable {states : List Input} {spec wider : Spec}

theorem length_eq (h : spec.Within wider) : spec.length = wider.length :=
  List.Forall₂.length_eq h

/-- What holds of more outputs if it holds of fewer goes over to the wider spec. -/
theorem onEach (h : spec.Within wider) {P : Input → SortedSet Value → Prop}
    (mono : ∀ v outputs more, (∀ n ∈ outputs, n ∈ more) → P v outputs → P v more)
    (hP : spec.OnEach states P) : wider.OnEach states P := by
  intro s v more hv hmore
  obtain ⟨hs, rfl⟩ := List.getElem?_eq_some_iff.1 hmore
  have hs' : s < spec.outputs.length := by rwa [List.Forall₂.length_eq h]
  exact mono v _ _ (List.Forall₂.get h hs' hs) (hP s v _ hv (List.getElem?_eq_getElem hs'))

section

variable {op : Op} {left : Input → SortedSet Value → SortedSet Value}
  {right : Input → SortedSet Value → Value → SortedSet Value}

/-- The wider spec asks no less for the left operand. -/
theorem freeSpec (row : Inverse op left right) (h : spec.Within wider) :
    (Witness.freeSpec left states spec).Within (Witness.freeSpec left states wider) := by
  refine forall₂_zipWith (R := Eq) ?_ (List.forall₂_refl states) h
  rintro v _ outputs more rfl hsub n
  exact row.left_mono hsub

/-- The wider spec asks no less for the right operand beside the same left one. -/
theorem dependentSpec (row : Inverse op left right) (h : spec.Within wider) {values : List Value} :
    (Witness.dependentSpec right states spec values).Within
      (Witness.dependentSpec right states wider values) := by
  have hzip : List.Forall₂ (fun x y => x.1 = y.1 ∧ ∀ n ∈ x.2, n ∈ y.2) (states.zip spec.outputs)
      (states.zip wider.outputs) :=
    forall₂_zipWith (R := Eq) (fun hv hsub => ⟨hv, hsub⟩) (List.forall₂_refl states) h
  refine forall₂_zipWith (S := Eq) ?_ hzip (List.forall₂_refl values)
  rintro ⟨v, outputs⟩ ⟨_, more⟩ a _ ⟨rfl, hsub⟩ rfl n
  exact row.right_mono hsub

end

end Spec.Within

variable {states : List Input} {depth : Nat} {spec wider : Spec} {p : Program}

/-- **What is derived for a spec is derived for every wider one.** -/
theorem Derives.mono (h : Derives states depth spec p) (hw : spec.Within wider) :
    Derives states depth wider p := by
  induction h generalizing wider with
  | lit hk =>
    refine .lit fun more hmore => ?_
    obtain ⟨outputs, ho, hsub⟩ := exists_of_forall₂ (List.Forall₂.flip hw) hmore
    exact hsub _ (hk outputs ho)
  | elementAt hp =>
    refine .elementAt (hw.onEach (fun v outputs more hsub h => ?_) hp)
    obtain ⟨hpos, n, hn, hget⟩ := h
    exact ⟨hpos, n, hsub n hn, hget⟩
  | binary row _ hv _ iha ihb => exact .binary row (iha (hw.freeSpec row)) hv (ihb (hw.dependentSpec row))

/-- What is found for an aligned spec is found for every wider one. -/
theorem Plain.contains_learn_of_within (hl : spec.length = states.length) (hw : spec.Within wider)
    (h : (Plain.learn states depth .start spec).contains p) :
    (Plain.learn states depth .start wider).contains p := by
  cases states with
  | nil =>
    -- Without states there is but one aligned spec.
    obtain ⟨outputs⟩ := spec
    obtain rfl : outputs = [] := List.eq_nil_of_length_eq_zero hl
    obtain ⟨_⟩ := wider
    cases hw
    exact h
  | cons v states =>
    have hlength : wider.length = (v :: states).length := hw.length_eq ▸ hl
    exact ((derives_of_contains_learn h).mono hw).contains_learn (List.cons_ne_nil v states) hlength

/-- **A wider spec loses no program**: two searches over the same states, whatever their limits and
their histories, one for an aligned spec and one for a spec that accepts on each state all that the
first does, both as deep. What the first finds the second finds too. -/
theorem contains_of_wider {s s' : Search} {space space' : Graph} (hs : s.Reachable states)
    (hs' : s'.Reachable states) (hl : spec.length = states.length) (hw : spec.Within wider)
    (h : (Search.attempt (Search.learn states depth .start spec) s).1 = .ok space)
    (h' : (Search.attempt (Search.learn states depth .start wider) s').1 = .ok space')
    (hp : space.contains p) : space'.contains p := by
  rw [← Space.contains_shape, hs.learn_eq h] at hp
  rw [← Space.contains_shape, hs'.learn_eq h']
  exact Plain.contains_learn_of_within hl hw hp

/-- The product of the elements is zero on one of two states, and so its right operand is any element
there, once zero is accepted. It is still found where six is accepted beside zero, and seven. -/
theorem contains_mul_wider :
    let states : List Input := [[.zero, .ofNat 3], [.ofNat 2, .ofNat 3]]
    let spec : Spec := .exact [.zero, .ofNat 6]
    let wider : Spec := ⟨[.ofList [.zero, .ofNat 6], .ofList [.ofNat 6, .ofNat 7]]⟩
    let product : Program := .mul (.elementAt .zero) (.elementAt (.ofNat 1))
    ∃ space space',
      (Search.attempt (Search.learn states 2 .start spec) (.start {})).1 = .ok space ∧
      (Search.attempt (Search.learn states 2 .start wider)
        (Search.attempt (Search.learn states 2 .start spec) (.start {})).2).1 = .ok space' ∧
      spec.Within wider ∧ space.contains product ∧ space'.contains product := by
  intro states spec wider product
  have hnarrow : (Search.attempt (Search.learn states 2 .start spec) (.start {})).1.toOption.any
      (·.contains product) := by
    decide +kernel
  have hwide : (Search.attempt (Search.learn states 2 .start wider)
      (Search.attempt (Search.learn states 2 .start spec) (.start {})).2).1.toOption.any
        fun _ => true := by
    decide +kernel
  obtain ⟨space, hspace, hp⟩ := exists_ok_of_any hnarrow
  obtain ⟨space', hspace', _⟩ := exists_ok_of_any hwide
  have hwithin : spec.Within wider := .cons (by simp) (.cons (by simp) .nil)
  refine ⟨space, space', hspace, hspace', hwithin, hp, ?_⟩
  exact contains_of_wider (.start {}) (.learn (.start {}) 2 .start spec) rfl hwithin hspace hspace' hp

end ArithLearn
