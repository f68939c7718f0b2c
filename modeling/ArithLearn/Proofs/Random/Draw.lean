/-
What can be said of a draw whatever the stream gives.

`Succeeds x P` says of a computation that it has a result from every
state, and that `P` holds of the result. It is what a test with many seeds
samples; here it is put together like the computations themselves, from
single draws (`succeeds_below`), repetitions (`Succeeds.times`) and
shuffles (`succeeds_shuffle`). `Ensures x P` says no more than that `P`
holds of the results there are.
-/
import ArithLearn.Random.Draw
import ArithLearn.Proofs.Registry
import Mathlib.Algebra.Group.Nat.Defs

namespace ArithLearn

instance {σ : Type} : Runs (OptionT (StateM σ)) σ where
  run x s := x.run.run s
  run_pure _ _ := rfl
  run_bind x f s := by
    rw [OptionT.run_bind, Option.elimM, StateT.run_bind]
    simp only [bind]
    rcases x.run.run s with ⟨_ | a, s'⟩ <;> rfl

/-- The computation has a result from every state, and `P` holds of it. -/
def Succeeds {m : Type → Type} {σ α : Type} [Monad m] [Runs m σ] (x : m α) (P : α → Prop) : Prop :=
  ∀ s, ∃ a, (Runs.run x s).1 = some a ∧ P a

namespace Succeeds

variable {m : Type → Type} {σ α β : Type} [Monad m] [Runs m σ] {x : m α} {f : α → m β}
  {P Q : α → Prop} {R : β → Prop}

theorem pure {a : α} (h : P a) : Succeeds (pure a : m α) P := by
  intro s
  rw [Runs.run_pure]
  exact ⟨a, rfl, h⟩

theorem bind (hx : Succeeds x P) (hf : ∀ a, P a → Succeeds (f a) R) : Succeeds (x >>= f) R := by
  intro s
  obtain ⟨a, ha, hP⟩ := hx s
  obtain ⟨b, hb, hR⟩ := hf a hP (Runs.run x s).2
  refine ⟨b, ?_, hR⟩
  rw [Runs.run_bind]
  rcases hrun : Runs.run x s with ⟨o, s'⟩
  rw [hrun] at ha hb
  obtain rfl : o = some a := ha
  exact hb

theorem imp (hx : Succeeds x P) (h : ∀ a, P a → Q a) : Succeeds x Q := by
  intro s
  obtain ⟨a, ha, hP⟩ := hx s
  exact ⟨a, ha, h a hP⟩

/-- What is done several times succeeds each time. -/
theorem times (hx : Succeeds x P) (n : Nat) :
    Succeeds (ArithLearn.times x n) fun as => as.length = n ∧ ∀ a ∈ as, P a := by
  induction n with
  | zero => exact .pure ⟨rfl, by simp⟩
  | succ n ih =>
    refine hx.bind fun a ha => ih.bind fun as has => .pure ⟨?_, ?_⟩
    · rw [List.length_cons, has.1]
    · exact List.forall_mem_cons.2 ⟨ha, has.2⟩

/-- A draw that cannot fail succeeds among those that can. -/
theorem lift {x : StateM σ α} (hx : Succeeds x P) :
    Succeeds (liftM x : OptionT (StateM σ) α) P := by
  intro s
  obtain ⟨a, ha, hP⟩ := hx s
  cases ha
  exact ⟨_, rfl, hP⟩

/-- A value there is can be counted on. -/
theorem of_eq_some {a : α} {o : Option α} (ho : o = some a) (h : P a) :
    Succeeds (OptionT.mk (Pure.pure o) : OptionT (StateM σ) α) P := by
  subst ho
  exact fun s => ⟨a, rfl, h⟩

/-- What succeeds gives a result, if it is run. -/
theorem exists_run {x : StateM σ (Option α)} (hx : Succeeds (OptionT.mk x) P) (s : σ) :
    ∃ a, (x.run s).1 = some a ∧ P a := hx s

/-- A draw that cannot fail has its result. -/
theorem of_run {x : StateM σ α} (hx : Succeeds x P) (s : σ) : P (x.run s).1 := by
  obtain ⟨a, ha, hP⟩ := hx s
  cases ha
  exact hP

end Succeeds

/-- `P` holds of each result the computation has, from whatever state. -/
def Ensures {m : Type → Type} {σ α : Type} [Monad m] [Runs m σ] (x : m α) (P : α → Prop) : Prop :=
  ∀ s a, (Runs.run x s).1 = some a → P a

namespace Ensures

variable {m : Type → Type} {σ α β : Type} [Monad m] [Runs m σ] {x : m α} {f : α → m β}
  {P Q : α → Prop} {R : β → Prop}

theorem pure {a : α} (h : P a) : Ensures (pure a : m α) P := by
  intro s b hb
  rw [Runs.run_pure] at hb
  cases hb
  exact h

theorem bind (hx : Ensures x P) (hf : ∀ a, P a → Ensures (f a) R) : Ensures (x >>= f) R := by
  intro s b hb
  rw [Runs.run_bind] at hb
  rcases hrun : Runs.run x s with ⟨_ | a, s'⟩
  · rw [hrun] at hb
    cases hb
  · rw [hrun] at hb
    exact hf a (hx s a (by rw [hrun])) s' b hb

theorem imp (hx : Ensures x P) (h : ∀ a, P a → Q a) : Ensures x Q :=
  fun s a ha => h a (hx s a ha)

/-- What is done several times has several results. -/
theorem times (hx : Ensures x P) (n : Nat) :
    Ensures (ArithLearn.times x n) fun as => as.length = n ∧ ∀ a ∈ as, P a := by
  induction n with
  | zero => exact .pure ⟨rfl, by simp⟩
  | succ n ih =>
    refine hx.bind fun a ha => ih.bind fun as has => .pure ⟨?_, ?_⟩
    · rw [List.length_cons, has.1]
    · exact List.forall_mem_cons.2 ⟨ha, has.2⟩

theorem of_option (o : Option α) :
    Ensures (OptionT.mk (Pure.pure o) : OptionT (StateM σ) α) (o = some ·) :=
  fun _ _ ha => ha

theorem of_run {x : StateM σ (Option α)} (hx : Ensures (OptionT.mk x) P) {s : σ} {a : α}
    (h : (x.run s).1 = some a) : P a := hx s a h

end Ensures

theorem Succeeds.ensures {m : Type → Type} {σ α : Type} [Monad m] [Runs m σ] {x : m α}
    {P : α → Prop} (hx : Succeeds x P) : Ensures x P := by
  intro s a ha
  obtain ⟨b, hb, hP⟩ := hx s
  obtain rfl : b = a := Option.some.inj (hb.symm.trans ha)
  exact hP

namespace Ensures

variable {σ α β : Type} {P : α → Prop} {R : β → Prop}

/-- What is drawn first is there, whether or not anything comes of it. -/
theorem draw {x : StateM σ α} {f : α → StateM σ (Option β)} (hx : Succeeds x P)
    (hf : ∀ a, P a → Ensures (OptionT.mk (f a)) R) : Ensures (OptionT.mk (x >>= f)) R :=
  fun s b hb => hf _ (hx.of_run s) (x.run s).2 b hb

/-- What is tried and may fail is followed by one thing or another. -/
theorem orElse {x : OptionT (StateM σ) α} {f : Option α → StateM σ (Option β)} (hx : Ensures x P)
    (hsome : ∀ a, P a → Ensures (OptionT.mk (f (some a))) R)
    (hnone : Ensures (OptionT.mk (f none)) R) : Ensures (OptionT.mk (x.run >>= f)) R := by
  intro s b hb
  change ((x.run >>= f).run s).1 = some b at hb
  rw [StateT.run_bind] at hb
  rcases hrun : x.run.run s with ⟨_ | a, s'⟩
  · rw [hrun] at hb
    exact hnone s' b hb
  · rw [hrun] at hb
    exact hsome a (hx s a (congrArg Prod.fst hrun)) s' b hb

end Ensures

namespace Draw

/-- Two words make a number of 64 bits. -/
theorem succeeds_wide : Succeeds wide.draw (· < 2 ^ wide.width) := by
  have hnext : Succeeds Stream.next fun _ => True := fun s => ⟨_, rfl, trivial⟩
  refine hnext.bind fun low _ => hnext.bind fun high _ => .pure ?_
  have hlow := low.toNat_lt
  have hhigh := high.toNat_lt
  show high.toNat * 0x100000000 + low.toNat < 2 ^ 64
  omega

/-- A number drawn below `n` is, after however many words. -/
theorem succeeds_belowWithin {s : Source} (hs : Succeeds s.draw (· < 2 ^ s.width)) {n : Nat}
    (hn : 0 < n) (retries : Nat) : Succeeds (s.belowWithin n retries) (· < n) := by
  have hscaled : ∀ w, w < 2 ^ s.width → w * n / 2 ^ s.width < n := by
    intro w hw
    refine Nat.div_lt_of_lt_mul ?_
    exact Nat.mul_lt_mul_of_pos_right hw hn
  induction retries with
  | zero => exact hs.bind fun w hw => .pure (hscaled w hw)
  | succ retries ih =>
    refine hs.bind fun w hw => ?_
    split
    · exact .pure (hscaled w hw)
    · exact ih

theorem succeeds_below {n : Nat} (hn : 0 < n) : Succeeds (below n) (· < n) :=
  succeeds_belowWithin succeeds_wide hn 256

theorem succeeds_index (n : Nat) : Succeeds (index n) fun _ => True := fun _ => ⟨_, rfl, trivial⟩

variable {α : Type}

theorem perm_swapIfInBounds (xs : Array α) (i j : Nat) : (xs.swapIfInBounds i j).Perm xs := by
  unfold Array.swapIfInBounds
  split
  · split
    · exact Array.swap_perm _ _
    · exact .refl xs
  · exact .refl xs

theorem succeeds_shuffleFrom (i : Nat) (xs : Array α) :
    Succeeds (shuffleFrom i xs) fun ys => ys.Perm xs := by
  induction i generalizing xs with
  | zero => exact .pure (.refl xs)
  | succ i ih =>
    refine (succeeds_index _).bind fun j _ => (ih _).imp fun ys hys => ?_
    exact hys.trans (perm_swapIfInBounds xs _ _)

/-- A shuffle only changes the order. -/
theorem succeeds_shuffle (xs : Array α) : Succeeds (shuffle xs) fun ys => ys.Perm xs :=
  succeeds_shuffleFrom _ xs

end Draw

end ArithLearn
