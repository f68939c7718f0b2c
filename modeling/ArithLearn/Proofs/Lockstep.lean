/-
Two computations that go on side by side.

`Lockstep inv x y post` compares the runs of `x` and `y` from two states
that `inv` relates: the states they leave are related again, and either
both fail or both have results, which `post` relates. Neither is said to
take as many steps as the other; but what counts its steps in the state
counts as many, if `inv` says so.
-/
import ArithLearn.Proofs.Registry

namespace ArithLearn

/-- Started in related states, the computations end in related states, also if they fail. They fail
together, and `post` relates their results if they do not. -/
def Lockstep {m : Type → Type} {σ α β : Type} [Monad m] [Runs m σ] (inv : σ → σ → Prop) (x : m α)
    (y : m β) (post : α → β → Prop) : Prop :=
  ∀ s t, inv s t → inv (Runs.run x s).2 (Runs.run y t).2 ∧
    Option.Rel post (Runs.run x s).1 (Runs.run y t).1

namespace Lockstep

variable {m : Type → Type} {σ α β α' β' : Type} [Monad m] [Runs m σ] {inv : σ → σ → Prop}
  {x : m α} {y : m β} {f : α → m α'} {g : β → m β'} {post post' : α → β → Prop}

theorem pure {a : α} {b : β} (h : post a b) : Lockstep inv (pure a : m α) (pure b) post := by
  intro s t hst
  rw [Runs.run_pure, Runs.run_pure]
  exact ⟨hst, .some h⟩

theorem bind {post₂ : α' → β' → Prop} (hx : Lockstep inv x y post)
    (hf : ∀ a b, post a b → Lockstep inv (f a) (g b) post₂) :
    Lockstep inv (x >>= f) (y >>= g) post₂ := by
  intro s t hst
  obtain ⟨hst', hab⟩ := hx s t hst
  rw [Runs.run_bind, Runs.run_bind]
  rcases hrun : Runs.run x s with ⟨a?, s'⟩
  rcases hrun' : Runs.run y t with ⟨b?, t'⟩
  rw [hrun, hrun'] at hst' hab
  cases hab with
  | none => exact ⟨hst', .none⟩
  | some hab => exact hf _ _ hab s' t' hst'

theorem imp (hx : Lockstep inv x y post) (h : ∀ a b, post a b → post' a b) :
    Lockstep inv x y post' := by
  intro s t hst
  obtain ⟨hst', hab⟩ := hx s t hst
  refine ⟨hst', ?_⟩
  generalize (Runs.run x s).1 = a?, (Runs.run y t).1 = b? at hab ⊢
  cases hab with
  | none => exact .none
  | some hab => exact .some (h _ _ hab)

/-- Computations with equal results have none or the same. -/
theorem result_eq {x y : m α} (h : Lockstep inv x y Eq) {s t : σ} (hst : inv s t) :
    (Runs.run y t).1 = (Runs.run x s).1 := by
  obtain ⟨_, hab⟩ := h s t hst
  generalize (Runs.run x s).1 = a?, (Runs.run y t).1 = b? at hab ⊢
  cases hab with
  | none => rfl
  | some hab => rw [hab]

/-- What is done side by side for each member of a list has results that agree one by one. -/
theorem mapM [LawfulMonad m] {ι : Type} {f : ι → m α} {g : ι → m β} {xs : List ι}
    (h : ∀ x ∈ xs, Lockstep inv (f x) (g x) post) :
    Lockstep inv (xs.mapM f) (xs.mapM g) (List.Forall₂ post) := by
  induction xs with
  | nil => exact .pure .nil
  | cons x xs ih =>
    rw [List.mapM_cons, List.mapM_cons]
    refine .bind (h x (by simp)) fun a b hab => ?_
    refine .bind (ih fun y hy => h y (by simp [hy])) fun as bs habs => ?_
    exact .pure (.cons hab habs)

theorem mapM_eq [LawfulMonad m] {ι : Type} {f g : ι → m α} {xs : List ι}
    (h : ∀ x ∈ xs, Lockstep inv (f x) (g x) Eq) :
    Lockstep inv (xs.mapM f) (xs.mapM g) Eq := by
  refine .imp (.mapM h) fun as bs habs => ?_
  rw [List.forall₂_eq_eq_eq] at habs
  exact habs

/-- Where each result is a view of the other one, so are the lists of them. -/
theorem mapM_view [LawfulMonad m] {ι : Type} {f : ι → m α} {g : ι → m β} {xs : List ι}
    {P : α → Prop} {view : α → β}
    (h : ∀ x ∈ xs, Lockstep inv (f x) (g x) fun a b => P a ∧ view a = b) :
    Lockstep inv (xs.mapM f) (xs.mapM g) fun as bs => (∀ a ∈ as, P a) ∧ as.map view = bs := by
  refine .imp (.mapM h) fun as bs habs => ?_
  rw [List.forall₂_and_left, ← List.forall₂_map_left_iff (f := view), List.forall₂_eq_eq_eq] at habs
  exact habs

theorem get : Lockstep inv (get : StateM σ σ) get inv := fun _ _ hst => ⟨hst, .some hst⟩

theorem modify {f g : σ → σ} (h : ∀ s t, inv s t → inv (f s) (g t)) :
    Lockstep inv (modify f : StateM σ Unit) (modify g) Eq :=
  fun s t hst => ⟨h s t hst, .some rfl⟩

end Lockstep

end ArithLearn
