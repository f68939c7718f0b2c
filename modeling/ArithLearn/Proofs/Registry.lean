/-
Labels and what they stand for, kept beside the state of a search.

A memory that is keyed by labels is right only if a label never stands for
two nodes. The program does not write down which node a label was given to,
so the proofs do: a `Registry` says so for all labels in use, and only grows.
`Yields inv r x post` is the statement about a computation `x` that all the
rest is put together from: started where `inv` relates the state to the
registry `r`, it ends where `inv` relates it to a larger one, also if it
fails, and if it has a result, `post` holds of that.
-/
import ArithLearn.Proofs.Space.Contains
import Std.Data.TreeMap.Lemmas

namespace ArithLearn

/-- The labels below `next` are in use, each for nodes of one shape. -/
structure Registry where
  next : Nat
  shapeOf : Nat → Space Unit

namespace Registry

/-- More labels are in use, and those that were stand for what they did. -/
instance : LE Registry :=
  ⟨fun r r' => r.next ≤ r'.next ∧ ∀ l, l < r.next → r'.shapeOf l = r.shapeOf l⟩

variable {r r' r'' : Registry}

theorem le_refl (r : Registry) : r ≤ r := ⟨Nat.le_refl _, fun _ _ => rfl⟩

theorem le_trans (h : r ≤ r') (h' : r' ≤ r'') : r ≤ r'' := by
  refine ⟨Nat.le_trans h.1 h'.1, fun l hl => ?_⟩
  have hl' : l < r'.next := Nat.lt_of_lt_of_le hl h.1
  rw [h'.2 l hl', h.2 l hl]

/-- The next label given to a node of this shape. -/
def register (r : Registry) (s : Space Unit) : Registry where
  next := r.next + 1
  shapeOf l := if l = r.next then s else r.shapeOf l

theorem le_register (r : Registry) (s : Space Unit) : r ≤ r.register s := by
  refine ⟨Nat.le_succ _, fun l hl => ?_⟩
  have hne : l ≠ r.next := by omega
  simp [register, hne]

theorem shapeOf_register (r : Registry) (s : Space Unit) :
    (r.register s).shapeOf r.next = s := by
  simp [register]

/-- Every node of the graph has a label in use, and has the shape the label stands for. -/
inductive Holds (r : Registry) : Graph → Prop
  | intro {g : Graph} (lt : g.label < r.next) (shape : r.shapeOf g.label = g.shape)
      (children : ∀ c ∈ g.children, Holds r c) : Holds r g

theorem Holds.mono (hr : r ≤ r') {g : Graph} (h : r.Holds g) : r'.Holds g := by
  induction h with
  | intro lt shape _ ih =>
    exact .intro (Nat.lt_of_lt_of_le lt hr.1) (by rw [hr.2 _ lt, shape]) ih

variable {label : Nat} {op : Op} {cs : List Graph}

theorem Holds.leaf {ps : SortedSet Program} (lt : label < r.next)
    (shape : r.shapeOf label = .leaf () ps) : r.Holds (.leaf label ps) :=
  .intro lt (by rw [Space.shape_leaf]; exact shape) (by simp [Space.children])

theorem Holds.union (lt : label < r.next)
    (shape : r.shapeOf label = (Space.union label cs).shape) (h : ∀ c ∈ cs, r.Holds c) :
    r.Holds (.union label cs) :=
  .intro lt shape h

theorem Holds.join (lt : label < r.next)
    (shape : r.shapeOf label = (Space.join label op cs).shape) (h : ∀ c ∈ cs, r.Holds c) :
    r.Holds (.join label op cs) :=
  .intro lt shape h

/-- A union with pruning either has the label, or is a node that was there before. -/
theorem Holds.unionOf {members : List (Space.Member Nat)} (lt : label < r.next)
    (shape : r.shapeOf label = (Space.unionOf label members).shape)
    (h : ∀ m ∈ members, r.Holds m.space) : r.Holds (Space.unionOf label members) := by
  revert shape
  refine Space.unionOf_cases (motive := fun g => r.shapeOf label = g.shape → r.Holds g) ?_ ?_
  · intro kept hk _ shape
    refine .union lt shape fun c hc => ?_
    obtain ⟨m, hm, rfl⟩ := hk c hc
    exact h m hm
  · intro m hm _ _ _
    exact h m hm

theorem Holds.joinOf (lt : label < r.next)
    (shape : r.shapeOf label = (Space.joinOf label op cs).shape) (h : ∀ c ∈ cs, r.Holds c) :
    r.Holds (Space.joinOf label op cs) := by
  unfold Space.joinOf at shape ⊢
  split at shape
  · rename_i he
    rw [if_pos he]
    exact .union lt shape (by simp)
  · rename_i he
    rw [if_neg he]
    exact .join lt shape h

end Registry

/-- A table keyed by labels that is right stays right with one more right entry. -/
theorem forall_getElem?_insert {β : Type} {known : Std.TreeMap Nat β} {P : Nat → β → Prop}
    (h : ∀ l b, known[l]? = some b → P l b) {label : Nat} {b : β} (hb : P label b) (l : Nat) (b' : β)
    (hl : (known.insert label b)[l]? = some b') : P l b' := by
  rw [Std.TreeMap.getElem?_insert] at hl
  split at hl
  · rename_i heq
    obtain rfl := Std.LawfulEqCmp.eq_of_compare heq
    cases hl
    exact hb
  · exact h l b' hl

/-! ### Computations that keep a registry -/

/-- A monad whose computations run on a state and leave one behind, also where they fail. -/
class Runs (m : Type → Type) (σ : outParam Type) [Monad m] where
  run : {α : Type} → m α → σ → Option α × σ
  run_pure : ∀ {α : Type} (a : α) (s : σ), run (pure a) s = (some a, s)
  run_bind : ∀ {α β : Type} (x : m α) (f : α → m β) (s : σ),
    run (x >>= f) s = match run x s with
      | (some a, s') => run (f a) s'
      | (none, s') => (none, s')

instance {σ : Type} : Runs (StateM σ) σ where
  run x s := (some (x.run s).1, (x.run s).2)
  run_pure _ _ := rfl
  run_bind _ _ _ := rfl

instance {ε σ : Type} : Runs (ExceptT ε (StateM σ)) σ where
  run x s := ((x.run.run s).1.toOption, (x.run.run s).2)
  run_pure _ _ := rfl
  run_bind x f s := by
    rw [ExceptT.run_bind, StateT.run_bind]
    simp only [bind]
    rcases x.run.run s with ⟨_ | a, s'⟩ <;> rfl

/-- Started where the invariant relates the state to `r`, the computation keeps the invariant, for a
registry that has grown, and `post` holds of its result, if it has one. -/
def Yields {m : Type → Type} {σ α : Type} [Monad m] [Runs m σ] (inv : Registry → σ → Prop)
    (r : Registry) (x : m α) (post : Registry → α → Prop) : Prop :=
  ∀ s, inv r s → ∃ r', r ≤ r' ∧ inv r' (Runs.run x s).2 ∧
    ∀ a, (Runs.run x s).1 = some a → post r' a

namespace Yields

variable {m : Type → Type} {σ α β : Type} [Monad m] [Runs m σ] {inv : Registry → σ → Prop}
  {r : Registry} {x : m α} {f : α → m β} {post post₁ : Registry → α → Prop}
  {post₂ : Registry → β → Prop}

theorem pure {a : α} (h : post r a) : Yields inv r (pure a : m α) post := by
  intro s hs
  rw [Runs.run_pure]
  refine ⟨r, r.le_refl, hs, fun b hb => ?_⟩
  cases hb
  exact h

theorem bind (hx : Yields inv r x post₁)
    (hf : ∀ r' a, r ≤ r' → post₁ r' a → Yields inv r' (f a) post₂) :
    Yields inv r (x >>= f) post₂ := by
  intro s hs
  obtain ⟨r₁, hr₁, hs₁, ha⟩ := hx s hs
  rw [Runs.run_bind]
  rcases hrun : Runs.run x s with ⟨_ | a, s₁⟩
  · rw [hrun] at hs₁
    exact ⟨r₁, hr₁, hs₁, fun b hb => by cases hb⟩
  · rw [hrun] at hs₁ ha
    obtain ⟨r₂, hr₂, hs₂, hb⟩ := hf r₁ a hr₁ (ha a rfl) s₁ hs₁
    exact ⟨r₂, Registry.le_trans hr₁ hr₂, hs₂, hb⟩

theorem imp (hx : Yields inv r x post₁) (h : ∀ r' a, r ≤ r' → post₁ r' a → post r' a) :
    Yields inv r x post := by
  intro s hs
  obtain ⟨r', hr, hs', ha⟩ := hx s hs
  exact ⟨r', hr, hs', fun a hrun => h r' a hr (ha a hrun)⟩

/-- What is done for each member of a list holds of all the results, if it goes on to hold while the
registry grows. -/
theorem mapM [LawfulMonad m] {Q : α → Registry → β → Prop} {xs : List α}
    (mono : ∀ x ∈ xs, ∀ r' r'' b, r' ≤ r'' → Q x r' b → Q x r'' b)
    (h : ∀ x ∈ xs, ∀ r', r ≤ r' → Yields inv r' (f x) (Q x)) :
    Yields inv r (xs.mapM f) fun r' bs => List.Forall₂ (fun x b => Q x r' b) xs bs := by
  induction xs generalizing r with
  | nil => exact .pure .nil
  | cons x xs ih =>
    rw [List.mapM_cons]
    refine .bind (h x (by simp) r r.le_refl) fun r₁ b hr₁ hb => ?_
    have hxs : ∀ y ∈ xs, ∀ r', r₁ ≤ r' → Yields inv r' (f y) (Q y) :=
      fun y hy r' hr' => h y (by simp [hy]) r' (Registry.le_trans hr₁ hr')
    refine .bind (ih (fun y hy => mono y (by simp [hy])) hxs) fun r₂ bs hr₂ hbs => ?_
    exact .pure (.cons (mono x (by simp) r₁ r₂ b hr₂ hb) hbs)

/-- What holds of each result at all times holds of all of them. -/
theorem mapM_forall [LawfulMonad m] {Q : β → Prop} {xs : List α}
    (h : ∀ x ∈ xs, ∀ r', Yields inv r' (f x) fun _ b => Q b) :
    Yields inv r (xs.mapM f) fun _ bs => ∀ b ∈ bs, Q b := by
  refine .imp (.mapM (Q := fun _ _ b => Q b) (fun _ _ _ _ _ _ hb => hb)
    fun x hx r' _ => h x hx r') fun r' bs _ hbs => ?_
  clear h
  induction hbs with
  | nil => simp
  | cons hb _ ih => exact List.forall_mem_cons.2 ⟨hb, ih⟩

/-- To look at the state takes no label. -/
theorem get : Yields inv r (get : StateM σ σ) fun r' s => r' = r ∧ inv r s :=
  fun s hs => ⟨r, r.le_refl, hs, fun s' hs' => by cases hs'; exact ⟨rfl, hs⟩⟩

theorem modify {f : σ → σ} (h : ∀ s, inv r s → inv r (f s)) :
    Yields inv r (modify f : StateM σ Unit) fun _ _ => True :=
  fun s hs => ⟨r, r.le_refl, h s hs, fun _ _ => trivial⟩

end Yields

end ArithLearn
