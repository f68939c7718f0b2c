/-
Finite sets kept as strictly ascending lists.

The order of a set is the order its members are listed in wherever they are shown or walked, and
it is part of the type: a set has no second way of writing it down.
-/

namespace ArithLearn

/-- A set of `α`, as the list of its members from least to greatest. -/
structure SortedSet (α : Type) [Ord α] where
  toList : List α
  ascending : toList.Pairwise fun a b => compare a b = .lt

namespace SortedSet

variable {α β : Type} [Ord α] [Ord β]

instance : Membership α (SortedSet α) := ⟨fun s a => a ∈ s.toList⟩

theorem mem_def {s : SortedSet α} {a : α} : a ∈ s ↔ a ∈ s.toList := Iff.rfl

theorem eq_of_toList {s t : SortedSet α} (h : s.toList = t.toList) : s = t := by
  cases s; cases t; cases h; rfl

instance [DecidableEq α] : DecidableEq (SortedSet α) := fun s t =>
  decidable_of_iff (s.toList = t.toList) ⟨eq_of_toList, congrArg toList⟩

/-- The set without members. -/
def empty : SortedSet α := ⟨[], .nil⟩

instance : Inhabited (SortedSet α) := ⟨empty⟩

/-- The set of one member. -/
def singleton (a : α) : SortedSet α := ⟨[a], List.pairwise_singleton _ _⟩

/-- Whether there are no members. -/
def isEmpty (s : SortedSet α) : Bool := s.toList.isEmpty

/-- How many members there are. -/
def size (s : SortedSet α) : Nat := s.toList.length

/-- The members that pass a test. -/
def filter (p : α → Bool) (s : SortedSet α) : SortedSet α :=
  ⟨s.toList.filter p, s.ascending.filter p⟩

/-- Whether `a` is a member. -/
def contains [DecidableEq α] (s : SortedSet α) (a : α) : Bool := s.toList.contains a

/-- The members of both sets. -/
def inter [DecidableEq α] (s t : SortedSet α) : SortedSet α := s.filter t.contains

@[simp] theorem not_mem_empty {a : α} : a ∉ (empty : SortedSet α) := List.not_mem_nil

@[simp] theorem mem_singleton {a b : α} : a ∈ singleton b ↔ a = b := List.mem_singleton

@[simp] theorem mem_filter {p : α → Bool} {s : SortedSet α} {a : α} :
    a ∈ s.filter p ↔ a ∈ s ∧ p a := List.mem_filter

@[simp] theorem contains_iff [DecidableEq α] {s : SortedSet α} {a : α} :
    s.contains a ↔ a ∈ s := by simp [contains, mem_def]

@[simp] theorem mem_inter [DecidableEq α] {s t : SortedSet α} {a : α} :
    a ∈ s.inter t ↔ a ∈ s ∧ a ∈ t := by simp [inter]

theorem isEmpty_iff {s : SortedSet α} : s.isEmpty ↔ ∀ a, a ∉ s := by
  simp [isEmpty, mem_def, List.eq_nil_iff_forall_not_mem]

/-- A set lists no member twice. -/
theorem nodup [Std.LawfulEqOrd α] (s : SortedSet α) : s.toList.Nodup := by
  refine s.ascending.imp fun {a b} h hab => ?_
  subst hab
  simp at h

/-- A set is given by its members. -/
theorem eq_of_mem_iff [Std.TransOrd α] [Std.LawfulEqOrd α] {s t : SortedSet α}
    (h : ∀ a, a ∈ s ↔ a ∈ t) : s = t := by
  refine eq_of_toList (List.Perm.eq_of_pairwise (fun a b _ _ hab hba => ?_) s.ascending t.ascending
    ((List.perm_ext_iff_of_nodup s.nodup t.nodup).2 h))
  exact absurd hab (Std.OrientedCmp.not_lt_of_lt hba)

/-! ### Adding members -/

/-- The ascending list with `a` put in its place, unless it stands there already. -/
def place (a : α) : List α → List α
  | [] => [a]
  | b :: bs =>
    match compare a b with
    | .lt => a :: b :: bs
    | .eq => b :: bs
    | .gt => b :: place a bs

theorem eq_or_mem_of_mem_place {a x : α} {bs : List α} (h : x ∈ place a bs) : x = a ∨ x ∈ bs := by
  induction bs with
  | nil => simpa [place] using h
  | cons b bs ih =>
    unfold place at h
    split at h
    · simpa using h
    · exact .inr h
    · rcases List.mem_cons.1 h with rfl | h
      · simp
      · rcases ih h with rfl | h <;> simp [*]

theorem pairwise_place [Std.TransOrd α] (a : α) {bs : List α}
    (h : bs.Pairwise fun a b => compare a b = .lt) :
    (place a bs).Pairwise fun a b => compare a b = .lt := by
  induction bs with
  | nil => simp [place]
  | cons b bs ih =>
    have hb := List.pairwise_cons.1 h
    unfold place
    split
    · next hab =>
      refine List.pairwise_cons.2 ⟨fun x hx => ?_, h⟩
      rcases List.mem_cons.1 hx with rfl | hx
      · exact hab
      · exact Std.TransCmp.lt_trans hab (hb.1 x hx)
    · exact h
    · next hab =>
      refine List.pairwise_cons.2 ⟨fun x hx => ?_, ih hb.2⟩
      rcases eq_or_mem_of_mem_place hx with rfl | hx
      · exact Std.OrientedCmp.lt_of_gt hab
      · exact hb.1 x hx

theorem mem_place [Std.LawfulEqOrd α] {a x : α} {bs : List α} :
    x ∈ place a bs ↔ x = a ∨ x ∈ bs := by
  refine ⟨eq_or_mem_of_mem_place, ?_⟩
  induction bs with
  | nil => simp [place]
  | cons b bs ih =>
    unfold place
    split
    · simp
    · next hab =>
      rintro (rfl | h)
      · exact Std.LawfulEqCmp.eq_of_compare hab ▸ List.mem_cons_self
      · exact h
    · rintro (rfl | h)
      · exact List.mem_cons_of_mem _ (ih (.inl rfl))
      · rcases List.mem_cons.1 h with rfl | h
        · simp
        · exact List.mem_cons_of_mem _ (ih (.inr h))

/-- The set with one more member. -/
def insert [Std.TransOrd α] (s : SortedSet α) (a : α) : SortedSet α :=
  ⟨place a s.toList, pairwise_place a s.ascending⟩

/-- The set of what stands in a list, in whatever order and however often. -/
def ofList [Std.TransOrd α] : List α → SortedSet α
  | [] => empty
  | a :: as => (ofList as).insert a

/-- The set of the results of a function on the members. -/
def image [Std.TransOrd β] (f : α → β) (s : SortedSet α) : SortedSet β := ofList (s.toList.map f)

@[simp] theorem mem_insert [Std.TransOrd α] [Std.LawfulEqOrd α] {s : SortedSet α} {a b : α} :
    a ∈ s.insert b ↔ a = b ∨ a ∈ s := mem_place

@[simp] theorem mem_ofList [Std.TransOrd α] [Std.LawfulEqOrd α] {a : α} {as : List α} :
    a ∈ ofList as ↔ a ∈ as := by
  induction as with
  | nil => simp [ofList]
  | cons b as ih => simp [ofList, ih]

@[simp] theorem mem_image [Std.TransOrd β] [Std.LawfulEqOrd β] {f : α → β} {s : SortedSet α}
    {b : β} : b ∈ s.image f ↔ ∃ a ∈ s, f a = b := by
  simp only [image, mem_ofList, List.mem_map]
  rfl

end SortedSet

end ArithLearn
