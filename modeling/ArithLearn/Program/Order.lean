/-
The order of programs: the input first, then the literals by value, then the applications by
operator and, for one operator, by their arguments from left to right, where a shorter list
comes before the lists it begins. It is a linear order, so equality of programs is decided by
it.
-/
import ArithLearn.Program.Basic

namespace ArithLearn

namespace Op

/-- The place of an operator in the list of all operators. -/
def place : Op → Nat
  | .sum => 0
  | .mul => 1
  | .div => 2
  | .elementAt => 3

instance : Ord Op := ⟨fun f g => compare f.place g.place⟩

instance : Std.TransOrd Op where
  eq_swap {f g} := @Std.OrientedCmp.eq_swap Nat compare _ f.place g.place
  isLE_trans {f g h} := @Std.TransCmp.isLE_trans Nat compare _ f.place g.place h.place

instance : Std.LawfulEqOrd Op where
  compare_self {f} := @Std.ReflCmp.compare_self Nat compare _ f.place
  eq_of_compare {f g} h := by
    have h : f.place = g.place := @Std.LawfulEqCmp.eq_of_compare Nat compare _ _ _ h
    cases f <;> cases g <;> simp_all [place]

end Op

namespace Program

mutual

protected def compare : Program → Program → Ordering
  | .input, .input => .eq
  | .input, _ => .lt
  | .lit _, .input => .gt
  | .lit m, .lit n => Ord.compare m n
  | .lit _, .app _ _ => .lt
  | .app f as, .app g bs => (Ord.compare f g).then (Program.compareAll as bs)
  | .app _ _, _ => .gt

protected def compareAll : List Program → List Program → Ordering
  | [], [] => .eq
  | [], _ :: _ => .lt
  | _ :: _, [] => .gt
  | a :: as, b :: bs => (Program.compare a b).then (Program.compareAll as bs)

end

instance : Ord Program := ⟨Program.compare⟩

theorem compare_self (p : Program) : p.compare p = .eq := by
  induction p using Program.induction with
  | input => simp [Program.compare]
  | lit n => simp [Program.compare]
  | app op args ih =>
    have : ∀ as : List Program, (∀ a ∈ as, a.compare a = .eq) → Program.compareAll as as = .eq := by
      intro as h
      induction as with
      | nil => simp [Program.compareAll]
      | cons a as iha => simp_all [Program.compareAll]
    simp [Program.compare, this args ih]

theorem eq_of_compare {p q : Program} (h : p.compare q = .eq) : p = q := by
  induction p using Program.induction generalizing q with
  | input => cases q <;> simp_all [Program.compare]
  | lit n => cases q <;> simp_all [Program.compare]
  | app op args ih =>
    cases q with
    | input => simp [Program.compare] at h
    | lit n => simp [Program.compare] at h
    | app op' bs =>
      have key : ∀ as bs : List Program, (∀ a ∈ as, ∀ {b}, a.compare b = .eq → a = b) →
          Program.compareAll as bs = .eq → as = bs := by
        intro as
        induction as with
        | nil => intro bs; cases bs <;> simp [Program.compareAll]
        | cons a as iha =>
          intro bs ha h
          cases bs with
          | nil => simp [Program.compareAll] at h
          | cons b bs =>
            simp only [Program.compareAll, Ordering.then_eq_eq] at h
            rw [ha a (by simp) h.1, iha bs (fun a' h' => ha a' (by simp [h'])) h.2]
      simp only [Program.compare, Ordering.then_eq_eq] at h
      rw [Std.LawfulEqCmp.eq_of_compare h.1, key args bs (fun a ha => ih a ha) h.2]

theorem compare_swap (p q : Program) : p.compare q = (q.compare p).swap := by
  induction p using Program.induction generalizing q with
  | input => cases q <;> simp [Program.compare]
  | lit n =>
    cases q <;> simp [Program.compare]
    exact Std.OrientedCmp.eq_swap
  | app op args ih =>
    cases q with
    | input => simp [Program.compare]
    | lit n => simp [Program.compare]
    | app op' bs =>
      have key : ∀ as bs : List Program, (∀ a ∈ as, ∀ b, a.compare b = (b.compare a).swap) →
          Program.compareAll as bs = (Program.compareAll bs as).swap := by
        intro as
        induction as with
        | nil => intro bs; cases bs <;> simp [Program.compareAll]
        | cons a as iha =>
          intro bs ha
          cases bs with
          | nil => simp [Program.compareAll]
          | cons b bs =>
            simp only [Program.compareAll, Ordering.swap_then]
            rw [ha a (by simp), iha bs fun a' h' => ha a' (by simp [h'])]
      simp only [Program.compare, Ordering.swap_then]
      rw [@Std.OrientedCmp.eq_swap Op compare _ op op', key args bs ih]

theorem then_lt_trans {a b c d e f : Ordering} (lt : a = .lt → c = .lt → e = .lt)
    (eq_lt : a = .eq → e = c) (lt_eq : c = .eq → e = a)
    (rest : b = .lt → d = .lt → f = .lt) (h : a.then b = .lt) (h' : c.then d = .lt) :
    e.then f = .lt := by
  cases a <;> cases c <;> simp_all [Ordering.then]

theorem compare_lt_trans {p q r : Program} (h : p.compare q = .lt) (h' : q.compare r = .lt) :
    p.compare r = .lt := by
  induction p using Program.induction generalizing q r with
  | input => cases q <;> cases r <;> simp_all [Program.compare]
  | lit n =>
    cases q <;> cases r <;> simp_all [Program.compare]
    exact Std.TransCmp.lt_trans h h'
  | app op args ih =>
    cases q with
    | input => simp [Program.compare] at h
    | lit n => simp [Program.compare] at h
    | app op' bs =>
      cases r with
      | input => simp [Program.compare] at h'
      | lit n => simp [Program.compare] at h'
      | app op'' cs =>
        have key : ∀ as bs cs : List Program,
            (∀ a ∈ as, ∀ {b c : Program}, a.compare b = .lt → b.compare c = .lt →
              a.compare c = .lt) → Program.compareAll as bs = .lt → Program.compareAll bs cs = .lt →
            Program.compareAll as cs = .lt := by
          intro as
          induction as with
          | nil => intro bs cs; cases bs <;> cases cs <;> simp [Program.compareAll]
          | cons a as iha =>
            intro bs cs ha h h'
            cases bs with
            | nil => simp [Program.compareAll] at h
            | cons b bs =>
              cases cs with
              | nil => simp [Program.compareAll] at h'
              | cons c cs =>
                simp only [Program.compareAll] at h h' ⊢
                refine then_lt_trans (ha a (by simp)) (fun e => ?_) (fun e => ?_)
                  (iha bs cs fun a' h' => ha a' (by simp [h'])) h h'
                · rw [eq_of_compare e]
                · rw [eq_of_compare e]
        simp only [Program.compare] at h h' ⊢
        refine then_lt_trans Std.TransCmp.lt_trans (fun e => ?_) (fun e => ?_)
          (key args bs cs ih) h h'
        · rw [Std.LawfulEqCmp.eq_of_compare e]
        · rw [Std.LawfulEqCmp.eq_of_compare e]

instance : Std.TransOrd Program where
  eq_swap {p q} := compare_swap p q
  isLE_trans {p q r} h h' := by
    rcases Ordering.isLE_iff_eq_lt_or_eq_eq.1 h with h | h
    · rcases Ordering.isLE_iff_eq_lt_or_eq_eq.1 h' with h' | h'
      · exact Ordering.isLE_of_eq_lt (compare_lt_trans h h')
      · exact eq_of_compare h' ▸ Ordering.isLE_of_eq_lt h
    · exact (eq_of_compare h).symm ▸ h'

instance : Std.LawfulEqOrd Program where
  compare_self {p} := compare_self p
  eq_of_compare := eq_of_compare

instance : DecidableEq Program := fun p q =>
  decidable_of_iff (compare p q = .eq) Std.LawfulEqCmp.compare_eq_iff_eq

end Program

end ArithLearn
