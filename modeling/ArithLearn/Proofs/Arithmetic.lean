/-
Checked arithmetic as arithmetic of the integers: an operation on values
has the result `c` exactly when the integers it stands for have.

`compute_binary`: so for an operator of two operands, the values it can have
are described by one relation, `Op.Gives`. `Op.Exactly` is the same with
nothing left over by a division, which is what the witnesses look for.
-/
import ArithLearn.Program.Eval

namespace ArithLearn

namespace Value

theorem toInt_inj {a b : Value} : a.toInt = b.toInt ↔ a = b := ⟨ext, fun h => h ▸ rfl⟩

@[simp] theorem toInt_zero : zero.toInt = 0 := rfl

theorem eq_zero_iff {a : Value} : a = zero ↔ a.toInt = 0 := by
  rw [← toInt_inj, toInt_zero]

theorem add?_eq_some {a b c : Value} : a.add? b = some c ↔ a.toInt + b.toInt = c.toInt :=
  ofInt?_eq_some

theorem sub?_eq_some {a b c : Value} : a.sub? b = some c ↔ a.toInt - b.toInt = c.toInt :=
  ofInt?_eq_some

theorem mul?_eq_some {a b c : Value} : a.mul? b = some c ↔ a.toInt * b.toInt = c.toInt :=
  ofInt?_eq_some

theorem div?_eq_some {a b c : Value} :
    a.div? b = some c ↔ b.toInt ≠ 0 ∧ a.toInt.tdiv b.toInt = c.toInt := by
  unfold div?
  by_cases hb : b.toInt = 0
  · simp [hb]
  · rw [if_neg hb, ofInt?_eq_some]
    exact ⟨fun h => ⟨hb, h⟩, fun h => h.2⟩

theorem add?_comm (a b : Value) : a.add? b = b.add? a := by
  rw [add?, add?, Int.add_comm]

theorem mul?_comm (a b : Value) : a.mul? b = b.mul? a := by
  rw [mul?, mul?, Int.mul_comm]

/-- A quotient without remainder is the other factor. -/
theorem exactDiv?_eq_some {a b c : Value} :
    a.exactDiv? b = some c ↔ b.toInt ≠ 0 ∧ a.toInt = b.toInt * c.toInt := by
  unfold exactDiv?
  constructor
  · intro h
    split at h
    · rename_i hr
      obtain ⟨hb, hq⟩ := div?_eq_some.1 h
      refine ⟨hb, ?_⟩
      rw [← hq, Int.mul_tdiv_cancel' (Int.dvd_of_tmod_eq_zero hr)]
    · cases h
  · intro h
    obtain ⟨hb, ha⟩ := h
    have hr : a.toInt.tmod b.toInt = 0 := by rw [ha, Int.mul_tmod_right]
    have hq : a.toInt.tdiv b.toInt = c.toInt := by rw [ha, Int.mul_tdiv_cancel_left _ hb]
    rw [if_pos hr]
    exact div?_eq_some.2 ⟨hb, hq⟩

end Value

namespace Op

/-- The operators with two operands. -/
inductive IsBinary : Op → Prop
  | sum : IsBinary .sum
  | mul : IsBinary .mul
  | div : IsBinary .div

/-- The integer `c` is the result of the operator on `a` and `b`. -/
def Gives : Op → Int → Int → Int → Prop
  | .sum, a, b, c => a + b = c
  | .mul, a, b, c => a * b = c
  | .div, a, b, c => b ≠ 0 ∧ a.tdiv b = c
  | .elementAt, _, _, _ => False

/-- The same, where a division leaves no remainder. -/
def Exactly : Op → Int → Int → Int → Prop
  | .div, a, b, c => b ≠ 0 ∧ a = b * c
  | op, a, b, c => op.Gives a b c

theorem compute_binary {op : Op} {v : List Value} {a b c : Value} :
    op.compute v [a, b] = .ok c ↔ op.Gives a.toInt b.toInt c.toInt := by
  cases op with
  | sum =>
    rw [Gives, ← Value.add?_eq_some]
    simp only [compute]
    cases a.add? b <;> simp
  | mul =>
    rw [Gives, ← Value.mul?_eq_some]
    simp only [compute]
    cases a.mul? b <;> simp
  | div =>
    rw [Gives, ← Value.div?_eq_some]
    unfold compute
    by_cases hb : b = .zero
    · have hd : a.div? b = none := by rw [hb]; rfl
      simp [hb] at hd ⊢
      simp [hd]
    · simp only [hb, if_false]
      cases a.div? b <;> simp
  | elementAt => simp [compute, Gives]

theorem compute_elementAt {v : List Value} {p c : Value} :
    compute .elementAt v [p] = .ok c ↔ 0 ≤ p.toInt ∧ v[p.toInt.toNat]? = some c := by
  unfold compute
  by_cases hp : p.toInt < 0
  · simp only [hp, if_true]
    constructor
    · intro h; cases h
    · intro h; omega
  · simp only [hp, if_false]
    have hp : 0 ≤ p.toInt := by omega
    cases hv : v[p.toInt.toNat]? <;> simp [hp]

/-- Exactness is divisibility beside the result. -/
theorem exactly_iff {op : Op} {a b c : Int} :
    op.Exactly a b c ↔ op.Gives a b c ∧ (op = .div → b ∣ a) := by
  cases op with
  | sum | mul | elementAt => simp [Exactly]
  | div =>
    simp only [Exactly, Gives, forall_const]
    constructor
    · intro h
      obtain ⟨hb, rfl⟩ := h
      exact ⟨⟨hb, Int.mul_tdiv_cancel_left _ hb⟩, Int.dvd_mul_right b c⟩
    · intro h
      obtain ⟨⟨hb, rfl⟩, hd⟩ := h
      exact ⟨hb, (Int.mul_tdiv_cancel' hd).symm⟩

end Op

end ArithLearn
