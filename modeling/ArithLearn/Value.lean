/-
The integers that programs compute with: those of 64 bits, two's complement.

A `Value` is a plain integer together with the fact that it lies in the range, so its arithmetic
is the arithmetic of the integers followed by one question, whether the result still fits.
`ofInt?` asks that question, and every operation below is stated through it.
-/

namespace ArithLearn

/-- An integer from `-2^63` up to and not including `2^63`. -/
structure Value where
  toInt : Int
  lower : -9223372036854775808 ≤ toInt := by decide
  upper : toInt < 9223372036854775808 := by decide
deriving DecidableEq

namespace Value

@[ext] theorem ext {a b : Value} (h : a.toInt = b.toInt) : a = b := by
  cases a; cases b; cases h; rfl

instance : ToString Value := ⟨fun a => toString a.toInt⟩

/-- Zero. -/
def zero : Value := { toInt := 0 }

instance : Inhabited Value := ⟨zero⟩

/-- The value of an integer, if it is in range. -/
def ofInt? (n : Int) : Option Value :=
  if h : -9223372036854775808 ≤ n ∧ n < 9223372036854775808 then some ⟨n, h.1, h.2⟩ else none

theorem ofInt?_eq_some {n : Int} {a : Value} : ofInt? n = some a ↔ n = a.toInt := by
  unfold ofInt?
  constructor
  · intro h
    split at h
    · cases h; rfl
    · cases h
  · rintro rfl
    rw [dif_pos ⟨a.lower, a.upper⟩]

@[simp] theorem ofInt?_toInt (a : Value) : ofInt? a.toInt = some a := ofInt?_eq_some.2 rfl

theorem ofInt?_eq_none {n : Int} :
    ofInt? n = none ↔ n < -9223372036854775808 ∨ 9223372036854775808 ≤ n := by
  unfold ofInt?
  split <;> simp <;> omega

/-- The nearest value to a natural number: itself, or the largest value there is. -/
def ofNat (n : Nat) : Value :=
  ⟨min n 9223372036854775807, by omega, by omega⟩

theorem toInt_ofNat {n : Nat} (h : n < 9223372036854775808) : (ofNat n).toInt = n := by
  simp only [ofNat]; omega

/-- The value that the last 64 bits of a natural number stand for: the number itself below `2^63`,
and less than zero where the highest of them is set. -/
def ofBits (n : Nat) : Value where
  toInt := (n + 9223372036854775808) % 18446744073709551616 - 9223372036854775808
  lower := by omega
  upper := by omega

theorem toInt_ofBits {n : Nat} (h : n < 9223372036854775808) : (ofBits n).toInt = n := by
  simp only [ofBits]; omega

/-! ### Arithmetic -/

/-- The sum, if it is in range. -/
def add? (a b : Value) : Option Value := ofInt? (a.toInt + b.toInt)

/-- The difference, if it is in range. -/
def sub? (a b : Value) : Option Value := ofInt? (a.toInt - b.toInt)

/-- The product, if it is in range. -/
def mul? (a b : Value) : Option Value := ofInt? (a.toInt * b.toInt)

/-- The quotient cut off toward zero, if there is one and it is in range. The one quotient out of
range is that of the least value by minus one. -/
def div? (a b : Value) : Option Value :=
  if b.toInt = 0 then none else ofInt? (a.toInt.tdiv b.toInt)

/-- The quotient where the division leaves no remainder. -/
def exactDiv? (a b : Value) : Option Value :=
  if a.toInt.tmod b.toInt = 0 then div? a b else none

/-! ### Order -/

instance : Ord Value := ⟨fun a b => compare a.toInt b.toInt⟩

instance : Std.TransOrd Value where
  eq_swap {a b} := @Std.OrientedCmp.eq_swap Int compare _ a.toInt b.toInt
  isLE_trans {a b c} := @Std.TransCmp.isLE_trans Int compare _ a.toInt b.toInt c.toInt

instance : Std.LawfulEqOrd Value where
  compare_self {a} := @Std.ReflCmp.compare_self Int compare _ a.toInt
  eq_of_compare h := ext (@Std.LawfulEqCmp.eq_of_compare Int compare _ _ _ h)

end Value

end ArithLearn
