/-
A program can be read off the way it is written.

The text of a program says where it ends: what follows it, as an argument,
is a comma or a closing parenthesis, and these do not occur in a literal
nor in the name of an operator. What it begins with says which kind of
program it is (`exists_initial`). So what is written behind a program can
be cut off in one way only (`delimited`), and programs that are written
alike are one, for any operator over any arguments (`text_inj`).
-/
import ArithLearn.Program.Text
import Std.Data.String.ToInt

namespace ArithLearn

namespace Program

/-! ### Literals -/

/-- The characters of numerals. -/
def isNumeral (c : Char) : Bool := c.isDigit || c == '-'

/-- A literal is written with the digits of a natural number, and a sign if it is negative. -/
theorem chars_lit (n : Value) : ∃ m : Nat,
    (lit n).chars = Nat.toDigits 10 m ∨ (lit n).chars = '-' :: Nat.toDigits 10 m := by
  have hrepr : (lit n).chars = n.toInt.repr.toList := rfl
  rw [hrepr, Int.repr_eq_if]
  split
  · exact ⟨_, .inl Nat.toList_repr⟩
  · refine ⟨(-n.toInt).toNat, .inr ?_⟩
    rw [String.toList_append, Nat.toList_repr]
    rfl

theorem chars_lit_ne_nil (n : Value) : (lit n).chars ≠ [] := by
  obtain ⟨m, h | h⟩ := chars_lit n
  · rw [h]
    exact Nat.toDigits_ne_nil
  · rw [h]
    exact List.cons_ne_nil _ _

theorem isNumeral_of_mem_chars_lit {n : Value} {c : Char} (hc : c ∈ (lit n).chars) :
    isNumeral c := by
  have hdigit : ∀ m, c ∈ Nat.toDigits 10 m → isNumeral c := by
    intro m hm
    have := Nat.isDigit_of_mem_toDigits (by decide) (by decide) hm
    simp [isNumeral, this]
  obtain ⟨m, h | h⟩ := chars_lit n
  · exact hdigit m (h ▸ hc)
  · rw [h] at hc
    rcases List.mem_cons.1 hc with rfl | hc
    · decide
    · exact hdigit m hc

theorem lit_inj_of_chars {m n : Value} (h : (lit m).chars = (lit n).chars) : m = n := by
  have hrepr : m.toInt.repr = n.toInt.repr := String.toList_injective h
  exact Value.ext (Int.repr_inj.1 hrepr)

/-- Numerals are cut off from what goes on without one in one way only. -/
theorem append_inj_of_isNumeral {as bs xs ys : List Char} (ha : ∀ c ∈ as, isNumeral c)
    (hb : ∀ c ∈ bs, isNumeral c) (hx : ∀ c ∈ xs.head?, ¬ isNumeral c)
    (hy : ∀ c ∈ ys.head?, ¬ isNumeral c) (h : as ++ xs = bs ++ ys) : as = bs ∧ xs = ys := by
  have front : ∀ {cs zs : List Char}, (∀ c ∈ cs, isNumeral c) → (∀ c ∈ zs.head?, ¬ isNumeral c) →
      (cs ++ zs).takeWhile isNumeral = cs := by
    intro cs zs hc hz
    rw [List.takeWhile_append_of_pos hc]
    cases zs with
    | nil => simp
    | cons z zs => simp [hz z rfl]
  have heq : as = bs := by rw [← front ha hx, h, front hb hy]
  subst heq
  exact ⟨rfl, List.append_cancel_left h⟩

/-! ### Beginnings -/

/-- What the text of a program of this kind may begin with. -/
def Initial : Program → Char → Prop
  | input, c => c = 'v'
  | lit _, c => isNumeral c
  | app _ _, c => c ∈ ['S', 'M', 'D', 'E']

theorem exists_chars_eq_cons (p : Program) : ∃ c cs, p.chars = c :: cs ∧ p.Initial c := by
  cases p with
  | input => exact ⟨'v', [], rfl, rfl⟩
  | lit n =>
    obtain ⟨c, cs, hcs⟩ := List.exists_cons_of_ne_nil (chars_lit_ne_nil n)
    exact ⟨c, cs, hcs, isNumeral_of_mem_chars_lit (hcs ▸ List.mem_cons_self)⟩
  | app op args =>
    have hname : ∃ c cs, op.name.toList = c :: cs ∧ c ∈ ['S', 'M', 'D', 'E'] := by
      cases op <;> exact ⟨_, _, rfl, by decide⟩
    obtain ⟨c, cs, hcs, hc⟩ := hname
    exact ⟨c, _, by rw [chars, hcs, List.cons_append], hc⟩

/-- Two inputs, two literals or two applications. -/
def SameKind : Program → Program → Prop
  | input, input | lit _, lit _ | app _ _, app _ _ => True
  | _, _ => False

theorem Initial.sameKind {p q : Program} {c : Char} (hp : p.Initial c) (hq : q.Initial c) :
    SameKind p q := by
  have hinput : ¬ isNumeral 'v' := by decide
  have hname : ∀ c ∈ ['S', 'M', 'D', 'E'], ¬ isNumeral c ∧ c ≠ 'v' := by
    simp [isNumeral]
  match p, q with
  | input, input | lit _, lit _ | app _ _, app _ _ => trivial
  | input, lit _ => exact hinput (hp ▸ hq)
  | lit _, input => exact hinput (hq ▸ hp)
  | input, app _ _ => exact (hname c hq).2 hp
  | app _ _, input => exact (hname c hp).2 hq
  | lit _, app _ _ => exact (hname c hq).1 hp
  | app _ _, lit _ => exact (hname c hp).1 hq

/-- What begins a program does not end the arguments before it. -/
theorem Initial.ne_paren {p : Program} {c : Char} (h : p.Initial c) : c ≠ ')' := by
  rintro rfl
  match p with
  | input | lit _ | app _ _ => revert h; simp [Initial, isNumeral]

/-- Texts that go on alike are of programs of one kind. -/
theorem sameKind_of_chars {p q : Program} {xs ys : List Char}
    (h : p.chars ++ xs = q.chars ++ ys) : SameKind p q := by
  obtain ⟨c, cs, hp, hc⟩ := p.exists_chars_eq_cons
  obtain ⟨d, ds, hq, hd⟩ := q.exists_chars_eq_cons
  rw [hp, hq, List.cons_append, List.cons_append] at h
  obtain rfl := (List.cons.inj h).1
  exact hc.sameKind hd

/-! ### Endings -/

/-- What can stand behind a program: nothing, or first a comma or a closing parenthesis. -/
def Closes (xs : List Char) : Prop := ∀ c ∈ xs.head?, c = ',' ∨ c = ')'

/-- The program can be told from any other whatever is written behind. -/
def Delimited (p : Program) : Prop :=
  ∀ {q xs ys}, Closes xs → Closes ys → p.chars ++ xs = q.chars ++ ys → p = q ∧ xs = ys

theorem Closes.not_isNumeral {xs : List Char} (h : Closes xs) : ∀ c ∈ xs.head?, ¬ isNumeral c := by
  intro c hc
  rcases h c hc with rfl | rfl <;> decide

theorem closes_restChars (ps : List Program) (xs : List Char) : Closes (restChars ps ++ xs) := by
  cases ps <;> simp [Closes, restChars]

theorem delimited_input : Delimited .input := by
  intro q xs ys _ _ h
  cases q with
  | input => exact ⟨rfl, (List.cons.inj h).2⟩
  | lit _ | app _ _ => exact (sameKind_of_chars h).elim

theorem delimited_lit (n : Value) : Delimited (.lit n) := by
  intro q xs ys hx hy h
  cases q with
  | lit m =>
    obtain ⟨hchars, hrest⟩ := append_inj_of_isNumeral (fun _ => isNumeral_of_mem_chars_lit)
      (fun _ => isNumeral_of_mem_chars_lit) hx.not_isNumeral hy.not_isNumeral h
    rw [lit_inj_of_chars hchars]
    exact ⟨rfl, hrest⟩
  | input | app _ _ => exact (sameKind_of_chars h).elim

/-- Arguments behind a comma each are read one by one up to the parenthesis. -/
theorem restChars_append_inj {ps qs : List Program} (hps : ∀ p ∈ ps, Delimited p)
    {xs ys : List Char} (h : restChars ps ++ xs = restChars qs ++ ys) : ps = qs ∧ xs = ys := by
  induction ps generalizing qs with
  | nil =>
    cases qs with
    | nil => exact ⟨rfl, (List.cons.inj h).2⟩
    | cons q qs => simp [restChars] at h
  | cons p ps ih =>
    cases qs with
    | nil => simp [restChars] at h
    | cons q qs =>
      simp only [restChars, List.cons_append, List.append_assoc, List.cons.injEq, true_and] at h
      obtain ⟨rfl, hrest⟩ :=
        hps p (by simp) (closes_restChars ps xs) (closes_restChars qs ys) h
      obtain ⟨rfl, hxs⟩ := ih (fun r hr => hps r (by simp [hr])) hrest
      exact ⟨rfl, hxs⟩

/-- No argument is written as nothing. -/
theorem argChars_cons_ne {p : Program} {ps : List Program} {xs ys : List Char} :
    argChars (p :: ps) ++ xs ≠ argChars [] ++ ys := by
  obtain ⟨c, cs, hp, hc⟩ := p.exists_chars_eq_cons
  simp [argChars, hp, hc.ne_paren]

theorem argChars_append_inj {ps qs : List Program} (hps : ∀ p ∈ ps, Delimited p)
    {xs ys : List Char} (h : argChars ps ++ xs = argChars qs ++ ys) : ps = qs ∧ xs = ys := by
  match ps, qs with
  | [], [] => exact ⟨rfl, (List.cons.inj h).2⟩
  | [], _ :: _ => exact absurd h.symm argChars_cons_ne
  | _ :: _, [] => exact absurd h argChars_cons_ne
  | p :: ps, q :: qs =>
    simp only [argChars, List.append_assoc] at h
    obtain ⟨rfl, hrest⟩ := hps p (by simp) (closes_restChars ps xs) (closes_restChars qs ys) h
    obtain ⟨rfl, hxs⟩ := restChars_append_inj (fun r hr => hps r (by simp [hr])) hrest
    exact ⟨rfl, hxs⟩

/-- An operator is told by its name. -/
theorem name_append_inj {op op' : Op} {xs ys : List Char}
    (h : op.name.toList ++ '(' :: xs = op'.name.toList ++ '(' :: ys) : op = op' ∧ xs = ys := by
  have hop : op = op' := by
    cases op <;> cases op' <;> simp_all [Op.name]
  subst hop
  exact ⟨rfl, (List.cons.inj (List.append_cancel_left h)).2⟩

/-- **What is written behind a program can be cut off in one way only.** -/
theorem delimited (p : Program) : Delimited p := by
  induction p using Program.induction with
  | input => exact delimited_input
  | lit n => exact delimited_lit n
  | app op args ih =>
    intro q xs ys _ _ h
    cases q with
    | app op' args' =>
      simp only [chars, List.append_assoc, List.cons_append] at h
      obtain ⟨rfl, hargs⟩ := name_append_inj h
      obtain ⟨rfl, hrest⟩ := argChars_append_inj ih hargs
      exact ⟨rfl, hrest⟩
    | input | lit _ => exact (sameKind_of_chars h).elim

/-- **Programs that are written alike are one program**, also where an operator stands over
arguments it cannot be evaluated on. -/
theorem text_inj {p q : Program} : p.text = q.text ↔ p = q := by
  refine ⟨fun h => ?_, congrArg text⟩
  have hchars : p.chars ++ [] = q.chars ++ [] := congrArg (· ++ []) (String.ofList_injective h)
  exact (p.delimited (by simp [Closes]) (by simp [Closes]) hchars).1

/-- Without arguments there is nothing between the parentheses. -/
example : (sum (.app .mul []) (.lit ⟨-4, by decide, by decide⟩)).text = "Sum(v, Mul(), -4)" := by
  decide +kernel

end Program

end ArithLearn
