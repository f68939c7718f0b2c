/-
One of several states, once more at the end.

To learn from examples of which one stands there twice is to search over
states of which one is repeated. `echo j` repeats the entry at `j` of a
list: of the states, and of all that goes with them state by state, the
accepted values, what a program gives, the keys of clusters. Everything the
search works out state by state is an echo as well (`freeSpec_echo`,
`valuesOn_echo`), what it asks of all states together is not changed
(`isUnsatisfiable_echo`, `common_echo`), and lists that are told apart or
put in order still are, and in the same order (`echo_injective`,
`compare_echo`).
-/
import ArithLearn.Proofs.Spec
import ArithLearn.Proofs.Space.Parts

namespace ArithLearn

variable {α β γ : Type} {j : Nat}

/-- The list, and behind it once more its entry at `j`, if there is one. -/
def echo (j : Nat) (xs : List α) : List α := xs ++ xs[j]?.toList

/-- Each entry of an echo stands in the list, the last one at `j`. -/
theorem getElem?_echo (xs : List α) (s : Nat) :
    (echo j xs)[s]? = xs[if s = xs.length then j else s]? := by
  unfold echo
  rcases Nat.lt_trichotomy s xs.length with hs | rfl | hs
  · rw [if_neg (Nat.ne_of_lt hs), List.getElem?_append_left hs]
  · rw [if_pos rfl, List.getElem?_append_right (Nat.le_refl _), Nat.sub_self]
    cases xs[j]? <;> rfl
  · have hlen : xs[j]?.toList.length ≤ s - xs.length := by
      cases xs[j]? <;> simp; omega
    rw [if_neg (Nat.ne_of_gt hs), List.getElem?_append_right (Nat.le_of_lt hs),
      List.getElem?_eq_none hlen, List.getElem?_eq_none (Nat.le_of_lt hs)]

theorem length_echo (xs : List α) :
    (echo j xs).length = xs.length + if j < xs.length then 1 else 0 := by
  unfold echo
  rw [List.length_append]
  by_cases hj : j < xs.length
  · rw [List.getElem?_eq_getElem hj, if_pos hj]
    rfl
  · rw [List.getElem?_eq_none (Nat.le_of_not_lt hj), if_neg hj]
    rfl

theorem mem_echo {xs : List α} {x : α} : x ∈ echo j xs ↔ x ∈ xs := by
  unfold echo
  rw [List.mem_append, Option.mem_toList]
  exact or_iff_left_of_imp List.mem_of_getElem?

theorem echo_map (f : α → β) (xs : List α) : echo j (xs.map f) = (echo j xs).map f := by
  unfold echo
  rw [List.map_append, List.getElem?_map]
  cases xs[j]? <;> rfl

theorem zipWith_echo (f : α → β → γ) {xs : List α} {ys : List β} (h : xs.length = ys.length) :
    List.zipWith f (echo j xs) (echo j ys) = echo j (List.zipWith f xs ys) := by
  unfold echo
  rw [List.zipWith_append h, List.getElem?_zipWith]
  cases xs[j]? <;> cases ys[j]? <;> rfl

/-- With their places, the entries of an echo are an echo, up to the place of the last one. -/
theorem zipIdx_echo (xs : List α) :
    (echo j xs).zipIdx.map (fun x => (x.1, if x.2 = xs.length then j else x.2)) =
      echo j xs.zipIdx := by
  refine List.ext_getElem? fun s => ?_
  rw [List.getElem?_map, List.getElem?_zipIdx, getElem?_echo, getElem?_echo, List.length_zipIdx,
    List.getElem?_zipIdx]
  cases xs[if s = xs.length then j else s]? <;> simp

/-- Where a map fails nowhere it does not fail on the echo. -/
theorem mapM_echo (f : α → Option β) (xs : List α) :
    (echo j xs).mapM f = (xs.mapM f).map (echo j) := by
  unfold echo
  rw [List.mapM_append]
  cases hxs : xs.mapM f with
  | none => rfl
  | some ys =>
    obtain ⟨hlen, hall⟩ := mapM_eq_some_iff_getElem?.1 hxs
    have hlast : xs[j]?.toList.mapM f = some ys[j]?.toList := by
      cases hx : xs[j]? with
      | none =>
        rw [List.getElem?_eq_none_iff] at hx
        rw [List.getElem?_eq_none (by omega)]
        rfl
      | some x =>
        obtain ⟨hj, _⟩ := List.getElem?_eq_some_iff.1 hx
        have hy := List.getElem?_eq_getElem (l := ys) (i := j) (by omega)
        rw [hy]
        simp [hall j x _ hx hy]
    rw [hlast]
    rfl

theorem echo_injective : Function.Injective (echo j : List α → List α) := by
  intro xs ys h
  have hlen := congrArg List.length h
  rw [length_echo, length_echo] at hlen
  refine (List.append_inj h ?_).1
  split at hlen <;> split at hlen <;> omega

/-! ### Order -/

section Order

variable [Ord α]

theorem compare_append {xs ys : List α} (h : xs.length = ys.length) (xs' ys' : List α) :
    compare (xs ++ xs') (ys ++ ys') = (compare xs ys).then (compare xs' ys') := by
  induction xs generalizing ys with
  | nil =>
    obtain rfl : ys = [] := List.length_eq_zero_iff.1 h.symm
    rfl
  | cons x xs ih =>
    cases ys with
    | nil => simp at h
    | cons y ys =>
      rw [List.cons_append, List.cons_append, List.compare_cons_cons, List.compare_cons_cons,
        ih (by simpa using h), Ordering.then_assoc]

/-- Of two lists of one length, the entry at the end decides nothing. -/
theorem compare_echo [Std.LawfulEqOrd α] {xs ys : List α} (h : xs.length = ys.length) :
    compare (echo j xs) (echo j ys) = compare xs ys := by
  unfold echo
  rw [compare_append h]
  cases hc : compare xs ys with
  | lt => rfl
  | gt => rfl
  | eq =>
    obtain rfl := Std.LawfulEqCmp.eq_of_compare hc
    exact Std.ReflCmp.compare_self

end Order

/-! ### Sets -/

namespace SortedSet

variable [Ord α] [Ord β] {f : α → β}

theorem place_map {a : α} {bs : List α} (h : ∀ b ∈ bs, compare (f a) (f b) = compare a b) :
    place (f a) (bs.map f) = (place a bs).map f := by
  induction bs with
  | nil => rfl
  | cons b bs ih =>
    rw [List.map_cons, place, place, h b (by simp), ih fun c hc => h c (by simp [hc])]
    cases compare a b <;> rfl

/-- A set whose members are replaced in order. -/
theorem toList_ofList_map [Std.TransOrd α] [Std.LawfulEqOrd α] [Std.TransOrd β] {as : List α}
    (h : ∀ a ∈ as, ∀ b ∈ as, compare (f a) (f b) = compare a b) :
    (ofList (as.map f)).toList = (ofList as).toList.map f := by
  induction as with
  | nil => rfl
  | cons a as ih =>
    have hrest := ih fun b hb c hc => h b (by simp [hb]) c (by simp [hc])
    show place (f a) (ofList (as.map f)).toList = (place a (ofList as).toList).map f
    rw [hrest]
    exact place_map fun b hb => h a (by simp) b (by simp [mem_ofList.1 (mem_def.2 hb)])

end SortedSet

/-- Entries whose keys are replaced in order are grouped in the same way. -/
theorem groupByKey_mapKey {κ κ' : Type} [Ord κ] [Std.TransOrd κ] [Std.LawfulEqOrd κ] [DecidableEq κ]
    [Ord κ'] [Std.TransOrd κ'] [Std.LawfulEqOrd κ'] [DecidableEq κ'] {f : κ → κ'}
    {entries : List (κ × β)}
    (h : ∀ e ∈ entries, ∀ e' ∈ entries, compare (f e.1) (f e'.1) = compare e.1 e'.1) :
    groupByKey (entries.map fun e => (f e.1, e.2)) =
      (groupByKey entries).map fun g => (f g.1, g.2) := by
  have hkeys : (entries.map fun e => (f e.1, e.2)).map (·.1) = (entries.map (·.1)).map f := by
    simp [Function.comp_def]
  have hsame : ∀ e ∈ entries, ∀ e' ∈ entries, f e.1 = f e'.1 ↔ e.1 = e'.1 := by
    intro e he e' he'
    calc f e.1 = f e'.1 ↔ compare (f e.1) (f e'.1) = .eq := Std.LawfulEqCmp.compare_eq_iff_eq.symm
      _ ↔ compare e.1 e'.1 = .eq := by rw [h e he e' he']
      _ ↔ e.1 = e'.1 := Std.LawfulEqCmp.compare_eq_iff_eq
  unfold groupByKey
  rw [hkeys, SortedSet.toList_ofList_map, List.map_map, List.map_map]
  · refine List.map_congr_left fun key hkey => ?_
    have hkey : key ∈ entries.map (·.1) := SortedSet.mem_ofList.1 hkey
    obtain ⟨e', he', rfl⟩ := List.mem_map.1 hkey
    simp only [Function.comp_apply]
    rw [List.filter_map, List.map_map]
    refine congrArg (Prod.mk _) (congrArg _ (List.filter_congr fun e he => ?_))
    simpa using hsame e he e' he'
  · intro key hkey key' hkey'
    obtain ⟨e, he, rfl⟩ := List.mem_map.1 hkey
    obtain ⟨e', he', rfl⟩ := List.mem_map.1 hkey'
    exact h e he e' he'

/-! ### Specs -/

/-- The spec with the set of one state once more. -/
def Spec.echo (j : Nat) (spec : Spec) : Spec := ⟨ArithLearn.echo j spec.outputs⟩

namespace Spec

theorem echo_injective : Function.Injective (Spec.echo j) := by
  intro spec spec' h
  obtain ⟨outputs⟩ := spec
  obtain ⟨outputs'⟩ := spec'
  exact congrArg Spec.mk (ArithLearn.echo_injective (congrArg Spec.outputs h))

theorem exact_echo (outputs : List Value) :
    exact (ArithLearn.echo j outputs) = (exact outputs).echo j := by
  unfold exact Spec.echo
  rw [echo_map]

/-- Each state is asked for something as before. -/
theorem isUnsatisfiable_echo (spec : Spec) :
    (spec.echo j).isUnsatisfiable = spec.isUnsatisfiable := by
  rw [Bool.eq_iff_iff, isUnsatisfiable_iff, isUnsatisfiable_iff]
  exact exists_congr fun outputs => and_congr_left fun _ => mem_echo

/-- What all states accept is accepted by each of them once more. -/
theorem common_echo (spec : Spec) : (spec.echo j).common = spec.common := by
  obtain ⟨outputs⟩ := spec
  cases outputs with
  | nil => rfl
  | cons first rest =>
    show (rest ++ (first :: rest)[j]?.toList).foldl .inter first = rest.foldl .inter first
    cases hlast : (first :: rest)[j]? with
    | none => simp
    | some last =>
      rw [Option.toList_some, List.foldl_append, List.foldl_cons, List.foldl_nil]
      refine SortedSet.eq_of_toList (List.filter_eq_self.2 fun n hn => ?_)
      have hcommon : n ∈ (⟨first :: rest⟩ : Spec).common := hn
      exact SortedSet.contains_iff.2 ((mem_common.1 hcommon).2 last (List.mem_of_getElem? hlast))

end Spec

namespace Witness

variable {states : List Input} {spec : Spec}

theorem freeSpec_echo {f : Input → SortedSet Value → SortedSet Value}
    (hl : spec.length = states.length) :
    freeSpec f (echo j states) (spec.echo j) = (freeSpec f states spec).echo j :=
  congrArg Spec.mk (zipWith_echo f hl.symm)

theorem dependentSpec_echo {f : Input → SortedSet Value → Value → SortedSet Value}
    {chosen : List Value} (hl : spec.length = states.length) (hc : chosen.length = states.length) :
    dependentSpec f (echo j states) (spec.echo j) (echo j chosen) =
      (dependentSpec f states spec chosen).echo j := by
  have hzip : (echo j states).zip (spec.echo j).outputs = echo j (states.zip spec.outputs) := by
    rw [List.zip_eq_zipWith, List.zip_eq_zipWith]
    exact zipWith_echo Prod.mk hl.symm
  have hlen : (states.zip spec.outputs).length = chosen.length := by
    rw [List.length_zip, hc]
    exact Nat.min_eq_left (Nat.le_of_eq hl.symm)
  unfold dependentSpec Spec.echo
  rw [← zipWith_echo _ hlen, ← hzip]
  rfl

/-- Where the chosen values are there for each state, so is the spec they make for. -/
theorem spec?_echo (w : Witness) {chosen : Nat → Option (List Value)}
    (hl : spec.length = states.length)
    (hc : ∀ i values, chosen i = some values → values.length = states.length) :
    w.spec? (echo j states) (spec.echo j) (fun i => (chosen i).map (echo j)) =
      (w.spec? states spec chosen).map (Spec.echo j) := by
  cases w with
  | free f => exact congrArg some (freeSpec_echo hl)
  | dependent on f =>
    cases hon : chosen on with
    | none => simp [spec?, hon]
    | some values => simp [spec?, hon, dependentSpec_echo hl (hc on values hon)]

theorem length_spec? {w : Witness} {chosen : Nat → Option (List Value)}
    (hl : spec.length = states.length)
    (hc : ∀ i values, chosen i = some values → values.length = states.length) {paramSpec : Spec}
    (h : w.spec? states spec chosen = some paramSpec) : paramSpec.length = states.length := by
  cases w with
  | free f =>
    cases h
    exact length_freeSpec hl
  | dependent on f =>
    obtain ⟨values, hon, rfl⟩ := Option.map_eq_some_iff.1 h
    exact length_dependentSpec hl (hc on values hon)

end Witness

/-! ### Values -/

theorem Program.valuesOn_echo (states : List Input) (p : Program) :
    p.valuesOn (echo j states) = (p.valuesOn states).map (echo j) :=
  mapM_echo _ states

/-- An operator over echoed columns gives an echo of what it gives over the columns. -/
theorem Op.valuesOn_echo (op : Op) {states : List Input} {columns : List (List Value)}
    (hc : ∀ column ∈ columns, column.length = states.length) :
    op.valuesOn (echo j states) (columns.map (echo j)) =
      (op.valuesOn states columns).map (echo j) := by
  have hrow : ∀ s, (columns.map (echo j)).mapM (·[s]?) =
      columns.mapM (·[if s = states.length then j else s]?) := by
    intro s
    induction columns with
    | nil => rfl
    | cons column columns ih =>
      rw [List.map_cons, List.mapM_cons, List.mapM_cons, getElem?_echo, hc column (by simp),
        ih fun c h => hc c (by simp [h])]
  unfold Op.valuesOn
  simp only [hrow]
  rw [← mapM_echo, ← zipIdx_echo, List.mapM_map]
  rfl

end ArithLearn
