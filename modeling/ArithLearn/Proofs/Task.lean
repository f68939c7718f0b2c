/-
What is generated can be learned.

A simple task is made so that a search has the means for it: its operands
are read at two places, which are not the same, no result is out of range,
and a numerator is a multiple of its denominator (`Suits`). So the hidden
program is recoverable on every input, whatever the stream gives
(`succeeds_simpleTask`), and a search over any of the examples finds it
among others (`Task.Consistent.learnable`).
-/
import ArithLearn.Proofs.Random.Draw
import ArithLearn.Proofs.Session.Order
import ArithLearn.Task

namespace ArithLearn

namespace Task

/-- The examples are what the program does, and on their inputs it is one that a search with two
levels cannot miss. -/
structure Consistent (task : Task) : Prop where
  depth_le : task.program.depth ≤ 2
  recoverable : ∀ e ∈ task.examples, task.program.Recoverable e.input
  run : ∀ e ∈ task.examples, task.program.run e.input = .ok e.output

/-- Each search over the first of the examples that ends has the hidden program in its space, and a
new session accepts all of the examples, as far as its searches go. -/
structure Learnable (σ : Type) [Score σ] (config : Config) (task : Task) : Prop where
  contains : ∀ front clock space, front <+: task.examples →
    versionSpace front config clock = .ok space → space.contains task.program
  accepted : ∀ offers : List Offer, offers.map (·.offered) = task.examples →
    ¬ ({ config } : Session σ).RunsOut offers → ({ config } : Session σ).AcceptsAll offers

variable {task : Task}

theorem Consistent.learnable {σ : Type} [Score σ] {config : Config} (h : task.Consistent)
    (hdepth : 2 ≤ config.limits.maxDepth) : task.Learnable σ config where
  contains front clock space hfront hspace := by
    have hmem : ∀ e ∈ front, e ∈ task.examples := fun e he => hfront.subset he
    exact contains_of_recoverable hspace (h.depth_le.trans hdepth)
      (fun e he => h.recoverable e (hmem e he)) fun e he => h.run e (hmem e he)
  accepted offers hoffers hbudget := by
    refine Session.acceptsAll_of_derives (p := task.program) (fun e he => ?_) hbudget
    rw [hoffers] at he
    have hfits : fits [e] task.program :=
      Spec.fits_iff.2 (List.forall_mem_singleton.2 (h.run e he))
    refine derives_of_recoverable (by simp) rfl (h.depth_le.trans hdepth) ?_ ?_
    · simpa using h.recoverable e he
    · exact hfits

end Task

namespace Generator

variable {g : Generator}

/-! ### Inputs -/

/-- The elements that inputs are drawn from. -/
def Admits (g : Generator) (x : Value) : Prop := 1 ≤ x.toInt ∧ x.toInt ≤ g.maxValue.toInt

theorem succeeds_value : Succeeds (g.value 1) g.Admits := by
  have hmax := g.one_le_maxValue
  have hupper := g.maxValue.upper
  refine (Draw.succeeds_below (by omega)).bind fun n hn => .pure ?_
  have hint : (Value.ofNat (1 + n)).toInt = (1 + n : Nat) := Value.toInt_ofNat (by omega)
  unfold Admits
  omega

theorem succeeds_array : Succeeds g.array fun v => v.length = g.length ∧ ∀ x ∈ v, g.Admits x :=
  succeeds_value.times g.length

/-- Two places in an input that are not the same. -/
structure Distinct (g : Generator) (i j : Nat) : Prop where
  ne : i ≠ j
  left_lt : i < g.length
  right_lt : j < g.length

theorem succeeds_positions (hlength : g.length < 2 ^ 63) :
    Succeeds g.positions fun ij => g.Distinct ij.1 ij.2 := by
  have htwo := g.two_le_length
  have hvalue : Value.ofInt? g.length = some (.ofNat g.length) :=
    Value.ofInt?_eq_some.2 (Value.toInt_ofNat (by omega)).symm
  refine (Succeeds.of_eq_some (P := fun _ => True) hvalue trivial).bind fun _ _ => ?_
  refine (Draw.succeeds_shuffle (Array.range g.length)).lift.bind fun shuffled hperm => .pure ?_
  have hsize : shuffled.size = g.length := by simpa using hperm.size_eq
  have hnodup : shuffled.toList.Nodup := by
    rw [hperm.toList.nodup_iff]
    simpa using List.nodup_range
  have hlt : ∀ k (hk : k < shuffled.size), shuffled[k] < g.length := fun k hk => by
    simpa using hperm.mem_iff.1 (Array.getElem_mem hk)
  rw [Array.getD_eq_getD_getElem?, Array.getD_eq_getD_getElem?,
    Array.getElem?_eq_getElem (by omega), Array.getElem?_eq_getElem (by omega)]
  refine ⟨fun heq => ?_, hlt 0 (by omega), hlt 1 (by omega)⟩
  have := (hnodup.getElem_inj_iff (i := 0) (j := 1)).1 heq
  omega

/-- The input has elements at both places, and if the operator is one of two operands, it has a
result on these, with nothing left over. -/
def Suits (op : Op) (i j : Nat) (v : Input) : Prop :=
  ∃ x y, v[i]? = some x ∧ v[j]? = some y ∧
    (op.IsBinary → ∃ n : Value, op.Exactly x.toInt y.toInt n.toInt)

/-- The product of two elements is in range if none is above the root of the greatest value. -/
theorem exists_mul (hmax : g.maxValue.toInt ≤ 3037000499) {x y : Value} (hx : g.Admits x)
    (hy : g.Admits y) : ∃ n, x.mul? y = some n := by
  obtain ⟨hx1, hx2⟩ := hx
  obtain ⟨hy1, hy2⟩ := hy
  have hpos : 0 < x.toInt * y.toInt := Int.mul_pos (by omega) (by omega)
  have hle : x.toInt * y.toInt ≤ 3037000499 * 3037000499 :=
    Int.mul_le_mul (by omega) (by omega) (by omega) (by omega)
  exact ⟨⟨x.toInt * y.toInt, by omega, by omega⟩, Value.mul?_eq_some.2 rfl⟩

variable {i j : Nat} {op : Op} {v : Input}

/-- An input as it is drawn has elements at both places. -/
theorem Distinct.elements (hij : g.Distinct i j) (hlength : v.length = g.length)
    (hv : ∀ x ∈ v, g.Admits x) :
    ∃ x y, v[i]? = some x ∧ v[j]? = some y ∧ g.Admits x ∧ g.Admits y := by
  have hi : i < v.length := hlength ▸ hij.left_lt
  have hj : j < v.length := hlength ▸ hij.right_lt
  exact ⟨v[i], v[j], List.getElem?_eq_getElem hi, List.getElem?_eq_getElem hj,
    hv _ (List.getElem_mem hi), hv _ (List.getElem_mem hj)⟩

/-- A multiple of one element in the place of the other can be divided by the first. -/
theorem Distinct.suits_set (hij : g.Distinct i j) (hlength : v.length = g.length)
    (hv : ∀ x ∈ v, g.Admits x) {quotient product : Value}
    (hproduct : (v.getD j .zero).mul? quotient = some product) :
    Suits .div i j (v.set i product) := by
  obtain ⟨x, y, hx, hy, _, hadmits⟩ := hij.elements hlength hv
  rw [List.getD_eq_getElem?_getD, hy] at hproduct
  refine ⟨product, y, ?_, ?_, fun _ => ⟨quotient, ?_, ?_⟩⟩
  · exact List.getElem?_set_self (List.getElem?_eq_some_iff.1 hx).1
  · -- The places are distinct, so the denominator is still the one the multiple was made of.
    rw [List.getElem?_set_ne hij.ne, hy]
  · have := hadmits.1
    omega
  · exact (Value.mul?_eq_some.1 hproduct).symm

theorem succeeds_divisible (hmax : g.maxValue.toInt ≤ 3037000499) (hij : g.Distinct i j) :
    Succeeds (g.divisible i j) (Suits .div i j) := by
  refine succeeds_array.lift.bind fun v hv => succeeds_value.lift.bind fun quotient hq => ?_
  obtain ⟨x, y, hx, hy, _, hadmits⟩ := hij.elements hv.1 hv.2
  obtain ⟨product, hproduct⟩ := exists_mul hmax hadmits hq
  have hdraw : (v.getD j .zero).mul? quotient = some product := by
    rw [List.getD_eq_getElem?_getD, hy]
    exact hproduct
  refine (Succeeds.of_eq_some (P := (· = product)) hdraw rfl).bind fun drawn hdrawn => .pure ?_
  rw [hdrawn]
  exact hij.suits_set hv.1 hv.2 hdraw

/-- The elements of an input as it is drawn can be added and multiplied. -/
theorem suits_of_admits (hmax : g.maxValue.toInt ≤ 3037000499) (hij : g.Distinct i j)
    (hop : op ≠ .div) (hlength : v.length = g.length) (hv : ∀ x ∈ v, g.Admits x) :
    Suits op i j v := by
  obtain ⟨x, y, hx, hy, hadmits, hadmits'⟩ := hij.elements hlength hv
  refine ⟨x, y, hx, hy, fun hbinary => ?_⟩
  cases hbinary with
  | sum =>
    obtain ⟨hx1, hx2⟩ := hadmits
    obtain ⟨hy1, hy2⟩ := hadmits'
    exact ⟨⟨x.toInt + y.toInt, by omega, by omega⟩, rfl⟩
  | mul =>
    obtain ⟨n, hn⟩ := exists_mul hmax hadmits hadmits'
    exact ⟨n, Value.mul?_eq_some.1 hn⟩
  | div => exact absurd rfl hop

theorem succeeds_inputFor (hmax : g.maxValue.toInt ≤ 3037000499) (hij : g.Distinct i j) :
    Succeeds (g.inputFor op i j) (Suits op i j) := by
  unfold inputFor
  split
  · rename_i hop
    subst hop
    exact succeeds_divisible hmax hij
  · rename_i hop
    exact succeeds_array.lift.imp fun v hv => suits_of_admits hmax hij hop hv.1 hv.2

/-! ### Programs -/

theorem depth_overElements : (overElements op i j).depth ≤ 2 := by
  unfold overElements
  split
  · rw [Program.depth_elementAt]
    omega
  · rw [Program.depth_binary, Program.depth_elementAt, Program.depth_elementAt]
    omega

theorem value?_element {k : Nat} (hk : k < 2 ^ 63) {x : Value} (hx : v[k]? = some x) :
    (Program.elementAt (.ofNat k)).value? v = some x := by
  rw [Program.value?_elementAt, Value.toInt_ofNat (by omega)]
  exact ⟨by omega, by simpa using hx⟩

/-- On a suitable input the program has a value, and one that a search can find. -/
theorem Suits.recoverable (h : Suits op i j v) (hne : i ≠ j) (hi : i < 2 ^ 63) (hj : j < 2 ^ 63) :
    (overElements op i j).Recoverable v ∧ ∃ n, (overElements op i j).value? v = some n := by
  obtain ⟨x, y, hx, hy, hexists⟩ := h
  unfold overElements
  split
  · exact ⟨.elementAt _, x, value?_element hi hx⟩
  · rename_i hop
    have hbinary : op.IsBinary := by
      cases op with
      | sum => exact .sum
      | mul => exact .mul
      | div => exact .div
      | elementAt => exact absurd rfl hop
    obtain ⟨n, hexact⟩ := hexists hbinary
    obtain ⟨hgives, hdiv⟩ := Op.exactly_iff.1 hexact
    have hleft := value?_element hi hx
    have hright := value?_element hj hy
    exact ⟨.binary hbinary (.elementAt _) (.elementAt _) hleft hright ⟨i, j, hne, hx, hy⟩ hdiv,
      n, Program.value?_binary.2 ⟨x, y, hleft, hright, hgives⟩⟩

/-! ### Tasks -/

/-- The output of a sample is what the program gives, where it has a value. -/
theorem succeeds_sample {p : Program} {input : OptionT Draw Input} {P : Input → Prop}
    (hinput : Succeeds input P) (hp : ∀ v, P v → ∃ n, p.value? v = some n) :
    Succeeds (sample p input) fun e => P e.input ∧ p.run e.input = .ok e.output := by
  refine hinput.bind fun v hv => .pure ?_
  obtain ⟨n, hn⟩ := hp v hv
  have hrun := Program.run_eq_ok.2 hn
  refine ⟨hv, ?_⟩
  rw [hrun]
  rfl

theorem succeeds_simpleTask (hmax : g.maxValue.toInt ≤ 3037000499) (hlength : g.length < 2 ^ 63)
    (examples : Nat) :
    Succeeds (OptionT.mk (g.simpleTask examples)) fun task =>
      task.examples.length = examples ∧ task.Consistent := by
  refine (Draw.succeeds_index 4).lift.bind fun k _ => ?_
  refine (succeeds_positions hlength).bind fun ij hij => ?_
  obtain ⟨i, j⟩ := ij
  have hi := hij.left_lt
  have hj := hij.right_lt
  have hsuits : ∀ v, Suits (Op.all.getD k .sum) i j v →
      (overElements (Op.all.getD k .sum) i j).Recoverable v ∧
        ∃ n, (overElements (Op.all.getD k .sum) i j).value? v = some n :=
    fun v hv => hv.recoverable hij.ne (by omega) (by omega)
  have hsample := succeeds_sample (succeeds_inputFor hmax hij) fun v hv => (hsuits v hv).2
  refine (hsample.times examples).bind fun es hes => .pure ⟨hes.1, ?_⟩
  exact ⟨depth_overElements, fun e he => (hsuits _ (hes.2 e he).1).1, fun e he => (hes.2 e he).2⟩

/-- There is no task if the length of the inputs is no value. -/
theorem length_lt_of_simpleTask {examples : Nat} {stream : Stream} {task : Task}
    (h : ((g.simpleTask examples).run stream).1 = some task) : g.length < 2 ^ 63 := by
  by_contra hlength
  have hnone : Value.ofInt? g.length = none := Value.ofInt?_eq_none.2 (by omega)
  simp [simpleTask, positions, hnone] at h

/-- **A simple task can be learned**, whatever the place in the stream, if no product of two elements
is out of range and the search has two levels. There is one as long as the positions in the inputs
are values. -/
theorem simpleTask_learnable {σ : Type} [Score σ] {config : Config} {maxValue : Value}
    (length examples : Nat) (stream : Stream) (hmax : maxValue.toInt ≤ 3037000499)
    (hdepth : 2 ≤ config.limits.maxDepth) :
    (length < 2 ^ 63 →
        ∃ task, (((ofSize length maxValue).simpleTask examples).run stream).1 = some task) ∧
      ∀ task, (((ofSize length maxValue).simpleTask examples).run stream).1 = some task →
        task.examples.length = examples ∧
          (∀ e ∈ task.examples, task.program.run e.input = .ok e.output) ∧
            task.Learnable σ config := by
  have hmax' : (ofSize length maxValue).maxValue.toInt ≤ 3037000499 := by
    unfold ofSize
    split
    · exact hmax
    · exact show (1 : Int) ≤ 3037000499 by decide
  refine ⟨fun hlength => ?_, fun task htask => ?_⟩
  · have hlength' : (ofSize length maxValue).length < 2 ^ 63 := by
      unfold ofSize
      split <;> exact max_lt (by omega) hlength
    obtain ⟨task, htask, _⟩ := (succeeds_simpleTask hmax' hlength' examples).exists_run stream
    exact ⟨task, htask⟩
  · obtain ⟨task', htask', hsize, hconsistent⟩ :=
      (succeeds_simpleTask hmax' (length_lt_of_simpleTask htask) examples).exists_run stream
    obtain rfl : task' = task := Option.some.inj (htask'.symm.trans htask)
    exact ⟨hsize, hconsistent.run, hconsistent.learnable hdepth⟩

/-- A quotient of two elements, on two inputs, is generated and learned. -/
theorem simpleTask_learnable_quotients :
    (Value.ofNat 9).toInt ≤ 3037000499 ∧
      2 ≤ ({ limits := { maxDepth := 2 } } : Config).limits.maxDepth ∧ 2 < 2 ^ 63 ∧
      ∃ task, (((ofSize 2 (.ofNat 9)).simpleTask 2).run (.ofSeed 12)).1 = some task ∧
        task.program = .div (.elementAt (.ofNat 0)) (.elementAt (.ofNat 1)) ∧
        task.examples =
          [⟨[.ofNat 36, .ofNat 6], .ofNat 6⟩, ⟨[.ofNat 35, .ofNat 5], .ofNat 7⟩] ∧
        (∃ space, versionSpace task.examples { limits := { maxDepth := 2 } } = .ok space ∧
          space.contains task.program) ∧
        ∃ offers : List Offer, offers.map (·.offered) = task.examples ∧
          ¬ ({ config := { limits := { maxDepth := 2 } } } : Session Float).RunsOut offers ∧
          ({ config := { limits := { maxDepth := 2 } } } : Session Float).AcceptsAll offers := by
  have hmax : (Value.ofNat 9).toInt ≤ 3037000499 := by decide
  obtain ⟨hexists, hlearnable⟩ := @simpleTask_learnable Float _ { limits := { maxDepth := 2 } } _ 2 2
    (.ofSeed 12) hmax (by decide)
  obtain ⟨task, htask⟩ := hexists (by decide)
  obtain ⟨_, _, hlearn⟩ := hlearnable task htask
  have hdrawn : (((ofSize 2 (.ofNat 9)).simpleTask 2).run (.ofSeed 12)).1.any fun task =>
      task.program = .div (.elementAt (.ofNat 0)) (.elementAt (.ofNat 1)) ∧ task.examples =
        [⟨[.ofNat 36, .ofNat 6], .ofNat 6⟩, ⟨[.ofNat 35, .ofNat 5], .ofNat 7⟩] := by
    decide +kernel
  rw [htask] at hdrawn
  obtain ⟨hprogram, hexamples⟩ := of_decide_eq_true hdrawn
  have hends : ∀ n ∈ [1, 2], (versionSpace (task.examples.take n)
      { limits := { maxDepth := 2 } }).toOption.any fun _ => true := by
    rw [hexamples]
    decide +kernel
  have hspace : ∀ n ∈ [1, 2], ∃ space, versionSpace (task.examples.take n)
      { limits := { maxDepth := 2 } } = .ok space ∧ space.contains task.program := by
    intro n hn
    obtain ⟨space, hspace, _⟩ := exists_ok_of_any (hends n hn)
    exact ⟨space, hspace, hlearn.contains _ _ space (List.take_prefix n _) hspace⟩
  obtain ⟨first, hfirst, hp⟩ := hspace 1 (by simp)
  obtain ⟨both, hboth, hp'⟩ := hspace 2 (by simp)
  have htake : task.examples.take 2 = task.examples := by
    rw [hexamples]
    rfl
  rw [htake] at hboth
  let offers : List Offer :=
    [{ offered := ⟨[.ofNat 36, .ofNat 6], .ofNat 6⟩ }, { offered := ⟨[.ofNat 35, .ofNat 5], .ofNat 7⟩ }]
  have hoffers : offers.map (·.offered) = task.examples := hexamples.symm
  have haccepts :
      ({ config := { limits := { maxDepth := 2 } } } : Session Float).AcceptsAll offers := by
    rw [hexamples] at hfirst hboth
    exact Session.acceptsAll_cons.2 ⟨_, synthesize_of_contains hfirst hp,
      Session.acceptsAll_cons.2 ⟨_, synthesize_of_contains hboth hp', Session.acceptsAll_nil⟩⟩
  exact ⟨hmax, by decide, by decide, task, htask, hprogram, hexamples, ⟨both, hboth, hp'⟩, offers,
    hoffers, haccepts.not_runsOut, hlearn.accepted offers hoffers haccepts.not_runsOut⟩

end Generator

end ArithLearn
