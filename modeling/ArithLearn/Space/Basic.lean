/-
Version spaces: sets of programs, kept as graphs of unions and products instead of lists.

A space is written as a tree whose nodes carry labels. In a search the labels are identities:
nodes that are one node of the graph have one label, and what is remembered of a node is
remembered by its label. Forgetting the labels (`shape`) leaves the tree the graph unfolds to.
Only `size` depends on the labels; every other view is a function of the shape.
-/
import ArithLearn.Choice
import ArithLearn.SortedSet
import ArithLearn.Program.Order
import Std.Data.TreeSet

namespace ArithLearn

/-- A space of programs, its nodes labelled by `ι`. -/
inductive Space (ι : Type) where
  /-- Programs that are listed. -/
  | leaf (label : ι) (programs : SortedSet Program)
  /-- The programs of all members. -/
  | union (label : ι) (members : List (Space ι))
  /-- The operator over all choices of one argument from each child. -/
  | join (label : ι) (op : Op) (children : List (Space ι))

/-- A space whose labels tell its nodes apart. -/
abbrev Graph := Space Nat

namespace Space

variable {ι κ : Type}

/-- The label of the topmost node. -/
def label : Space ι → ι
  | leaf l _ | union l _ | join l _ _ => l

/-- The space that holds the input alone. -/
def inputLeaf (label : ι) : Space ι := leaf label (.singleton .input)

mutual

/-- The space with other labels. -/
def map (f : ι → κ) : Space ι → Space κ
  | leaf l ps => leaf (f l) ps
  | union l ms => union (f l) (mapAll f ms)
  | join l op cs => join (f l) op (mapAll f cs)

def mapAll (f : ι → κ) : List (Space ι) → List (Space κ)
  | [] => []
  | s :: ss => map f s :: mapAll f ss

end

/-- To show something of every space, show it of the leaves, and of a union and an operator if it
holds of all members or children. -/
theorem induction {motive : Space ι → Prop} (leaf : ∀ l ps, motive (leaf l ps))
    (union : ∀ l ms, (∀ m ∈ ms, motive m) → motive (union l ms))
    (join : ∀ l op cs, (∀ c ∈ cs, motive c) → motive (join l op cs)) (s : Space ι) : motive s :=
  Space.rec (motive_2 := fun ss => ∀ s ∈ ss, motive s) leaf union join
    (by simp) (fun _ _ h hs => by simpa using ⟨h, hs⟩) s

theorem mapAll_eq (f : ι → κ) (ss : List (Space ι)) : mapAll f ss = ss.map (map f) := by
  induction ss with
  | nil => rfl
  | cons s ss ih => simp [mapAll, ih]

/-- The space without its labels. -/
def shape (s : Space ι) : Space Unit := s.map fun _ => ()

/-! ### Views -/

mutual

/-- All programs of a space, each as often as the space holds it. The order is that of the
leaves and members, and for an operator that of the choices of its arguments. -/
def enumerate : Space ι → List Program
  | leaf _ ps => ps.toList
  | union _ ms => (enumerateAll ms).flatten
  | join _ op cs => (choices (enumerateAll cs)).map (.app op)

def enumerateAll : List (Space ι) → List (List Program)
  | [] => []
  | s :: ss => enumerate s :: enumerateAll ss

end

mutual

/-- The first programs of a space, at most `limit` of them, without finding the others. -/
def programs (limit : Nat) : Space ι → List Program
  | leaf _ ps => ps.toList.take limit
  | union _ ms => programsUnion limit ms
  | join _ op cs => (firstChoices limit (programsAll limit cs)).map (.app op)

/-- The first programs of a sequence of members. -/
def programsUnion (limit : Nat) : List (Space ι) → List Program
  | [] => []
  | s :: ss =>
    if limit = 0 then [] else
      let firsts := programs limit s
      firsts ++ programsUnion (limit - firsts.length) ss

def programsAll (limit : Nat) : List (Space ι) → List (List Program)
  | [] => []
  | s :: ss => programs limit s :: programsAll limit ss

end

mutual

/-- Whether a space holds no program. -/
def isEmpty : Space ι → Bool
  | leaf _ ps => ps.isEmpty
  | union _ ms => allEmpty ms
  | join _ _ cs => anyEmpty cs

def allEmpty : List (Space ι) → Bool
  | [] => true
  | s :: ss => isEmpty s && allEmpty ss

def anyEmpty : List (Space ι) → Bool
  | [] => false
  | s :: ss => isEmpty s || anyEmpty ss

end

/-- The count at which counting stops. -/
def maxCount : Nat := 0xffffffffffffffffffffffffffffffff

mutual

/-- How many programs a space holds, each as often as the space holds it, up to `maxCount`. -/
def count : Space ι → Nat
  | leaf _ ps => min maxCount ps.size
  | union _ ms => sumCount 0 ms
  | join _ _ cs => productCount 1 cs

def sumCount (acc : Nat) : List (Space ι) → Nat
  | [] => acc
  | s :: ss => sumCount (min maxCount (acc + count s)) ss

def productCount (acc : Nat) : List (Space ι) → Nat
  | [] => acc
  | s :: ss => productCount (min maxCount (acc * count s)) ss

end

mutual

/-- Whether a space holds a program, found by walking the space along the program. -/
def contains : Space ι → Program → Bool
  | leaf _ ps, p => ps.contains p
  | union _ ms, p => anyContains ms p
  | join _ op cs, .app f args => op = f && eachContains cs args
  | join _ _ _, _ => false

def anyContains : List (Space ι) → Program → Bool
  | [], _ => false
  | s :: ss, p => contains s p || anyContains ss p

/-- Whether each space holds the program of its place. -/
def eachContains : List (Space ι) → List Program → Bool
  | [], [] => true
  | s :: ss, p :: ps => contains s p && eachContains ss ps
  | _, _ => false

end

theorem enumerateAll_eq (ss : List (Space ι)) : enumerateAll ss = ss.map enumerate := by
  induction ss with
  | nil => rfl
  | cons s ss ih => simp [enumerateAll, ih]

theorem programsAll_eq (limit : Nat) (ss : List (Space ι)) :
    programsAll limit ss = ss.map (programs limit) := by
  induction ss with
  | nil => rfl
  | cons s ss ih => simp [programsAll, ih]

theorem allEmpty_eq (ss : List (Space ι)) : allEmpty ss = ss.all isEmpty := by
  induction ss with
  | nil => rfl
  | cons s ss ih => simp [allEmpty, ih]

theorem anyEmpty_eq (ss : List (Space ι)) : anyEmpty ss = ss.any isEmpty := by
  induction ss with
  | nil => rfl
  | cons s ss ih => simp [anyEmpty, ih]

theorem anyContains_eq (ss : List (Space ι)) (p : Program) :
    anyContains ss p = ss.any (·.contains p) := by
  induction ss with
  | nil => rfl
  | cons s ss ih => simp [anyContains, ih]

mutual

/-- The labels of a space, added to those seen already. Below a label that was seen, nothing is
new. -/
def labels (seen : Std.TreeSet Nat) : Graph → Std.TreeSet Nat
  | leaf l _ => seen.insert l
  | union l ms => if seen.contains l then seen else labelsAll (seen.insert l) ms
  | join l _ cs => if seen.contains l then seen else labelsAll (seen.insert l) cs

def labelsAll (seen : Std.TreeSet Nat) : List Graph → Std.TreeSet Nat
  | [] => seen
  | s :: ss => labelsAll (labels seen s) ss

end

/-- How many nodes the graph has, shared ones counted once. -/
def size (g : Graph) : Nat := (g.labels ∅).size

/-! ### Pruning -/

/-- A space that is to become part of a union, and whether something else refers to it too. -/
structure Member (ι : Type) where
  space : Space ι
  shared : Bool

/-- The union of the members that are not empty. A lone member that nothing else refers to
stands for the union itself; a shared one stays a node of its own below it. -/
def unionOf (label : ι) (members : List (Member ι)) : Space ι :=
  match members.filter fun m => !m.space.isEmpty with
  | [] => union label []
  | [m] => if m.shared then union label [m.space] else m.space
  | ms => union label (ms.map (·.space))

/-- The operator over the children; nothing if one of them is empty. -/
def joinOf (label : ι) (op : Op) (children : List (Space ι)) : Space ι :=
  if anyEmpty children then union label [] else join label op children

end Space

end ArithLearn
