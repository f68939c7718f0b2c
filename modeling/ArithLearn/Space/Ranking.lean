/-
The best programs of a space.

The space is walked from the leaves up. A union or an operator keeps no more than the `k` best
of what its members or arguments offer; among equal scores what is found first comes first. A
leaf offers all it has, since the position of an element counts by its value and not by a score
of its own. Each node of the graph is ranked once.
-/
import ArithLearn.Score
import ArithLearn.Space.Basic
import Std.Data.TreeMap

namespace ArithLearn

variable {σ : Type} [Score σ]

/-- Whether `a` may stand before `b`: its score is no lower. -/
def Ranked.precedes (a b : Ranked σ) : Bool := Score.compare b.score a.score != .gt

/-- The first `k` entries whose programs are not among those seen, nor repeat one before them. -/
def firstDistinct : Nat → List Program → List (Ranked σ) → List (Ranked σ)
  | 0, _, _ => []
  | _, _, [] => []
  | k + 1, seen, r :: rs =>
    if seen.contains r.program then firstDistinct (k + 1) seen rs
    else r :: firstDistinct k (r.program :: seen) rs

/-- The `k` best entries with distinct programs, from the highest score down. -/
def best (k : Nat) (entries : List (Ranked σ)) : List (Ranked σ) :=
  firstDistinct k [] (entries.mergeSort Ranked.precedes)

/-- An operator over ranked arguments. -/
def Ranked.app (op : Op) (args : List (Ranked σ)) : Ranked σ :=
  ⟨combine op args, .app op (args.map (·.program))⟩

namespace Space

/-- The ranked programs of the nodes visited so far, by label. -/
abbrev Rankings (σ : Type) := Std.TreeMap Nat (List (Ranked σ))

/-- What is known for a label, or else what `compute` gives, which is known from then on. -/
def rankOnce (label : Nat) (compute : StateM (Rankings σ) (List (Ranked σ))) :
    StateM (Rankings σ) (List (Ranked σ)) := do
  match (← get)[label]? with
  | some known => pure known
  | none =>
    let ranked ← compute
    modify (·.insert label ranked)
    pure ranked

mutual

/-- The programs a node has to offer when the best `k` are wanted. -/
def rank (k : Nat) : Graph → StateM (Rankings σ) (List (Ranked σ))
  | leaf l ps => rankOnce l (pure (ps.toList.map Program.ranked))
  | union l ms => rankOnce l do
    let offers ← rankAll k ms
    pure (best k offers.flatten)
  | join l op cs => rankOnce l do
    let offers ← rankAll k cs
    pure (best k ((choices offers).map (Ranked.app op)))

def rankAll (k : Nat) : List Graph → StateM (Rankings σ) (List (List (Ranked σ)))
  | [] => pure []
  | s :: ss => do
    let r ← rank k s
    let rs ← rankAll k ss
    pure (r :: rs)

end

/-- The `k` best programs of a space, from the highest score down. -/
def topK (k : Nat) (g : Graph) : List (Ranked σ) :=
  if k = 0 then [] else ((rank k g).run ∅).1

/-- The best program of a space. -/
def pick (σ : Type) [Score σ] (g : Graph) : Option Program :=
  (g.topK 1 : List (Ranked σ)).head?.map (·.program)

end Space

end ArithLearn
