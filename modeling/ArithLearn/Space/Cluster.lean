/-
Splitting a space by what its programs compute.

A *cluster* of a space holds those of its programs that give the same values on the states of a
search. Programs that fault on some state are in no cluster. Nothing is evaluated but the
leaves: the values of an operator follow from the values of its arguments' clusters, and the
clusters of one node are found once.
-/
import ArithLearn.Spec
import ArithLearn.Space.Basic
import Std.Data.TreeMap

namespace ArithLearn

/-- The values of a program on all states, if it has one on each. -/
def Program.valuesOn (states : List Input) (p : Program) : Option (List Value) :=
  states.mapM fun v => p.value? v

/-- The values of an operator on all states, given those of its arguments: `columns` holds a
list over the states for each argument. -/
def Op.valuesOn (op : Op) (states : List Input) (columns : List (List Value)) :
    Option (List Value) :=
  states.zipIdx.mapM fun (v, s) => do
    let args ← columns.mapM fun column => column[s]?
    (op.compute v args).toOption

/-- The entries with equal keys brought together, the keys ascending and the entries of one key
in the order they had. -/
def groupByKey {κ β : Type} [Ord κ] [Std.TransOrd κ] [DecidableEq κ] (entries : List (κ × β)) :
    List (κ × List β) :=
  (SortedSet.ofList (entries.map (·.1))).toList.map fun key =>
    (key, (entries.filter fun e => e.1 = key).map (·.2))

/-- The programs of a space with one value for each state. -/
structure Cluster where
  values : List Value
  space : Graph

/-- The clusters found so far, by the label of the space they split, and a supply of labels: all
from `next` on are unused. -/
structure Clusterer where
  next : Nat
  known : Std.TreeMap Nat (List Cluster) := ∅

namespace Clusterer

/-- An unused label. -/
def fresh : StateM Clusterer Nat := modifyGet fun c => (c.next, { c with next := c.next + 1 })

/-- What is known for a label, or else what `compute` gives, which is known from then on. -/
def once (label : Nat) (compute : StateM Clusterer (List Cluster)) :
    StateM Clusterer (List Cluster) := do
  match (← get).known[label]? with
  | some clusters => pure clusters
  | none =>
    let clusters ← compute
    modify fun c => { c with known := c.known.insert label clusters }
    pure clusters

/-- One cluster for each list of values, the union of the spaces that have it. -/
def unite (shared : Bool) (parts : List Cluster) : StateM Clusterer (List Cluster) := do
  let groups := groupByKey (parts.map fun c => (c.values, c.space))
  let clusters ← groups.mapM fun (values, spaces) => do
    let label ← fresh
    pure ⟨values, Space.unionOf label (spaces.map (⟨·, shared⟩))⟩
  pure (clusters.filter fun c => !c.space.isEmpty)

/-- The clusters of listed programs. -/
def splitLeaf (states : List Input) (ps : SortedSet Program) : StateM Clusterer (List Cluster) :=
  (SortedSet.ofList (ps.toList.filterMap (·.valuesOn states))).toList.mapM fun values => do
    let label ← fresh
    pure ⟨values, .leaf label (ps.filter fun p => p.valuesOn states = some values)⟩

/-- The applications of an operator to one cluster of each argument. -/
def assemble (states : List Input) (op : Op) (input : Graph) (args : List Cluster) :
    StateM Clusterer (Option Cluster) :=
  match op.valuesOn states (args.map (·.values)) with
  | none => pure none
  | some values => do
    let label ← fresh
    pure (some ⟨values, .join label op (input :: args.map (·.space))⟩)

end Clusterer

namespace Space

open Clusterer

mutual

/-- The clusters of a space, by ascending values. The first child of an operator is taken for the
input, as it is in a program. The clusters of the members of a union are known by their own labels
too, and so are shared; the applications made of an operator's are new. -/
def cluster (states : List Input) : Graph → StateM Clusterer (List Cluster)
  | leaf l ps => once l (splitLeaf states ps)
  | union l ms => once l do
    let parts ← clusterAll states ms
    unite true parts.flatten
  | join l _ [] => once l (pure [])
  | join l op (input :: params) => once l do
    let parts ← clusterAll states params
    let combined ← (choices parts).mapM (assemble states op input)
    unite false (combined.filterMap id)

def clusterAll (states : List Input) : List Graph → StateM Clusterer (List (List Cluster))
  | [] => pure []
  | s :: ss => do
    let c ← cluster states s
    let cs ← clusterAll states ss
    pure (c :: cs)

end

end Space

end ArithLearn
