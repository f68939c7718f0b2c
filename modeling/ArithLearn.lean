import ArithLearn.Value
import ArithLearn.SortedSet
import ArithLearn.Choice
import ArithLearn.Program.Basic
import ArithLearn.Program.Order
import ArithLearn.Program.Fault
import ArithLearn.Program.Eval
import ArithLearn.Program.Text
import ArithLearn.Score
import ArithLearn.Spec
import ArithLearn.Witness
import ArithLearn.Grammar
import ArithLearn.Space.Basic
import ArithLearn.Space.Ranking
import ArithLearn.Space.Cluster
import ArithLearn.Search.Budget
import ArithLearn.Search.Recent
import ArithLearn.Search.Event
import ArithLearn.Search.Learn
import ArithLearn.Synthesis
import ArithLearn.Session
import ArithLearn.Random.Stream
import ArithLearn.Random.Draw
import ArithLearn.Task
import ArithLearn.Main
import ArithLearn.Proofs.Arithmetic
import ArithLearn.Proofs.Witness
import ArithLearn.Proofs.Evaluation
import ArithLearn.Proofs.Space.Contains
import ArithLearn.Proofs.Space.Parts
import ArithLearn.Proofs.Registry
import ArithLearn.Proofs.Space.Cluster
import ArithLearn.Proofs.Search.Plain
import ArithLearn.Proofs.Spec
import ArithLearn.Proofs.Search.Contents
import ArithLearn.Proofs.Derivation
import ArithLearn.Proofs.Depth
import ArithLearn.Proofs.Completeness
import ArithLearn.Proofs.Intersection
import ArithLearn.Proofs.Choice
import ArithLearn.Proofs.Space.Enumerate
import ArithLearn.Proofs.Search.Transparency
import ArithLearn.Proofs.Space.Partition
import ArithLearn.Proofs.Space.Coherent
import ArithLearn.Proofs.Space.History
import ArithLearn.Proofs.Ranking.Best
import ArithLearn.Proofs.Ranking.Offers
import ArithLearn.Proofs.Ranking.Exact
import ArithLearn.Proofs.Ranking.Learned
import ArithLearn.Proofs.Ranking.Count
import ArithLearn.Proofs.Search.Expansions
import ArithLearn.Proofs.Synthesis
import ArithLearn.Proofs.Session
import ArithLearn.Proofs.Session.Log
import ArithLearn.Proofs.Session.Order
import ArithLearn.Proofs.Random.Draw
import ArithLearn.Proofs.Task
import ArithLearn.Proofs.Lockstep
import ArithLearn.Proofs.Echo.Basic
import ArithLearn.Proofs.Echo.Cluster
import ArithLearn.Proofs.Echo.Search
import ArithLearn.Proofs.Session.Repeat
import ArithLearn.Proofs.Combinations
import ArithLearn.Proofs.Ranking.Order
import ArithLearn.Proofs.Ranking.Ties
import ArithLearn.Proofs.Inversion
import ArithLearn.Proofs.Widening
import ArithLearn.Proofs.Space.Unambiguous
import ArithLearn.Proofs.Search.Unambiguous
import ArithLearn.Proofs.Space.Sharing
import ArithLearn.Proofs.Text
import ArithLearn.Proofs.Evaluation.Exact
import ArithLearn.Proofs.Task.Consistent
import ArithLearn.Proofs.Space.Pruning
import ArithLearn.Proofs.Spec.Disjunction
import ArithLearn.Proofs.Search.Visits
import ArithLearn.Proofs.Task.Programs
import ArithLearn.Proofs.Search.Loose
import ArithLearn.Proofs.Search.Sharing
