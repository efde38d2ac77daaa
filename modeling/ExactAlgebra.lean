import ExactAlgebra.Rational.Decimal
import ExactAlgebra.Rational.Text
import ExactAlgebra.Error
import ExactAlgebra.Rational.Numeral
import ExactAlgebra.Rational.Root
import ExactAlgebra.Rational.Power
import ExactAlgebra.Rational.Fingerprint
import ExactAlgebra.Graph.Shape
import ExactAlgebra.Graph.Basic
import ExactAlgebra.Graph.Storage
import ExactAlgebra.Graph.Order
import ExactAlgebra.Graph.Build
import ExactAlgebra.Graph.Tree
import ExactAlgebra.Collection.Weights
import ExactAlgebra.Collection.IndexedWeights
import ExactAlgebra.Collection.Terms
import ExactAlgebra.Collection.Factors
import ExactAlgebra.Transform.Dialogue
import ExactAlgebra.Transform.Memo
import ExactAlgebra.Transform.Rules
import ExactAlgebra.Transform.Substitution
import ExactAlgebra.Graph.Reachability
import ExactAlgebra.Evaluation.Library
import ExactAlgebra.Evaluation.Builtin
import ExactAlgebra.Evaluation.Rules
import ExactAlgebra.Workspace.Basic
import ExactAlgebra.Workspace.Build
import ExactAlgebra.Workspace.Inspect
import ExactAlgebra.Workspace.Collect
import ExactAlgebra.Workspace.Transformer
import ExactAlgebra.Workspace.Evaluate
import ExactAlgebra.Matrix.Grid
import ExactAlgebra.Matrix.Basic
import ExactAlgebra.Matrix.Elimination
import ExactAlgebra.Matrix.Arithmetic
import ExactAlgebra.Demo.Inversion
import ExactAlgebra.Demo.Evaluation
import ExactAlgebra.Main
import ExactAlgebra.Proofs.Graph.WellFormed
import ExactAlgebra.Proofs.Graph.Closure
import ExactAlgebra.Proofs.Graph.Construction
import ExactAlgebra.Proofs.Graph.Evolution
import ExactAlgebra.Proofs.Graph.Frame
import ExactAlgebra.Proofs.Graph.Storage
import ExactAlgebra.Proofs.Graph.Order
import ExactAlgebra.Proofs.Graph.Elementary
import ExactAlgebra.Proofs.Graph.Reach
import ExactAlgebra.Proofs.Graph.Forms
import ExactAlgebra.Proofs.Graph.Replay
import ExactAlgebra.Proofs.Graph.Sharing
import ExactAlgebra.Proofs.Graph.Twins
import ExactAlgebra.Proofs.Graph.Mirror
import ExactAlgebra.Proofs.Graph.Meaning
import ExactAlgebra.Proofs.Graph.Arithmetic
import ExactAlgebra.Proofs.Collection.Weights
import ExactAlgebra.Proofs.Collection.Totals
import ExactAlgebra.Proofs.Collection.IndexedWeights
import ExactAlgebra.Proofs.Collection.WeightHistory
import ExactAlgebra.Proofs.Collection.Folding
import ExactAlgebra.Proofs.Collection.Constants
import ExactAlgebra.Proofs.Collection.Reading
import ExactAlgebra.Proofs.Collection.Terms
import ExactAlgebra.Proofs.Collection.Factors
import ExactAlgebra.Proofs.Rational.Power
import ExactAlgebra.Proofs.Rational.Roots
import ExactAlgebra.Proofs.Rational.Reading
import ExactAlgebra.Proofs.Collection.Values
import ExactAlgebra.Proofs.Collection.Closure
import ExactAlgebra.Proofs.Collection.Reach
import ExactAlgebra.Proofs.Collection.Replay
import ExactAlgebra.Proofs.Collection.Collected
import ExactAlgebra.Proofs.Collection.CollectedTerms
import ExactAlgebra.Proofs.Collection.CollectedFactors
import ExactAlgebra.Proofs.Collection.Scaling
import ExactAlgebra.Proofs.Collection.Light
import ExactAlgebra.Proofs.Collection.Mirror
import ExactAlgebra.Proofs.Transform.Closure
import ExactAlgebra.Proofs.Transform.Contract
import ExactAlgebra.Proofs.Transform.Frame
import ExactAlgebra.Proofs.Transform.Substitution
import ExactAlgebra.Proofs.Transform.Depth
import ExactAlgebra.Proofs.Transform.Reach
import ExactAlgebra.Proofs.Transform.Freedom
import ExactAlgebra.Proofs.Transform.Recursion
import ExactAlgebra.Proofs.Transform.Halting
import ExactAlgebra.Proofs.Transform.Replay
import ExactAlgebra.Proofs.Transform.Memoisation
import ExactAlgebra.Proofs.Transform.Mirror
import ExactAlgebra.Proofs.Workspace.Evaluate
import ExactAlgebra.Proofs.Workspace.Frame
import ExactAlgebra.Proofs.Evaluation.Power
import ExactAlgebra.Proofs.Evaluation.Folding
import ExactAlgebra.Proofs.Evaluation.Soundness
import ExactAlgebra.Proofs.Evaluation.Exact
import ExactAlgebra.Proofs.Evaluation.Closure
import ExactAlgebra.Proofs.Evaluation.Frame
import ExactAlgebra.Proofs.Evaluation.Evolution
import ExactAlgebra.Proofs.Evaluation.Elementary
import ExactAlgebra.Proofs.Evaluation.Failures
import ExactAlgebra.Proofs.Evaluation.Recording
import ExactAlgebra.Proofs.Evaluation.Reduction
import ExactAlgebra.Proofs.Evaluation.Termination
import ExactAlgebra.Proofs.Evaluation.Mirror
import ExactAlgebra.Proofs.Workspace.Memoisation
import ExactAlgebra.Proofs.Workspace.Collection
import ExactAlgebra.Proofs.Workspace.Folding
import ExactAlgebra.Proofs.Workspace.Failures
import ExactAlgebra.Proofs.Workspace.Portability
import ExactAlgebra.Proofs.Matrix.Grid
import ExactAlgebra.Proofs.Matrix.RowReduction
import ExactAlgebra.Proofs.Matrix.Elimination
import ExactAlgebra.Proofs.Matrix.Exact
import ExactAlgebra.Proofs.Matrix.Entries
import ExactAlgebra.Proofs.Matrix.Inverse
import ExactAlgebra.Proofs.Matrix.PointInverse
import ExactAlgebra.Proofs.Matrix.Frame
import ExactAlgebra.Proofs.Matrix.Ending
import ExactAlgebra.Proofs.Matrix.Power
import ExactAlgebra.Proofs.Laurent.Expansion
import ExactAlgebra.Proofs.Laurent.Normal
import ExactAlgebra.Proofs.Laurent.Uniqueness
import ExactAlgebra.Proofs.Laurent.Difference
import ExactAlgebra.Proofs.Laurent.Combining
import ExactAlgebra.Proofs.Laurent.Evaluation
import ExactAlgebra.Proofs.Workspace.Ending
import ExactAlgebra.Proofs.Workspace.Polynomials
import ExactAlgebra.Proofs.Workspace.Differences
import ExactAlgebra.Proofs.Graph.Binding
import ExactAlgebra.Proofs.Real.Power
import ExactAlgebra.Proofs.Real.Measure
import ExactAlgebra.Proofs.Real.Collection
import ExactAlgebra.Proofs.Real.Substitution
import ExactAlgebra.Proofs.Real.Evaluation
import ExactAlgebra.Proofs.Real.Binding
import ExactAlgebra.Proofs.Workspace.Binding
import ExactAlgebra.Proofs.Workspace.Immutability
import ExactAlgebra.Proofs.Reachable.Comparison
import ExactAlgebra.Proofs.Reachable.Regrouping
import ExactAlgebra.Proofs.Workspace.Scaling
import ExactAlgebra.Proofs.Reachable.Canonical
import ExactAlgebra.Proofs.Reachable.Rebuilding
import ExactAlgebra.Proofs.Reachable.Replacement
import ExactAlgebra.Proofs.Reachable.Substitution
import ExactAlgebra.Proofs.Reachable.Unfolding
import ExactAlgebra.Proofs.Reachable.Composition
import ExactAlgebra.Proofs.Reachable.Closing
import ExactAlgebra.Proofs.Reachable.Repetition
import ExactAlgebra.Proofs.Reachable.TermOrder
import ExactAlgebra.Proofs.Reachable.FactorOrder
import ExactAlgebra.Proofs.Transform.Hooks
import ExactAlgebra.Proofs.Transform.History
import ExactAlgebra.Proofs.Transform.Structure
import ExactAlgebra.Proofs.Tree.Text
import ExactAlgebra.Proofs.Tree.Reader
import ExactAlgebra.Proofs.Tree.Reading
import ExactAlgebra.Proofs.Reachable.Printing
import ExactAlgebra.Proofs.Reachable.Reading
import ExactAlgebra.Proofs.Reachable.Search
import ExactAlgebra.Proofs.Reachable.Index
import ExactAlgebra.Proofs.Evaluation.Standing
import ExactAlgebra.Proofs.Workspace.Refusal
import ExactAlgebra.Proofs.Workspace.Independence
import ExactAlgebra.Proofs.Evaluation.Faults
