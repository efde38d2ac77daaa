import ExactAlgebra.Proofs.Evaluation.Course
import ExactAlgebra.Proofs.Graph.Regular

/-!
The graphs that programs reach. Programs build nodes, open and close placeholders, substitute,
collect and evaluate, and so may the functions that they have called. All of it comes down to one
action after another.
-/

namespace ExactAlgebra

/-- A library whose functions of expressions use graphs as programs do. -/
def Library.Acts (library : Library) : Prop :=
  ∀ f accepts run, library f = .direct accepts run → ∀ xs, Graph.acting.builders.Holds (run xs)

namespace Graph

/-- The graphs that programs reach, starting from the empty one. What a request did before it failed
stays. -/
inductive Reachable : Graph → Prop
  | empty : Reachable .empty
  | act {g : Graph} (h : Reachable g) (a : Action) : Reachable (a.after g)
  | substitute {g : Graph} (h : Reachable g) (s : Substitution) (x : NodeId) :
      Reachable (final (substitute s x g))
  | combineTerms {g : Graph} (h : Reachable g) (xs : List NodeId) :
      Reachable (final (combineTerms xs g))
  | combineFactors {g : Graph} (h : Reachable g) (xs : List NodeId) :
      Reachable (final (combineFactors xs g))
  | extractCoefficient {g : Graph} (h : Reachable g) (x : NodeId) :
      Reachable (final (extractCoefficient x g))
  | scaleSum {g : Graph} (h : Reachable g) (c : Rat) (x : NodeId) :
      Reachable (final (scaleSum c x g))
  /-- A run goes on with what it remembers, of whatever was transformed before. -/
  | transform {τ : Type} {run : Run τ} (h : Reachable run.pass.graph) {rules : Rules τ}
      (hrules : rules.OnCourse acting) (depth : Nat) (x : NodeId) :
      Reachable (final (rules.apply depth x run)).pass.graph
  | evaluate {run : Run Journal} (h : Reachable run.pass.graph) {library : Library}
      (hlib : library.Acts) (depth : Nat) (x : NodeId) :
      Reachable (final (evaluateIn library depth x run)).pass.graph

end Graph

open ExactAlgebra.Graph (acting)

namespace Evaluation

theorem canonicalLoop_acts (x body : NodeId) : acting.builders.Holds (canonicalLoop x body) := by
  apply canonicalLoop_holds acting.builders
  intro name x body
  apply acting.builders.bind (Graph.Action.openLoop name).becomes
  intro slot
  apply acting.builders.bind (Graph.substitute_leads acting _ body)
  intro content
  apply acting.builders.bind (Graph.Action.closeLoop slot content).becomes
  intro _
  exact acting.builders.pure slot

end Evaluation

theorem Library.Acts.evaluates {library : Library} (hlib : library.Acts) :
    acting.Evaluates library where
  direct hf := hlib _ _ _ hf
  canonicalLoop := Evaluation.canonicalLoop_acts
  recordForm x form := (Graph.Action.recordForm x form).becomes

theorem Graph.Reachable.becomes {g : Graph} (h : g.Reachable) : Graph.empty.Becomes g := by
  induction h with
  | empty => exact .refl
  | act _ a ih => exact ih.act a
  | substitute _ s x ih => exact ih.trans (substitute_leads acting s x _)
  | combineTerms _ xs ih => exact ih.trans (combineTerms_holds acting.builders xs _)
  | combineFactors _ xs ih => exact ih.trans (combineFactors_holds acting.builders xs _)
  | extractCoefficient _ x ih => exact ih.trans (extractCoefficient_holds acting.builders x _)
  | scaleSum _ c x ih => exact ih.trans (scaleSum_holds acting.builders c x _)
  | transform _ hrules depth x ih => exact ih.trans (hrules.apply depth x _)
  | evaluate _ hlib depth x ih => exact ih.trans (hlib.evaluates.evaluateIn_leads depth x _)

theorem Graph.Reachable.regular {g : Graph} (h : g.Reachable) : g.Regular :=
  h.becomes.regular empty_regular

/-- One action after another. -/
theorem Graph.Reachable.acts {g : Graph} (h : g.Reachable) (as : List Action) :
    (as.foldl (fun g a => a.after g) g).Reachable := by
  induction as generalizing g with
  | nil => exact h
  | cons a as ih => exact ih (h.act a)

/-- A closed placeholder, and an open one of the same name. -/
def Graph.twoPlaceholders : Graph :=
  (Action.closeLoop 2 3).after ((Action.openLoop "p").after ((Action.openLoop "p").after .empty))

theorem Graph.twoPlaceholders_reachable : twoPlaceholders.Reachable :=
  ((Reachable.empty.act _).act _).act _

/-- Two self-referential nodes that refer to each other: `s` is the set of `t` and `a`, and `t` is the
set of `s`. -/
def Graph.entwined : Graph :=
  [Action.openLoop "s", .openLoop "t", .construct (.symbol "a"), .construct (.set [3, 4]),
    .construct (.set [2]), .closeLoop 2 5, .closeLoop 3 6].foldl (fun g a => a.after g) .empty

theorem Graph.entwined_reachable : entwined.Reachable := Reachable.empty.acts _

end ExactAlgebra
