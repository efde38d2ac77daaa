import ExactAlgebra.Proofs.Graph.Closure
import ExactAlgebra.Transform.Rules

/-!
Classes of computations that ask for the transformation of nodes, closed under composition.
-/

namespace ExactAlgebra

/-- A class of computations in the transformation of a node that has the elementary ones, and is
closed under composition. -/
structure Conversations (τ : Type) extends Closure (Dialogue (Pass τ)) where
  constructions : Graph.Constructions
  build : ∀ {α : Type} {m : Build α}, constructions.Holds m → Holds (Dialogue.build m)
  graph : Holds Dialogue.graph
  updateLog : ∀ u, Holds (Dialogue.updateLog u)
  fail : ∀ {α : Type} e, Holds (Dialogue.fail e : Dialogue (Pass τ) α)
  ask : ∀ x, Holds (Dialogue.ask x)

/-- A class of computations in the transformation of a node that has all the ways to build a node,
and is closed under composition. Nothing is said about the log. -/
structure Exchanges (τ : Type) extends Closure (Dialogue (Pass τ)) where
  builders : Graph.Builders
  build : ∀ {α : Type} {m : Build α}, builders.Holds m → Holds (Dialogue.build m)
  graph : Holds Dialogue.graph
  fail : ∀ {α : Type} e, Holds (Dialogue.fail e : Dialogue (Pass τ) α)
  ask : ∀ x, Holds (Dialogue.ask x)

def Conversations.exchanges {τ : Type} (P : Conversations τ) : Exchanges τ where
  toClosure := P.toClosure
  builders := P.constructions.builders
  build := P.build
  graph := P.graph
  fail := P.fail
  ask := P.ask

namespace Exchanges

variable {τ : Type} (P : Exchanges τ)

theorem askAll (xs : List NodeId) : P.Holds (Dialogue.askAll xs) := by
  induction xs with
  | nil => exact P.pure []
  | cons x xs ih => exact P.bind (P.ask x) fun y => P.bind ih fun ys => P.pure (y :: ys)

theorem operands (x : NodeId) : P.Holds (Dialogue.operands x) := by
  apply P.bind P.graph
  intro g
  apply P.bind (P.askAll _)
  intro ys
  exact P.ite (fun _ => P.pure x) fun _ =>
    P.build (Graph.withOperands_holds P.builders x ys)

end Exchanges

end ExactAlgebra
