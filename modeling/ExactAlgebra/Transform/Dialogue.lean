import ExactAlgebra.Graph.Basic

/-!
Steps as dialogues. The step that transforms one node may ask, at any time, for the transformation
of another; who answers is not its concern. So one set of rules can be run with a memo, with a
cycle check, or by plain recursion.
-/

namespace ExactAlgebra

/-- The step has ended, or it asks for a node and goes on with the answer. -/
inductive Step (σ α : Type) where
  | done (outcome : EStateM.Result Error σ α)
  | ask (x : NodeId) (state : σ) (resume : NodeId → σ → Step σ α)

namespace Step

variable {σ α β γ : Type}

/-- Goes on with another step after the first has ended well. -/
def bind : Step σ α → (α → σ → Step σ β) → Step σ β
  | done (.ok a s), k => k a s
  | done (.error e s), _ => done (.error e s)
  | ask x s resume, k => ask x s fun y s' => (resume y s').bind k

theorem bind_done (p : Step σ α) : (p.bind fun a s => done (.ok a s)) = p := by
  induction p with
  | done outcome => cases outcome <;> rfl
  | ask x s resume ih =>
    simp only [bind]
    congr
    funext y s'
    exact ih y s'

theorem bind_assoc (p : Step σ α) (f : α → σ → Step σ β) (h : β → σ → Step σ γ) :
    (p.bind f).bind h = p.bind fun a s => (f a s).bind h := by
  induction p with
  | done outcome => cases outcome <;> rfl
  | ask x s resume ih =>
    simp only [bind]
    congr
    funext y s'
    exact ih y s'

end Step

/-- A computation on a state `σ` that may ask for the transformation of nodes. -/
def Dialogue (σ α : Type) : Type := σ → Step σ α

namespace Dialogue

variable {σ α β : Type}

instance : Monad (Dialogue σ) where
  pure a := fun s => .done (.ok a s)
  bind m f := fun s => (m s).bind f

instance : LawfulMonad (Dialogue σ) :=
  LawfulMonad.mk' _
    (fun m => funext fun s => Step.bind_done (m s))
    (fun _ _ => rfl)
    (fun m f h => funext fun s => Step.bind_assoc (m s) f h)

/-- Asks for the transformation of a node. -/
def ask (x : NodeId) : Dialogue σ NodeId := fun s => .ask x s fun y s' => .done (.ok y s')

/-- A computation that asks nothing. -/
def quiet (m : EStateM Error σ α) : Dialogue σ α := fun s => .done (m s)

/-- Asks for the nodes of a list from left to right. -/
def askAll : List NodeId → Dialogue σ (List NodeId)
  | [] => pure []
  | x :: xs => do
    let y ← ask x
    let ys ← askAll xs
    return y :: ys

end Dialogue

/-- What a pass works on: the graph, and a log of its own. -/
structure Pass (τ : Type) where
  graph : Graph
  log : τ

namespace Dialogue

variable {τ α : Type}

/-- Constructs nodes in the graph of the pass. -/
def build (m : Build α) : Dialogue (Pass τ) α := fun ⟨graph, log⟩ =>
  match m graph with
  | .ok a graph => .done (.ok a ⟨graph, log⟩)
  | .error e graph => .done (.error e ⟨graph, log⟩)

instance : MonadLift Build (Dialogue (Pass τ)) := ⟨build⟩

def graph : Dialogue (Pass τ) Graph := fun s => .done (.ok s.graph s)

def updateLog (f : τ → τ) : Dialogue (Pass τ) Unit := fun s =>
  .done (.ok () { s with log := f s.log })

def fail (e : Error) : Dialogue (Pass τ) α := fun s => .done (.error e s)

end Dialogue

end ExactAlgebra
