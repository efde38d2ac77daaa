import ExactAlgebra.Evaluation.Rules
import ExactAlgebra.Workspace.Inspect

/-!
Transforming the expressions that handles name. A transformer works in one graph of a workspace and
keeps its memo and its log from one expression to the next.
-/

namespace ExactAlgebra

structure Transformer (τ : Type) where
  graph : Nat
  memo : Memo := {}
  log : τ

/-- A computation on a workspace and a transformer. What it did before it failed stays. -/
abbrev Transforming (τ : Type) := EStateM Error (Workspace × Transformer τ)

namespace Transforming

variable {τ α : Type}

/-- A run in the graph of the transformer, with its memo and its log. -/
def run (m : EStateM Error (Run τ) α) : Transforming τ α :=
  fun ⟨⟨graphs, scopes, invocations⟩, ⟨k, memo, log⟩⟩ =>
    let g := graphs[k]?.getD .empty
    let graphs := graphs.setIfInBounds k .empty
    match m ⟨memo, ⟨g, log⟩⟩ with
    | .ok a ⟨memo, ⟨g, log⟩⟩ =>
      .ok a (⟨graphs.setIfInBounds k g, scopes, invocations⟩, ⟨k, memo, log⟩)
    | .error e ⟨memo, ⟨g, log⟩⟩ =>
      .error e (⟨graphs.setIfInBounds k g, scopes, invocations⟩, ⟨k, memo, log⟩)

/-- A computation on the workspace alone. -/
def work (m : Work α) : Transforming τ α := fun (ws, transformer) =>
  match m ws with
  | .ok a ws => .ok a (ws, transformer)
  | .error e ws => .error e (ws, transformer)

/-- The node of a handle in the graph of the transformer. -/
def node (h : Handle) : Transforming τ NodeId := do
  match h with
  | .node k x => if k = (← get).2.graph then return x else throw .askedOutsideGraph
  | .empty => throw .askedOutsideGraph

/-- Transforms an expression of the graph of the transformer. -/
def transform (rules : Rules τ) (depth : Nat) (h : Handle) : Transforming τ Handle := do
  let x ← node h
  let y ← run (rules.apply depth x)
  return .node (← get).2.graph y

/-- A run of evaluation, which leaves the functions that it invokes to the workspace. -/
def runEvaluation (m : EStateM Error (Run Journal) α) : Transforming (Array Fault) α :=
  fun ⟨⟨graphs, scopes, invocations⟩, ⟨k, memo, faults⟩⟩ =>
    match run m (⟨graphs, scopes, #[]⟩, ⟨k, memo, ⟨faults, invocations⟩⟩) with
    | .ok a (⟨graphs, scopes, _⟩, ⟨k, memo, log⟩) =>
      .ok a (⟨graphs, scopes, log.invocations⟩, ⟨k, memo, log.faults⟩)
    | .error e (⟨graphs, scopes, _⟩, ⟨k, memo, log⟩) =>
      .error e (⟨graphs, scopes, log.invocations⟩, ⟨k, memo, log.faults⟩)

/-- Evaluates an expression of the graph of the transformer. -/
def evaluate (library : Library) (depth : Nat) (h : Handle) :
    Transforming (Array Fault) Handle := do
  let x ← node h
  let y ← runEvaluation (evaluateIn library depth x)
  return .node (← get).2.graph y

end Transforming

namespace Workspace

/-- A transformer needs a graph to work in, that of the expression it starts from. -/
def graphToTransform : Handle → Work Nat
  | .node k _ => return k
  | .empty => throw .transformerWithoutGraph

/-- Evaluates with a memo of its own, and gives the faults met on the way. -/
def withFreshMemo {α : Type} (k : Nat) (m : Transforming (Array Fault) α) :
    Work (α × Array Fault) := fun ws =>
  match m (ws, { graph := k, log := #[] }) with
  | .ok a (ws, transformer) => .ok (a, transformer.log) ws
  | .error e (ws, _) => .error e ws

end Workspace

end ExactAlgebra
