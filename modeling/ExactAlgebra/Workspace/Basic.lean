import ExactAlgebra.Graph.Tree
import ExactAlgebra.Graph.Build

/-!
Several graphs side by side. A handle names a node of one of them, or nothing; operations on
handles fail when the handles do not belong together. Scopes, which nest, make one of the graphs
the current one.
-/

namespace ExactAlgebra

inductive Handle where
  | empty
  | node (graph : Nat) (id : NodeId)
deriving DecidableEq, Repr, Inhabited

structure Workspace where
  graphs : Array Graph := #[.empty]
  /-- The graphs of the open scopes, the innermost first. -/
  scopes : List Nat := []
  /-- The functions invoked so far. -/
  invocations : Array Callee := #[]

/-- A computation on a workspace. What it did before it failed stays. -/
abbrev Work := EStateM Error Workspace

namespace Handle

/-- The number that stands for no node. -/
def noNode : NodeId := Graph.capacity

def id : Handle → NodeId
  | empty => noNode
  | node _ x => x

def graph? : Handle → Option Nat
  | empty => none
  | node k _ => some k

def isValid (h : Handle) : Bool := h.graph?.isSome

end Handle

namespace Workspace

def graph (ws : Workspace) (k : Nat) : Graph := ws.graphs[k]?.getD .empty

/-- Constructs nodes in one of the graphs. -/
def within {α : Type} (k : Nat) (m : Build α) : Work α := fun ⟨graphs, scopes, invocations⟩ =>
  let g := graphs[k]?.getD .empty
  let graphs := graphs.setIfInBounds k .empty
  match m g with
  | .ok a g => .ok a ⟨graphs.setIfInBounds k g, scopes, invocations⟩
  | .error e g => .error e ⟨graphs.setIfInBounds k g, scopes, invocations⟩

/-- Constructs a node in one of the graphs. -/
def make (k : Nat) (m : Build NodeId) : Work Handle := do
  return .node k (← within k m)

def newGraph : Work Nat := do
  let k := (← get).graphs.size
  modify fun ws => { ws with graphs := ws.graphs.push .empty }
  return k

/-- The graph and the node that a handle names. -/
def resolve : Handle → Work (Nat × NodeId)
  | .empty => throw .emptyHandle
  | .node k x => return (k, x)

/-- The graph of two handles that both name nodes of it, and the two nodes. -/
def together (l r : Handle) : Work (Nat × NodeId × NodeId) :=
  match l, r with
  | .node k x, .node k' y => if k = k' then return (k, x, y) else throw .differentGraphs
  | _, _ => throw .emptyHandle

/-- A handle on the node with a given number. -/
def handle (k : Nat) (x : NodeId) : Work Handle := do
  if ((← get).graph k).contains x then return .node k x else throw .badHandle

/-- The nodes that handles name in one graph. -/
def nodesIn (k : Nat) : List Handle → Work (List NodeId)
  | [] => return []
  | .node k' x :: rest => do
    if k' = k then return x :: (← nodesIn k rest) else throw .differentGraphs
  | .empty :: _ => throw .differentGraphs

/-- The graph of the first operand. -/
def graphOf (operation : String) : List Handle → Work Nat
  | .node k _ :: _ => return k
  | _ => throw (.noGraphFor operation)

/-- The tree of the named node. -/
def tree? (ws : Workspace) : Handle → Option Tree
  | .empty => none
  | .node k x => some ((ws.graph k).tree x)

def render (ws : Workspace) (h : Handle) : String :=
  match ws.tree? h with
  | some t => t.render
  | none => "<null>"

/-- Opens a scope on a graph. -/
def enterScope (k : Nat) : Work Unit :=
  modify fun ws => { ws with scopes := k :: ws.scopes }

/-- Closes the innermost scope; false if there is none. -/
def leaveScope : Work Bool := do
  match (← get).scopes with
  | [] => return false
  | _ :: scopes =>
    modify fun ws => { ws with scopes }
    return true

def currentGraph : Work Nat := do
  match (← get).scopes with
  | k :: _ => return k
  | [] => throw .noOpenScope

end Workspace

end ExactAlgebra
