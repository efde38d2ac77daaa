import ExactAlgebra.Workspace.Basic

/-!
Reading the parts of the expressions that handles name.
-/

namespace ExactAlgebra.Workspace

/-- What a graph tells of a node, for the node of a handle. -/
def inspect {α : Type} (read : Graph → NodeId → α) (h : Handle) : Work α := do
  let (k, x) ← resolve h
  return read ((← get).graph k) x

/-- What a graph tells of a node, or why it does not. -/
def demand {α : Type} (read : Graph → NodeId → Except Error α) (h : Handle) : Work α := do
  match ← inspect read h with
  | .ok a => return a
  | .error e => throw e

def shape (h : Handle) : Work Shape := inspect Graph.shape h

def isLoop (h : Handle) : Work Bool := inspect Graph.isLoop h

def value? (h : Handle) : Work (Option Rat) := inspect Graph.value? h

def value (h : Handle) : Work Rat := demand Graph.value h

def spelling (h : Handle) : Work String := demand Graph.spelling h

def callee (h : Handle) : Work Callee := demand Graph.callee h

def loopName (h : Handle) : Work String := demand Graph.loopName h

def operandCount (h : Handle) : Work Nat := inspect (fun g x => (g.operands x).length) h

def operand (h : Handle) (position : Nat) : Work Handle := do
  let (k, _) ← resolve h
  return .node k (← demand (Graph.operand · · position) h)

/-- The terms of a sum, or the expression alone. -/
def terms (h : Handle) : Work (List Handle) := do
  let (k, _) ← resolve h
  return (← inspect Graph.terms h).map (.node k)

/-- The factors of a product, or the expression alone. -/
def factors (h : Handle) : Work (List Handle) := do
  let (k, _) ← resolve h
  return (← inspect Graph.factors h).map (.node k)

/-- The canonical order of two expressions. -/
def order (l r : Handle) : Work Ordering := do
  let (k, x, y) ← together l r
  return ((← get).graph k).order x y

end ExactAlgebra.Workspace
