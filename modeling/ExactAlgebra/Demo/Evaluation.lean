import ExactAlgebra.Demo.Inversion

/-!
A demonstration of scopes, of evaluation at a point and in batches, and of calls that fail.
-/

namespace ExactAlgebra.Demo

open Workspace

/-- A line that shows an expression. -/
def showExpression (title : String) (h : Handle) : Work String := do
  return title ++ (← get).render h

/-- Runs a part of the demonstration with a graph of its own as the current one. -/
def inNewScope (part : Nat → Work (List String)) : Work (List String) := do
  let k ← newGraph
  enterScope k
  let lines ← part k
  let _ ← leaveScope
  return lines

def scopePart (_ : Nat) : Work (List String) := do
  let x ← currentSymbol "x"
  let y ← currentSymbol "y"
  let double ← multiply (← constantNear x 2) x
  let above ← add y (← constantNear y 1)
  let triple ← multiply (← constantNear above 3) above
  let total ← add (← add x double) triple
  let f ← subtract total (← constantNear total 3)
  return ["", "=== 1. ArenaScope (RAII) ===", ← showExpression "f           = " f,
    ← showExpression "evaluate(f) = " (← evaluate library depth f)]

def existingGraphPart (k : Nat) : Work (List String) := do
  let x ← currentSymbol "x"
  let square ← multiply x x
  let f ← multiply (← power square (← currentConstant 2)) (← power x (← currentConstant (-3)))
  let shown ← showExpression "f           = " f
  let value ← showExpression "evaluate(f) = " (← evaluate library depth f)
  let size := ((← get).graph k).size
  return ["", "=== 2. ArenaScope over an existing arena ===", shown, value,
    "arena nodes = " ++ toString size]

def batchLines (x y : Handle) : Work (List String) := do
  let fs := [← add x y, ← multiply x y, ← binary .less x y]
  let point := [(x, ← currentConstant 2), (y, ← currentConstant 5)]
  let (values, _) ← evaluateAll library depth fs point
  values.mapM (showExpression "batch: ")

def pointPart (_ : Nat) : Work (List String) := do
  let x ← currentSymbol "x"
  let y ← currentSymbol "y"
  let f ← add (← multiply x x) y
  let half ← evaluateBound library depth f [(x, ← currentConstant 3)]
  let full ← evaluateBound library depth f
    [(x, ← currentConstant 3), (y, ← currentConstant 1)]
  let arrows := [← arrow x (← currentConstant (1 / 2)), ← arrow y (← currentConstant 0)]
  let at' ← evaluateAtArrows library depth f arrows
  return ["", "=== 3. Evaluation at a point ===", ← showExpression "f(3, y)  = " half.1,
    ← showExpression "f(3, 1)  = " full.1, ← showExpression "f(1/2, 0) = " at'] ++
    (← batchLines x y)

def showFault (k : Nat) (fault : Fault) : Work String := do
  return "fault in " ++ fault.callee.name ++ ": " ++ fault.message ++ " at " ++
    (← get).render (.node k fault.call)

def faultPart (k : Nat) : Work (List String) := do
  let x ← currentSymbol "x"
  let root ← callOf (some Builtin.sqrt.callee) [← currentConstant (9 / 4)]
  let inverse ← callOf (some Builtin.inv.callee) [← subtract x x]
  let f ← add (← add root inverse) x
  let (value, faults) ← evaluateFaults library depth f
  return ["", "=== 4. Calls and faults ===", ← showExpression "evaluate(f) = " value] ++
    (← faults.toList.mapM (showFault k))

def evaluation : Work (List String) := do
  let parts := [scopePart, existingGraphPart, pointPart, faultPart]
  return (← parts.mapM inNewScope).flatten

/-- The lines of a demonstration, run in a workspace of its own. -/
def transcript (demo : Work (List String)) : List String :=
  match demo {} with
  | .ok lines _ => lines
  | .error e _ => ["error: " ++ e.message]

end ExactAlgebra.Demo
