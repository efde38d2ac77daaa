import ExactAlgebra.Evaluation.Builtin
import ExactAlgebra.Matrix.Arithmetic

/-!
A demonstration of exact matrix inversion: a rational matrix, one with a symbolic entry, and what
becomes of the latter where the entry makes it singular.
-/

namespace ExactAlgebra.Demo

def library : Library := .withBuiltins .silent

def depth : Nat := 10000

/-- A line that shows a matrix. -/
def showMatrix (title : String) (m : Matrix) : Work String := do
  return title ++ m.render (← get)

def rationalInverse (k : Nat) : Work (List String) := do
  let a ← Matrix.ofConstants k [[2, 1, 0], [1 / 2, 3, 0], [0, 1 / 3, 3]]
  let inverse ← a.power library depth (-1)
  let product ← (← a.multiply inverse).evaluate library depth []
  return [← showMatrix "A      = " a, ← showMatrix "A^-1   = " inverse,
    ← showMatrix "A*A^-1 = " product]

def symbolicMatrix (k : Nat) (t : Handle) : Work Matrix := do
  let number (q : Rat) := Workspace.currentConstant q
  Matrix.ofRows k [
    [← number 2, ← number 1, ← number 0],
    [← number (1 / 2), t, ← number 0],
    [← number 0, ← number 0, ← number 3]]

/-- The inverse of a matrix, or the line that tells that there is none. -/
def reportInverse (title : String) (m : Matrix) : Work String := do
  try showMatrix title (← m.power library depth (-1))
  catch e => return "error: " ++ e.message

def symbolicInverse (k : Nat) : Work (List String) := do
  let t ← Workspace.currentSymbol "t"
  let b ← symbolicMatrix k t
  let shown ← showMatrix "B      = " b
  let inverse ← reportInverse "B^-1   = " b
  let bound ← b.evaluate library depth [(t, ← Workspace.currentConstant (1 / 4))]
  return [shown, inverse, ← showMatrix "B(1/4) = " bound, ← reportInverse "" bound]

def inversion : Work (List String) := do
  let k ← Workspace.newGraph
  Workspace.enterScope k
  let lines := (← rationalInverse k) ++ (← symbolicInverse k)
  let _ ← Workspace.leaveScope
  return lines

end ExactAlgebra.Demo
