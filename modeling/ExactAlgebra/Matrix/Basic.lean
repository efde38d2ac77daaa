import ExactAlgebra.Matrix.Grid
import ExactAlgebra.Workspace.Build

/-!
Matrices of expressions: how they are made, read, changed and written.
-/

namespace ExactAlgebra

structure Matrix where
  /-- The graph in which entries are built. -/
  graph : Nat
  rows : Nat
  cols : Nat
  entries : Grid rows cols Handle

namespace Matrix

def isSquare (m : Matrix) : Bool := m.rows == m.cols

def isVector (m : Matrix) : Bool := m.rows == 1 || m.cols == 1

/-- A matrix needs a graph to build its entries in. -/
def needGraph : Option Nat → Work Nat
  | some k => return k
  | none => throw .matrixWithoutGraph

/-- The matrix of zeros. -/
def zero (k : Nat) (rows cols : Nat) : Work Matrix := do
  let zero ← Workspace.constant k 0
  return ⟨k, rows, cols, .ofFn fun _ _ => zero⟩

def identity (k : Nat) (n : Nat) : Work Matrix := do
  let zero ← Workspace.constant k 0
  let one ← Workspace.constant k 1
  return ⟨k, n, n, .ofFn fun i j => if i = j then one else zero⟩

/-- All rows have to be as long as the first, and all entries in graph `k`. -/
def checkRow (k cols : Nat) (row : List Handle) : Work Unit := do
  if row.length ≠ cols then throw (.shapeMismatch "construction" 1 cols 1 row.length)
  for h in row do
    if h.graph? ≠ some k then throw .entryOutsideGraph

def ofRows (k : Nat) (rows : List (List Handle)) : Work Matrix := do
  let cols := (rows.head?.map List.length).getD 0
  let zero ← Workspace.constant k 0
  rows.forM (checkRow k cols)
  return ⟨k, rows.length, cols, .ofFn fun i j => (rows[i][j]?).getD zero⟩

def ofConstants (k : Nat) (rows : List (List Rat)) : Work Matrix := do
  ofRows k (← rows.mapM fun row => row.mapM (Workspace.constant k))

def render (ws : Workspace) (m : Matrix) : String :=
  let row (hs : List Handle) := "[" ++ ", ".intercalate (hs.map ws.render) ++ "]"
  "[" ++ ", ".intercalate (m.entries.toRows.map row) ++ "]"

/-- The place of a row and a column. -/
def place (m : Matrix) (i j : Nat) : Except Error (Fin m.rows × Fin m.cols) :=
  if h : i < m.rows ∧ j < m.cols then .ok (⟨i, h.1⟩, ⟨j, h.2⟩) else .error (.noSuchEntry i j)

/-- The place of an element of a matrix with one row or one column. -/
def vectorPlace (m : Matrix) (i : Nat) : Except Error (Fin m.rows × Fin m.cols) :=
  if !m.isVector then .error (.notVector m.rows m.cols)
  else if i ≥ m.rows * m.cols then .error (.noSuchVectorEntry i)
  else if m.rows = 1 then m.place 0 i
  else m.place i 0

def get (m : Matrix) (i j : Nat) : Except Error Handle := do
  let (i, j) ← m.place i j
  return m.entries.get i j

def set (m : Matrix) (i j : Nat) (h : Handle) : Except Error Matrix := do
  let (i, j) ← m.place i j
  return { m with entries := m.entries.set i j h }

def getVector (m : Matrix) (i : Nat) : Except Error Handle := do
  let (i, j) ← m.vectorPlace i
  return m.entries.get i j

def setVector (m : Matrix) (i : Nat) (h : Handle) : Except Error Matrix := do
  let (i, j) ← m.vectorPlace i
  return { m with entries := m.entries.set i j h }

end Matrix

end ExactAlgebra
