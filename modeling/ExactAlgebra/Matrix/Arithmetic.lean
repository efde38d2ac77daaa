import ExactAlgebra.Matrix.Basic
import ExactAlgebra.Matrix.Elimination
import ExactAlgebra.Workspace.Evaluate

/-!
Matrix arithmetic. Sums and products build their entries without evaluating them; the inverse is
evaluated at every step.
-/

namespace ExactAlgebra.Matrix

/-- Changes each entry. -/
def mapEntries (f : Handle → Work Handle) (m : Matrix) : Work Matrix := do
  return { m with entries := ← Grid.generate fun i j => f (m.entries.get i j) }

/-- Combines the entries of two matrices of one shape. -/
def zipEntries (operation : String) (f : Handle → Handle → Work Handle) (l r : Matrix) :
    Work Matrix := do
  if h : l.rows = r.rows ∧ l.cols = r.cols then
    let entries ← Grid.generate fun i j =>
      f (l.entries.get i j) (r.entries.get (i.cast h.1) (j.cast h.2))
    return { l with entries }
  else throw (.shapeMismatch operation l.rows l.cols r.rows r.cols)

def add (l r : Matrix) : Work Matrix := zipEntries "addition" Workspace.add l r

def subtract (l r : Matrix) : Work Matrix := zipEntries "subtraction" Workspace.subtract l r

def negate (m : Matrix) : Work Matrix := mapEntries Workspace.negate m

/-- The entry of a product in a row and a column: the sum over the inner index. -/
def dot (k : Nat) {rows inner cols : Nat} (l : Grid rows inner Handle) (r : Grid inner cols Handle)
    (i : Fin rows) (j : Fin cols) : Work Handle := do
  Workspace.sum k
    (← (List.finRange inner).mapM fun p => Workspace.multiply (l.get i p) (r.get p j))

/-- The entries of a product are built row by row. -/
def multiply (l r : Matrix) : Work Matrix := do
  if h : l.cols = r.rows then
    let zero ← Workspace.constant l.graph 0
    let places := (List.finRange l.rows).flatMap fun i => (List.finRange r.cols).map (i, ·)
    let entries ← places.foldlM
      (fun (m : Grid l.rows r.cols Handle) (i, j) => do
        return m.set i j (← dot l.graph l.entries (h ▸ r.entries) i j))
      (.ofFn fun _ _ => zero)
    return ⟨l.graph, l.rows, r.cols, entries⟩
  else throw (.shapeMismatch "multiplication" l.rows l.cols r.rows r.cols)

/-- Whether two matrices have one shape and the same expressions as entries. -/
def equal (l r : Matrix) : Bool :=
  if l.rows = r.rows ∧ l.cols = r.cols then l.entries.toRows == r.entries.toRows else false

/-- The values of all entries, computed with one memo. -/
def evaluate (library : Library) (depth : Nat) (pairs : List (Handle × Handle)) (m : Matrix) :
    Work Matrix := do
  let (entries, _) ← Workspace.withFreshMemo m.graph <| Grid.generate fun i j => do
    let h ← Transforming.work (Workspace.substitute (m.entries.get i j) pairs)
    Transforming.evaluate library depth h
  return { m with entries }

/-- Inverts a square of entries. -/
def invertEntries (library : Library) (depth : Nat) (k : Nat) {n : Nat} (m : Grid n n Handle) :
    Transforming (Array Fault) (Grid n n Handle) := do
  let a ← Grid.generate fun i j => Transforming.evaluate library depth (m.get i j)
  let b ← Transforming.runEvaluation (invertGrid library depth (a.map Handle.id))
  return b.map (.node k)

def inverse (library : Library) (depth : Nat) (m : Matrix) : Work Matrix := do
  if h : m.rows = m.cols then
    let (entries, _) ← Workspace.withFreshMemo m.graph
      (invertEntries library depth m.graph (n := m.cols) (h ▸ m.entries))
    return ⟨m.graph, m.cols, m.cols, entries⟩
  else throw (.notSquare m.rows m.cols)

/--
A power, by no more than `rounds` inversions in a row. A negative power is the opposite power of the
inverse, and `1` is the only exponent that is not refused. The least exponent is its own opposite.
-/
def powerWithin (library : Library) (depth : Nat) : Nat → Matrix → Int64 → Work Matrix
  | 0, _, _ => throw .depthExhausted
  | rounds + 1, m, k => do
    if !m.isSquare then throw (.notSquare m.rows m.cols)
    if k = 1 then return m
    if k < 0 then powerWithin library depth rounds (← m.inverse library depth) (-k)
    else throw (.unsupportedExponent k.toInt)

def power (library : Library) (depth : Nat) (m : Matrix) (k : Int64) : Work Matrix :=
  powerWithin library depth depth m k

end ExactAlgebra.Matrix
