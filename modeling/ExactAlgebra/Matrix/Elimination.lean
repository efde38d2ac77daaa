import ExactAlgebra.Evaluation.Rules
import ExactAlgebra.Matrix.Grid

/-!
Exact inversion by elimination. Two square grids of nodes are kept side by side, and every row
operation is done on both: as the left one becomes the identity, the right one, which starts as
the identity, becomes the inverse. An entry counts as zero when it is the constant `0`.
-/

namespace ExactAlgebra

/-- Constructs nodes in the graph of a run. -/
def Run.build {τ α : Type} (m : Build α) : EStateM Error (Run τ) α := fun ⟨memo, ⟨g, log⟩⟩ =>
  match m g with
  | .ok a g => .ok a ⟨memo, ⟨g, log⟩⟩
  | .error e g => .error e ⟨memo, ⟨g, log⟩⟩

structure Tableau (n : Nat) where
  left : Grid n n NodeId
  right : Grid n n NodeId

abbrev Eliminating := EStateM Error (Run Journal)

namespace Tableau

variable {n : Nat} (library : Library) (depth : Nat)

def evaluated (m : Build NodeId) : Eliminating NodeId := do
  evaluateIn library depth (← Run.build m)

/-- Replaces the entries of row `i` in column `k` on both sides. -/
def updateColumn (f : NodeId → NodeId → Build NodeId) (i j : Fin n) (t : Tableau n) (k : Fin n) :
    Eliminating (Tableau n) := do
  let x ← evaluated library depth (f (t.left.get i k) (t.left.get j k))
  let y ← evaluated library depth (f (t.right.get i k) (t.right.get j k))
  return ⟨t.left.set i k x, t.right.set i k y⟩

/-- Replaces row `i` from itself and row `j`, column by column. -/
def updateRow (f : NodeId → NodeId → Build NodeId) (i j : Fin n) (t : Tableau n) :
    Eliminating (Tableau n) :=
  (List.finRange n).foldlM (updateColumn library depth f i j) t

/-- The first row from row `j` on whose entry in column `j` is not zero. -/
def pivot? (g : Graph) (t : Tableau n) (j : Fin n) : Option (Fin n) :=
  (List.finRange n).find? fun i => j ≤ i && !g.hasValue 0 (t.left.get i j)

def swapRows (t : Tableau n) (i i' : Fin n) : Tableau n :=
  ⟨t.left.swapRows i i', t.right.swapRows i i'⟩

/-- Divides row `j` by its entry in column `j`. -/
def normalize (j : Fin n) (t : Tableau n) : Eliminating (Tableau n) := do
  let scale ← evaluated library depth (Graph.powerOf (t.left.get j j) (-1))
  updateRow library depth (fun x _ => Graph.product [x, scale]) j j t

/-- Subtracts a multiple of row `j` from row `i` so that its entry in column `j` vanishes. -/
def clear (j : Fin n) (t : Tableau n) (i : Fin n) : Eliminating (Tableau n) := do
  if i = j then return t
  let factor := t.left.get i j
  if (← get).pass.graph.hasValue 0 factor then return t
  updateRow library depth
    (fun x y => do Graph.subtract x (← Graph.product [factor, y])) i j t

/-- Makes column `j` of the left side a column of the identity. -/
def reduceColumn (t : Tableau n) (j : Fin n) : Eliminating (Tableau n) := do
  match t.pivot? (← get).pass.graph j with
  | none => throw (.singular j)
  | some i =>
    let t ← normalize library depth j (if i = j then t else t.swapRows j i)
    (List.finRange n).foldlM (clear library depth j) t

end Tableau

/-- The identity, made of constants. -/
def identityGrid (n : Nat) : Build (Grid n n NodeId) := do
  let o ← Graph.constant 0
  let e ← Graph.constant 1
  return .ofFn fun i j => if i = j then e else o

/-- The inverse of a grid of evaluated nodes. -/
def invertGrid (library : Library) (depth : Nat) {n : Nat} (a : Grid n n NodeId) :
    Eliminating (Grid n n NodeId) := do
  let b ← Run.build (identityGrid n)
  let t ← (List.finRange n).foldlM (Tableau.reduceColumn library depth) ⟨a, b⟩
  return t.right

end ExactAlgebra
