/-!
Rectangular arrays, kept by columns. Passes over all entries go down the columns from the left.
-/

namespace ExactAlgebra

structure Grid (rows cols : Nat) (α : Type) where
  columns : Vector (Vector α rows) cols

namespace Grid

variable {rows cols : Nat} {α β : Type}

def ofFn (f : Fin rows → Fin cols → α) : Grid rows cols α :=
  ⟨Vector.ofFn fun j => Vector.ofFn fun i => f i j⟩

def get (m : Grid rows cols α) (i : Fin rows) (j : Fin cols) : α := m.columns[j][i]

def set (m : Grid rows cols α) (i : Fin rows) (j : Fin cols) (a : α) : Grid rows cols α :=
  ⟨m.columns.set j (m.columns[j].set i a)⟩

def map (f : α → β) (m : Grid rows cols α) : Grid rows cols β := ⟨m.columns.map (·.map f)⟩

/-- Computes the entries, down the columns from the left. -/
def generate {m : Type → Type} [Monad m] (f : Fin rows → Fin cols → m α) :
    m (Grid rows cols α) := do
  return ⟨← Vector.ofFnM fun j => Vector.ofFnM fun i => f i j⟩

/-- Exchanges two rows. -/
def swapRows (m : Grid rows cols α) (i i' : Fin rows) : Grid rows cols α :=
  ⟨m.columns.map fun column => column.swap i i'⟩

/-- The rows, from the top. -/
def toRows (m : Grid rows cols α) : List (List α) :=
  (List.finRange rows).map fun i => (List.finRange cols).map fun j => m.get i j

end Grid

end ExactAlgebra
