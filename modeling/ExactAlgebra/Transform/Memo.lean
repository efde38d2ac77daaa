import ExactAlgebra.Graph.Shape

/-!
The memo of a pass: which nodes are being transformed, and the results of those that are finished.
-/

namespace ExactAlgebra

inductive Mark where
  | inProgress
  | finished (result : NodeId)
deriving DecidableEq, Repr

structure Memo where
  marks : Std.HashMap NodeId Mark := {}
  /-- How many results were stored. -/
  stored : Nat := 0

namespace Memo

def mark? (m : Memo) (x : NodeId) : Option Mark := m.marks[x]?

/-- Marks a node as being transformed. -/
def enter (m : Memo) (x : NodeId) : Memo := { m with marks := m.marks.insert x .inProgress }

/-- Forgets a node whose transformation failed, so that it can be tried again. -/
def release (m : Memo) (x : NodeId) : Memo := { m with marks := m.marks.erase x }

def store (m : Memo) (x result : NodeId) : Memo where
  marks := m.marks.insert x (.finished result)
  stored := m.stored + 1

end Memo

end ExactAlgebra
