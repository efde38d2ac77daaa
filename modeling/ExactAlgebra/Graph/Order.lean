import ExactAlgebra.Graph.Basic

/-!
The canonical order of the nodes of a graph, in which the operands of sums and products are kept.

Constants are ordered by value and symbols by name; all else by kind, then operator, then the
number of the called function, then operands from left to right. Self-referential nodes come after
all others, by number, since their structure has no end.
-/

namespace ExactAlgebra.Graph

def ofLess (less : Bool) : Ordering := if less then .lt else .gt

/-- The number of a function in the order of first use. -/
def calleeRank (g : Graph) (f : Callee) : Nat := g.callees.idxOf f

/-- Compares two shapes; symbols of one name are told apart by the numbers of their nodes. -/
def compareShapes (g : Graph) (a b : NodeId) : Shape → Shape → Ordering
  | .constant p, .constant q => if p < q then .lt else if q < p then .gt else .eq
  | .symbol s, .symbol t =>
    if s < t then .lt else if t < s then .gt else ofLess (a < b)
  | .call f, .call f' => compare (g.calleeRank f) (g.calleeRank f')
  | s, t => (compare s.rank t.rank).then (compare s.op.rank t.op.rank)

/-- The canonical order on nodes whose structure, loops not entered, is at most `depth` deep. -/
def compareWithin (g : Graph) : Nat → NodeId → NodeId → Ordering
  | 0, _, _ => .eq
  | depth + 1, a, b =>
    if a = b then .eq
    else match g.isLoop a, g.isLoop b with
      | true, true => ofLess (a < b)
      | true, false => .gt
      | false, true => .lt
      | false, false =>
        (compareShapes g a b (g.shape a) (g.shape b)).then
          (List.compareLex (compareWithin g depth) (g.operands a) (g.operands b))

/-- Operands have smaller numbers than the node they belong to, unless it is self-referential. -/
def order (g : Graph) (a b : NodeId) : Ordering := g.compareWithin (a + 1) a b

def productLe (g : Graph) (a b : NodeId) : Bool := g.order a b != .gt

/-- In a sum constants come last. -/
def sumLe (g : Graph) (a b : NodeId) : Bool :=
  if g.isConstant a != g.isConstant b then g.isConstant b else g.productLe a b

end ExactAlgebra.Graph
