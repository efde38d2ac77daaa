import ExactAlgebra.Graph.Order

/-!
Sums, products and powers in canonical shape, and the arithmetic built from them.

A sum keeps no sum and no zero among its operands, a product no product and no one; both keep
their operands in canonical order. Like terms are not combined here.
-/

namespace ExactAlgebra.Graph

/-- The operands of a sum over `terms`, before they are sorted. -/
def flattenSum (g : Graph) (terms : List NodeId) : List NodeId :=
  (terms.flatMap fun x => if (g.node x).isOpenSum then g.operands x else [x]).filter
    fun x => !g.hasValue 0 x

/-- The operands of a product over `factors`, before they are sorted. -/
def flattenProduct (g : Graph) (factors : List NodeId) : List NodeId :=
  (factors.flatMap fun x => if (g.node x).isOpenProduct then g.operands x else [x]).filter
    fun x => !g.hasValue 1 x

def sum (terms : List NodeId) : Build NodeId := do
  let g ← get
  match g.flattenSum terms with
  | [] => return zero
  | [x] => return x
  | xs => intern .sum (xs.mergeSort g.sumLe)

def product (factors : List NodeId) : Build NodeId := do
  let g ← get
  let xs := g.flattenProduct factors
  if xs.any (g.hasValue 0) then return zero
  match xs with
  | [] => return one
  | [x] => return x
  | xs => intern .product (xs.mergeSort g.productLe)

def power (base exponent : NodeId) : Build NodeId := do
  if (← get).hasValue 1 exponent then return base
  intern .power [base, exponent]

/-- The operand at a position of a list meant for a node of fixed arity. -/
def pick (xs : List NodeId) (position : Nat) : Build NodeId :=
  match xs[position]? with
  | some x => return x
  | none => throw (.tooFewOperands position xs.length)

/-- The last two operands are looked up from the right. -/
def pickPair (xs : List NodeId) : Build (NodeId × NodeId) := do
  let r ← pick xs 1
  let l ← pick xs 0
  return (l, r)

/-- A node of the same kind over other operands, brought to canonical shape again. -/
def withOperands (x : NodeId) (xs : List NodeId) : Build NodeId := do
  match (← get).shape x with
  | .constant _ | .symbol _ => return x
  | .sum => sum xs
  | .product => product xs
  | .power => do let (l, r) ← pickPair xs; power l r
  | .binary op => do let (l, r) ← pickPair xs; binary op l r
  | .unary op => do unary op (← pick xs 0)
  | .call f => intern (.call f) xs
  | .set => set xs
  | .arrow => do let (l, r) ← pickPair xs; arrow l r

def negate (x : NodeId) : Build NodeId := do product [← constant (-1), x]

def subtract (l r : NodeId) : Build NodeId := do sum [l, ← negate r]

def powerOf (base : NodeId) (exponent : Rat) : Build NodeId := do
  power base (← constant exponent)

def divide (l r : NodeId) : Build NodeId := do product [l, ← powerOf r (-1)]

/-- The operands of a sum, or the node alone. -/
def terms (g : Graph) (x : NodeId) : List NodeId :=
  if (g.node x).isOpenSum then g.operands x else [x]

/-- The operands of a product, or the node alone. -/
def factors (g : Graph) (x : NodeId) : List NodeId :=
  if (g.node x).isOpenProduct then g.operands x else [x]

end ExactAlgebra.Graph
