import ExactAlgebra.Error
import ExactAlgebra.Graph.Shape

/-!
Expression graphs. Every node is stored once: a node with the same shape and the same operands as
an earlier one is that earlier one, so that equality of expressions is equality of node numbers.
The exceptions are the placeholders of self-referential nodes, which are fresh each time, and
which are later closed over a body.
-/

namespace ExactAlgebra

structure Graph where
  nodes : Array Node
  /-- The node of each shape and operand list that was built so far. -/
  index : Std.HashMap (Shape × List NodeId) NodeId
  /-- The functions called so far, in the order of their first use. -/
  callees : Array Callee
  /-- The name of each closed self-referential node. -/
  labels : Std.HashMap NodeId String
  /-- The canonical form recorded for a self-referential node. -/
  forms : Std.HashMap NodeId NodeId

/-- A construction in a graph. What it added before it failed stays. -/
abbrev Build := EStateM Error Graph

namespace Graph

def zero : NodeId := 0

def one : NodeId := 1

/-- The graph that holds the constants `0` and `1` only. -/
def empty : Graph where
  nodes := #[{ shape := .constant 0 }, { shape := .constant 1 }]
  index :=
    (Std.HashMap.emptyWithCapacity.insert (.constant 0, []) zero).insert (.constant 1, []) one
  callees := #[]
  labels := Std.HashMap.emptyWithCapacity
  forms := Std.HashMap.emptyWithCapacity

instance : Inhabited Graph := ⟨empty⟩

def size (g : Graph) : Nat := g.nodes.size

def contains (g : Graph) (x : NodeId) : Bool := x < g.size

/-- The node with number `x`; an unknown number stands for the constant `0`. -/
def node (g : Graph) (x : NodeId) : Node := g.nodes[x]?.getD { shape := .constant 0 }

def shape (g : Graph) (x : NodeId) : Shape := (g.node x).shape

def operands (g : Graph) (x : NodeId) : List NodeId := (g.node x).operands

def isLoop (g : Graph) (x : NodeId) : Bool := (g.node x).isLoop

/-- The value of a constant node. -/
def value? (g : Graph) (x : NodeId) : Option Rat := (g.shape x).value?

def isConstant (g : Graph) (x : NodeId) : Bool := (g.shape x).isConstant

def hasValue (g : Graph) (q : Rat) (x : NodeId) : Bool := g.value? x = some q

/-- Node numbers are 32-bit words, the largest of which is no node's. -/
def capacity : Nat := 4294967295

/-- Adds a node without looking for an equal one. -/
def append (node : Node) : Build NodeId := do
  let x := (← get).size
  if x ≥ capacity then throw .graphFull
  if !node.operands.all (· < x) then throw .operandOutsideGraph
  modify fun g => { g with nodes := g.nodes.push node }
  return x

/-- The node of a shape over given operands, added if there is none. -/
def intern (shape : Shape) (operands : List NodeId) : Build NodeId := do
  match (← get).index[(shape, operands)]? with
  | some x => return x
  | none =>
    let x ← append { shape, operands }
    modify fun g => { g with index := g.index.insert (shape, operands) x }
    return x

def constant (q : Rat) : Build NodeId := intern (.constant q) []

def symbol (name : String) : Build NodeId := intern (.symbol name) []

def boolean (b : Bool) : NodeId := if b then one else zero

/-- Numbers a function on its first use. -/
def register (f : Callee) : Build Unit :=
  modify fun g => if g.callees.contains f then g else { g with callees := g.callees.push f }

def call (f : Callee) (operands : List NodeId) : Build NodeId := do
  register f
  intern (.call f) operands

def binary (op : Operator) (l r : NodeId) : Build NodeId := intern (.binary op) [l, r]

def unary (op : Operator) (x : NodeId) : Build NodeId := intern (.unary op) [x]

def set (members : List NodeId) : Build NodeId := intern .set members

def arrow (l r : NodeId) : Build NodeId := intern .arrow [l, r]

/-- A fresh symbol, equal to no other, that stands for a node whose body is still being built. -/
def openLoop (label : String) : Build NodeId := append { shape := .symbol label }

/-- Gives a placeholder the structure of a body, in which it may occur. -/
def closeLoop (placeholder body : NodeId) : Build Unit := do
  let g ← get
  if !(g.contains placeholder && g.contains body) then throw .closingUnknownNode
  match g.node placeholder, g.node body with
  | { shape := .symbol label, isLoop := false, .. }, content =>
    modify fun g => { g with
      labels := g.labels.insert placeholder label
      nodes := g.nodes.setIfInBounds placeholder { content with isLoop := true } }
  | _, _ => throw .closingNonPlaceholder

def label? (g : Graph) (x : NodeId) : Option String := g.labels[x]?

def form? (g : Graph) (x : NodeId) : Option NodeId := g.forms[x]?

def recordForm (x form : NodeId) : Build Unit :=
  modify fun g => { g with forms := g.forms.insert x form }

/-- The operand at a position. -/
def operand (g : Graph) (x : NodeId) (position : Nat) : Except Error NodeId :=
  match (g.operands x)[position]? with
  | some y => .ok y
  | none => .error .noSuchOperand

def spelling (g : Graph) (x : NodeId) : Except Error String :=
  match g.shape x with
  | .symbol name => .ok name
  | _ => .error .notSymbol

def value (g : Graph) (x : NodeId) : Except Error Rat :=
  match g.value? x with
  | some q => .ok q
  | none => .error .notConstant

def callee (g : Graph) (x : NodeId) : Except Error Callee :=
  match g.shape x with
  | .call f => .ok f
  | _ => .error .notCall

def loopName (g : Graph) (x : NodeId) : Except Error String :=
  match g.label? x with
  | some name => .ok name
  | none => .error .notRecursive

end Graph

end ExactAlgebra
