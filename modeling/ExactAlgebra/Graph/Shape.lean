import Std.Data.HashMap

/-!
What a node of an expression graph is, apart from the graph: its shape, its operands, and whether
it may reach itself through them.
-/

namespace ExactAlgebra

abbrev NodeId := Nat

/-- The operators of two-place and one-place nodes, in their canonical order. -/
inductive Operator where
  | plain
  | equal
  | notEqual
  | less
  | lessEqual
  | greater
  | greaterEqual
  | conjunction
  | disjunction
  | substitution
  | negation
deriving DecidableEq, Hashable, Repr, Inhabited

/-- A function that call nodes can name; two with one key are the same function. -/
structure Callee where
  key : Nat
  name : String
deriving DecidableEq, Hashable, Repr, Inhabited

/-- All of a node except its operands. -/
inductive Shape where
  | constant (value : Rat)
  | symbol (name : String)
  | sum
  | product
  | power
  | binary (op : Operator)
  | unary (op : Operator)
  | call (callee : Callee)
  | set
  | arrow
deriving DecidableEq, Hashable, Repr, Inhabited

structure Node where
  shape : Shape
  operands : List NodeId := []
  /-- Whether the node was closed over its own placeholder, and so may reach itself. -/
  isLoop : Bool := false
deriving DecidableEq, Repr, Inhabited

namespace Operator

def rank : Operator → Nat
  | plain => 0
  | equal => 1
  | notEqual => 2
  | less => 3
  | lessEqual => 4
  | greater => 5
  | greaterEqual => 6
  | conjunction => 7
  | disjunction => 8
  | substitution => 9
  | negation => 10

/-- The text between two operands, or before a single one. -/
def text : Operator → String
  | plain => ""
  | equal => " = "
  | notEqual => " != "
  | less => " < "
  | lessEqual => " <= "
  | greater => " > "
  | greaterEqual => " >= "
  | conjunction => " and "
  | disjunction => " or "
  | substitution => " := "
  | negation => "not "

end Operator

namespace Shape

/-- The place of a shape's kind in the canonical order of operands. -/
def rank : Shape → Nat
  | constant _ => 0
  | symbol _ => 1
  | power => 2
  | product => 3
  | sum => 4
  | call _ => 5
  | unary _ => 6
  | binary _ => 7
  | set => 8
  | arrow => 9

def isConstant : Shape → Bool
  | constant _ => true
  | _ => false

def value? : Shape → Option Rat
  | constant q => some q
  | _ => none

def op : Shape → Operator
  | binary o => o
  | unary o => o
  | _ => .plain

end Shape

namespace Node

/-- A sum that may be merged into a sum around it. -/
def isOpenSum (n : Node) : Bool := n.shape == .sum && !n.isLoop

/-- A product that may be merged into a product around it. -/
def isOpenProduct (n : Node) : Bool := n.shape == .product && !n.isLoop

def isOpenPower (n : Node) : Bool := n.shape == .power && !n.isLoop

end Node

end ExactAlgebra
