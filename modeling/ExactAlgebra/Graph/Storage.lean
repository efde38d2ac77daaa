import ExactAlgebra.Graph.Basic

/-!
How a graph is laid out in memory: one pool with the operands of all nodes, one list after another,
and for each node a header of fixed size, which has the place and the length of its own list as
32-bit words. Nothing checks that they fit; only the number of nodes is checked.
-/

namespace ExactAlgebra

structure Header where
  shape : Shape
  start : UInt32
  count : UInt32
  isLoop : Bool := false
deriving DecidableEq, Repr, Inhabited

/-- The header of a node whose operands begin at a place of the pool. -/
def Node.header (n : Node) (start : Nat) : Header where
  shape := n.shape
  start := UInt32.ofNat start
  count := UInt32.ofNat n.operands.length
  isLoop := n.isLoop

structure Storage where
  headers : Array Header
  pool : Array NodeId

namespace Storage

/-- The storage of the graph that holds the constants `0` and `1` only. -/
def empty : Storage where
  headers := #[Node.header { shape := .constant 0 } 0, Node.header { shape := .constant 1 } 0]
  pool := #[]

def header (s : Storage) (x : NodeId) : Header :=
  s.headers[x]?.getD (Node.header { shape := .constant 0 } 0)

/-- The node that is read back from a header. -/
def read (s : Storage) (h : Header) : Node where
  shape := h.shape
  operands := (s.pool.extract h.start.toNat (h.start.toNat + h.count.toNat)).toList
  isLoop := h.isLoop

def node (s : Storage) (x : NodeId) : Node := s.read (s.header x)

def append (s : Storage) (n : Node) : Storage where
  headers := s.headers.push (n.header s.pool.size)
  pool := s.pool ++ n.operands.toArray

/-- A placeholder takes over the header of its body, and so shares its operands. -/
def close (s : Storage) (x y : NodeId) : Storage :=
  { s with headers := s.headers.setIfInBounds x { s.header y with isLoop := true } }

end Storage

end ExactAlgebra
