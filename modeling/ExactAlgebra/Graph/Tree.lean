import ExactAlgebra.Graph.Basic
import ExactAlgebra.Rational.Power

/-!
Expressions as trees, and their written form.

The tree of a node shows its structure without node numbers. A self-referential node is unfolded
once; where it occurs inside itself there is only its name.
-/

namespace ExactAlgebra

inductive Tree where
  | node (shape : Shape) (operands : List Tree)
  /-- A self-referential node: its name and its structure. -/
  | loop (name : String) (shape : Shape) (operands : List Tree)
  /-- An occurrence, inside itself, of the self-referential node of this name and shape. -/
  | again (name : String) (shape : Shape)
deriving Inhabited

namespace Tree

def shape : Tree → Shape
  | node s _ => s
  | loop _ s _ => s
  | again _ s => s

/-- Sums and two-place operators stand in parentheses as factors. -/
def isLooseFactor (t : Tree) : Bool :=
  match t.shape with
  | .sum | .binary _ => true
  | _ => false

def isBinary (t : Tree) : Bool :=
  match t.shape with
  | .binary _ => true
  | _ => false

/-- Symbols, calls, sets and the natural numbers need no parentheses in a power. -/
def standsAlone : Tree → Bool
  | node (.symbol _) _ | node (.call _) _ | node .set _ => true
  | node (.constant q) _ => q.den = 1 && 0 ≤ q
  | _ => false

def enclose (needed : Bool) (text : String) : String := if needed then "(" ++ text ++ ")" else text

/-- Puts together the written forms of the operands of one node; `ts` are the operands. -/
def assemble (shape : Shape) (ts : List Tree) (texts : List String) : String :=
  let grouped (test : Tree → Bool) := List.zipWith (fun t text => enclose (test t) text) ts texts
  match shape with
  | .constant q => Rational.text q
  | .symbol name => name
  | .sum => " + ".intercalate texts
  | .product => "*".intercalate (grouped isLooseFactor)
  | .power => "^".intercalate (grouped fun t => !t.standsAlone)
  | .binary op => op.text.intercalate (grouped isBinary)
  | .unary op => op.text ++ "".intercalate (grouped fun t => !t.standsAlone)
  | .call f => f.name ++ "(" ++ ", ".intercalate texts ++ ")"
  | .set => "\x7b" ++ ", ".intercalate texts ++ "\x7d"
  | .arrow => " -> ".intercalate texts

mutual

def render : Tree → String
  | node shape ts => assemble shape ts (renderAll ts)
  | loop _ shape ts => assemble shape ts (renderAll ts)
  | again name _ => name

def renderAll : List Tree → List String
  | [] => []
  | t :: ts => render t :: renderAll ts

end

end Tree

namespace Graph

/-- The name that a self-referential node was given at first. -/
def nameOf (g : Graph) (x : NodeId) : String := (g.label? x).getD ""

/-- The tree of a node, down to a depth; `around` lists the self-referential nodes it lies in. -/
def unfoldWithin (g : Graph) : Nat → List NodeId → NodeId → Tree
  | 0, _, x => .node (g.shape x) []
  | depth + 1, around, x =>
    let shape := g.shape x
    if g.isLoop x then
      if around.contains x then .again (g.nameOf x) shape
      else .loop (g.nameOf x) shape ((g.operands x).map (unfoldWithin g depth (x :: around)))
    else .node shape ((g.operands x).map (unfoldWithin g depth around))

/--
A path through the graph enters each self-referential node at most once before it ends, and
between two of them the numbers fall.
-/
def unfoldDepth (g : Graph) : Nat := (g.size + 1) * (g.size + 1)

def tree (g : Graph) (x : NodeId) : Tree := g.unfoldWithin g.unfoldDepth [] x

def render (g : Graph) (x : NodeId) : String := (g.tree x).render

end Graph

end ExactAlgebra
