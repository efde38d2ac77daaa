import ExactAlgebra.Transform.Rules

/-!
Replacing nodes of a graph by others, all at once. A node is looked up before its operands are
visited, and a replacement is not searched again.
-/

namespace ExactAlgebra

/-- Pairs of a node and its replacement; of two pairs for one node the later counts. -/
abbrev Substitution := List (NodeId × NodeId)

namespace Substitution

def value? (s : Substitution) (x : NodeId) : Option NodeId := s.reverse.lookup x

def rules (s : Substitution) : Rules Unit where
  transform x :=
    match s.value? x with
    | some y => pure (some y)
    | none => Dialogue.structural (fun x => pure (some x)) x

end Substitution

namespace Graph

/-- Every node is entered at most once, so that more depth than nodes is enough. -/
def substitutionDepth (g : Graph) : Nat := g.size + 1

def substitute (s : Substitution) (x : NodeId) : Build NodeId := fun g =>
  if s.isEmpty then .ok x g
  else
    match s.rules.apply g.substitutionDepth x ⟨{}, ⟨g, ()⟩⟩ with
    | .ok y run => .ok y run.pass.graph
    | .error e run => .error e run.pass.graph

/-- The pair that an arrow denotes. -/
def arrowPair (x : NodeId) : Build (NodeId × NodeId) := do
  let g ← get
  match g.shape x, g.operands x with
  | .arrow, [key, value] => return (key, value)
  | .arrow, _ => throw .noSuchOperand
  | _, _ => throw .bindingIsNoArrow

/-- The pairs that an arrow or a set of arrows denotes. -/
def arrowPairs (x : NodeId) : Build Substitution := do
  let g ← get
  match g.shape x with
  | .set => (g.operands x).mapM arrowPair
  | _ => return [← arrowPair x]

end Graph

end ExactAlgebra
