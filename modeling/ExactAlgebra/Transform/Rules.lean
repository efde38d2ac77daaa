import ExactAlgebra.Graph.Build
import ExactAlgebra.Transform.Dialogue
import ExactAlgebra.Transform.Memo

/-!
Transforming a graph by rules, with a memo. Every node is transformed once; a node that is met again
while it is being transformed, which happens on cycles only, is answered by a rule of its own.
-/

namespace ExactAlgebra

/-- How a pass transforms nodes. -/
structure Rules (τ : Type) where
  /-- The transformation of a node; nothing when the result lies outside the graph. -/
  transform : NodeId → Dialogue (Pass τ) (Option NodeId)
  /-- The answer for a node that is met inside its own transformation. -/
  onCycle : NodeId → Dialogue (Pass τ) NodeId := pure

structure Run (τ : Type) where
  memo : Memo
  pass : Pass τ

variable {τ α : Type}

/-- Carries on a dialogue, with `answer` for its questions. -/
def Step.run (answer : NodeId → EStateM Error (Run τ) NodeId) :
    Step (Pass τ) α → Memo → EStateM.Result Error (Run τ) α
  | .done (.ok a pass), memo => .ok a ⟨memo, pass⟩
  | .done (.error e pass), memo => .error e ⟨memo, pass⟩
  | .ask x pass resume, memo =>
    match answer x ⟨memo, pass⟩ with
    | .ok y ⟨memo, pass⟩ => (resume y pass).run answer memo
    | .error e run => .error e run

/-- Records the outcome of the transformation of a node. -/
def settle (x : NodeId) : EStateM.Result Error (Run τ) (Option NodeId) →
    EStateM.Result Error (Run τ) NodeId
  | .ok (some y) ⟨memo, pass⟩ =>
    if pass.graph.contains y then .ok y ⟨memo.store x y, pass⟩
    else .error .transformedOutsideGraph ⟨memo.release x, pass⟩
  | .ok none ⟨memo, pass⟩ => .error .transformedOutsideGraph ⟨memo.release x, pass⟩
  | .error e ⟨memo, pass⟩ => .error e ⟨memo.release x, pass⟩

/-- The transformation of a node, with at most `depth` questions inside one another. -/
def Rules.apply (rules : Rules τ) : Nat → NodeId → EStateM Error (Run τ) NodeId
  | 0, _, run => .error .depthExhausted run
  | depth + 1, x, ⟨memo, pass⟩ =>
    if !pass.graph.contains x then .error .askedOutsideGraph ⟨memo, pass⟩
    else match memo.mark? x with
      | some (.finished y) => .ok y ⟨memo, pass⟩
      | some .inProgress => (rules.onCycle x pass).run (rules.apply depth) memo
      | none => settle x ((rules.transform x pass).run (rules.apply depth) (memo.enter x))

namespace Dialogue

/-- Transforms the operands of a node, and builds it anew if one has changed. -/
def operands (x : NodeId) : Dialogue (Pass τ) NodeId := do
  let xs := (← graph).operands x
  let ys ← askAll xs
  if ys = xs then return x else Graph.withOperands x ys

/-- Transforms constants and symbols by `leaf`, and all other nodes through their operands. -/
def structural (leaf : NodeId → EStateM Error (Pass τ) (Option NodeId)) (x : NodeId) :
    Dialogue (Pass τ) (Option NodeId) := do
  match (← graph).shape x with
  | .constant _ | .symbol _ => quiet (leaf x)
  | _ => return some (← operands x)

end Dialogue

end ExactAlgebra
