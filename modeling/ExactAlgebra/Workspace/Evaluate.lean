import ExactAlgebra.Workspace.Transformer

/-!
Substitution and evaluation of the expressions that handles name, and direct calls.
-/

namespace ExactAlgebra.Workspace

/-- Pairs of expressions of graph `k`, as pairs of its nodes. -/
def substitutionIn (k : Nat) (pairs : List (Handle × Handle)) : Work Substitution :=
  pairs.mapM fun (key, value) => do
    let (k', x, y) ← together key value
    if k' = k then return (x, y) else throw .bindingsOutsideGraph

/-- Replaces expressions by others. -/
def substitute (h : Handle) (pairs : List (Handle × Handle)) : Work Handle := do
  if pairs.isEmpty then return h
  match h with
  | .node k x =>
    let s ← substitutionIn k pairs
    make k (Graph.substitute s x)
  | .empty => throw .transformerWithoutGraph

/-- The pairs that an arrow or a set of arrows denotes. -/
def arrowPairs (h : Handle) : Work (List (Handle × Handle)) := do
  let (k, x) ← resolve h
  return (← within k (Graph.arrowPairs x)).map fun (key, value) => (.node k key, .node k value)

/-- The value of an expression, and the faults met on the way. -/
def evaluateFaults (library : Library) (depth : Nat) (h : Handle) :
    Work (Handle × Array Fault) := do
  withFreshMemo (← graphToTransform h) (Transforming.evaluate library depth h)

def evaluate (library : Library) (depth : Nat) (h : Handle) : Work Handle := do
  return (← evaluateFaults library depth h).1

/-- The value of an expression with expressions in it replaced. -/
def evaluateBound (library : Library) (depth : Nat) (h : Handle)
    (pairs : List (Handle × Handle)) : Work (Handle × Array Fault) := do
  evaluateFaults library depth (← substitute h pairs)

/-- The value of an expression at a point given as arrows. -/
def evaluateAtArrows (library : Library) (depth : Nat) (h : Handle) (arrows : List Handle) :
    Work Handle := do
  let pairs ← arrows.mapM arrowPairs
  return (← evaluateBound library depth h pairs.flatten).1

/-- The values of several expressions at one point, computed with one memo. -/
def evaluateAll (library : Library) (depth : Nat) (hs : List Handle)
    (pairs : List (Handle × Handle)) : Work (List Handle × Array Fault) := do
  match hs with
  | [] => return ([], #[])
  | first :: _ =>
    withFreshMemo (← graphToTransform first) <| hs.mapM fun h => do
      let bound ← Transforming.work (substitute h pairs)
      Transforming.evaluate library depth bound

/-- The node that a handle names in graph `k`. -/
def argumentIn (k : Nat) : Handle → Argument
  | .node k' x => if k' = k then some x else none
  | .empty => none

/-- Whether handles all name constants; the first that does not ends the search. -/
def allConstant : List Handle → Work Bool
  | [] => return true
  | h :: rest => do
    match ← value? h with
    | some _ => allConstant rest
    | none => return false

/-- Whether a function would accept arguments given by handles. -/
def accepts (behaviour : Behaviour) (k : Nat) (arguments : List Handle) : Work Bool := do
  match behaviour with
  | .real arity _ => if arguments.length = arity then allConstant arguments else return false
  | .direct accepts _ => return accepts ((← get).graph k) (arguments.map (argumentIn k))

/-- Invokes a function on arguments, whether or not it accepts them. -/
def invoke (library : Library) (f : Callee) (k : Nat) (arguments : List Handle) :
    Work Reply := do
  let reply : Build Reply ← match library f with
    | .real _ apply => do
      let qs ← arguments.mapM value
      pure (Reply.ofReal (apply qs))
    | .direct _ run => pure (run (arguments.map (argumentIn k)))
  modify fun ws => { ws with invocations := ws.invocations.push f }
  within k reply

end ExactAlgebra.Workspace
