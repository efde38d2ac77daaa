import ExactAlgebra.Graph.Basic

/-!
What the functions that calls name do. Nodes hold the names of functions only; a library says how
each of them behaves.
-/

namespace ExactAlgebra

/-- The outcome of a call that was not aborted. -/
inductive Reply where
  | value (x : NodeId)
  /-- A node of another graph. -/
  | elsewhere (graph : Graph) (x : NodeId)
  | declined
  | fault (message : String)

/-- An argument of a call; one that is no node of the graph at hand is `none`. -/
abbrev Argument := Option NodeId

inductive Behaviour where
  /-- A function of `arity` rationals, which may have no exact result, or fail. -/
  | real (arity : Nat) (apply : List Rat → Except Error (Option Rat))
  /-- A function of expressions. -/
  | direct (accepts : Graph → List Argument → Bool) (invoke : List Argument → Build Reply)

abbrev Library := Callee → Behaviour

namespace Library

/-- The library in which every function declines every call. -/
def silent : Library := fun _ => .direct (fun _ _ => false) (fun _ => pure .declined)

end Library

/-- The reply of a function of rationals: a failure is a fault. -/
def Reply.ofReal : Except Error (Option Rat) → Build Reply
  | .ok (some q) => return .value (← Graph.constant q)
  | .ok none => return .declined
  | .error e => return .fault e.message

/-- A function given by a rule on rationals has to have one. -/
def Behaviour.ofRule? (name : String) (arity : Nat) :
    Option (List Rat → Except Error (Option Rat)) → Except Error Behaviour
  | some apply => .ok (.real arity apply)
  | none => .error (.calleeWithoutBody name)

end ExactAlgebra
