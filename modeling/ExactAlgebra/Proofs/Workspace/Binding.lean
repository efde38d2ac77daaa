import ExactAlgebra.Proofs.Evaluation.Evolution
import ExactAlgebra.Proofs.Real.Binding
import ExactAlgebra.Proofs.Real.Evaluation
import ExactAlgebra.Proofs.Real.Substitution
import ExactAlgebra.Proofs.Workspace.Ending

/-!
Binding the symbols of an expression before it is evaluated and after that. Both ways agree at a
point where the expression has a real value, if no base of an even root has a negative part.
-/

namespace ExactAlgebra

open ExactAlgebra.Graph (Measures Meets Vocabulary Overflow)

variable {library : Library} {s : Substitution} {g g' : Graph} {x y : NodeId} {u : Bool} {v : ℝ}
variable {ws : Workspace} {k : Nat}

/-- Expressions without symbols and substitutions that call functions of rationals. -/
def Library.closed (library : Library) : Vocabulary :=
  ⟨fun _ => False, library.IsReal, fun op => op ≠ .substitution⟩

theorem Library.Changing.evolving (h : library.Changing Graph.Develops) : library.Evolving :=
  fun f accepts run hf xs => (h f accepts run hf xs).mono fun _ _ _ h => h.toEvolves

namespace Workspace

/-- An expression evaluated at a point, its value, and that value evaluated at the point. -/
def evaluateBothOrders (library : Library) (depth : Nat) (h : Handle)
    (pairs : List (Handle × Handle)) : Work (Handle × Handle × Handle) := do
  let bound ← evaluateAt library depth h pairs
  let value ← evaluate library depth h
  let boundLater ← evaluateAt library depth value pairs
  return (bound, value, boundLater)

/-- The graph of `(x * y) ^ 65537`, which is node `6`, and of `2` and `1 / 2`, its last nodes. -/
def highPower : Graph :=
  let symbols := (Graph.empty.extend (.symbol "x") []).extend (.symbol "y") []
  let power := ((symbols.extend .product [2, 3]).extend (.constant 65537) []).extend .power [4, 5]
  (power.extend (.constant 2) []).extend (.constant (1 / 2)) []

/-- At the point where `x` is `2` and `y` is `1 / 2`, evaluation of `(x * y) ^ 65537` gives `1`, but it
comes to no constant if the expression was evaluated before: the powers of the factors are too high
to be computed. -/
theorem evaluateBothOrders_highPower :
    (seen id ((evaluateBothOrders .silent 9 (.node 0 6) (bindings 0 [(2, 7), (3, 8)]) >>=
      fun hs => return (← value? hs.1, ← value? hs.2.2)) { graphs := #[highPower] })).1 =
        .ok (some 1, none) := by
  cbv

end Workspace

end ExactAlgebra
