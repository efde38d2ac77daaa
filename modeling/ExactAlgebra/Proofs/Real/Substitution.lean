import ExactAlgebra.Proofs.Real.Measure
import ExactAlgebra.Proofs.Transform.Substitution

/-!
Substitution carries real values over.
-/

namespace ExactAlgebra

open ExactAlgebra.Graph (Measures AllMeasure Plain)

variable {ρ : String → Option Rat} {s : Substitution} {g g₀ : Graph} {x y : NodeId} {u : Bool}
variable {v : ℝ} {xs ys : List NodeId} {vs : List ℝ}

namespace Substitution

end Substitution

end ExactAlgebra
