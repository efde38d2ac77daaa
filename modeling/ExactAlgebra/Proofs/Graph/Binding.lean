import ExactAlgebra.Proofs.Collection.Constants
import ExactAlgebra.Proofs.Laurent.Expansion

/-!
Bound symbols. A substitution that binds symbols to constants gives values to the names of the
symbols, and the values of expressions over those names are the values at that point.
-/

namespace ExactAlgebra

variable {M : Semantics} {s : Substitution} {g g' : Graph} {x y : NodeId} {v w : Rat}
variable {xs : List NodeId} {vs : List Rat} {library : Library}

/-- A semantics with other values of symbols. -/
def Semantics.at (M : Semantics) (ρ : String → Option Rat) : Semantics := { M with symbol := ρ }

namespace Graph

theorem exists_depth (h : List.Forall₂ (g.Denotes M s) xs vs) :
    ∃ d, List.Forall₂ (fun y w => g.valueWithin? M s d y = some w) xs vs := by
  induction h with
  | nil => exact ⟨0, .nil⟩
  | cons hw _ ih =>
    obtain ⟨d, hd⟩ := hw
    obtain ⟨d', hd'⟩ := ih
    refine ⟨max d d', .cons (valueWithin?_mono hd (Nat.le_max_left d d')) ?_⟩
    exact hd'.imp fun _ _ hw => valueWithin?_mono hw (Nat.le_max_right d d')

end Graph

end ExactAlgebra
