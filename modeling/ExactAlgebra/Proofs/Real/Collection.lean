import ExactAlgebra.Proofs.Collection.Factors
import ExactAlgebra.Proofs.Real.Measure

/-!
Real values are a reading that collection respects. Where exponents of one base are added, the base
has the roots that either power took of it.
-/

namespace ExactAlgebra.Graph

variable {ρ : String → Option Rat} {g g' : Graph} {x : NodeId} {u : Bool} {v p p' : ℝ}
variable {e f b q : Rat} {xs : List NodeId} {vs : List ℝ}

theorem MeasuresPower.extends (h : MeasuresPower ρ g u x e p) (hx : g.Extends g') :
    MeasuresPower ρ g' u x e p := by
  obtain ⟨w, hw, hp⟩ := h.exists_base
  exact ⟨w, hw.extends hx, hp⟩

namespace MeasuresPower

theorem lt_size (h : MeasuresPower ρ g u x e p) : x < g.size := by
  obtain ⟨w, hw, -⟩ := h.exists_base
  exact hw.lt_size

theorem zero_exponent (h : MeasuresPower ρ g u x 0 p) : p = 1 := by
  obtain ⟨w, -, -, rfl⟩ := h.exists_base
  exact realPower_zero w

/-- Powers of one base are multiplied by adding the exponents up. -/
theorem add (h : MeasuresPower ρ g u x e p) (h' : MeasuresPower ρ g u x f p') :
    MeasuresPower ρ g u x (e + f) (p * p') := by
  obtain ⟨w, hw, hw0, rfl⟩ := h.exists_base
  obtain ⟨w', hw', hw0', rfl⟩ := h'.exists_base
  obtain rfl := hw.unique hw'
  have hpos : w ≠ 0 ∨ 0 < e ∧ 0 < f := by
    by_cases hz : w = 0
    · exact .inr ⟨hw0.resolve_left (not_not.2 hz), hw0'.resolve_left (not_not.2 hz)⟩
    · exact .inl hz
  refine ⟨w, ?_, hpos.imp_right fun h => add_pos h.1 h.2,
    (realPower_add hw.rootable hw'.rootable hpos).symm⟩
  -- What is unsigned in the new power is so in one of the powers.
  by_cases hflag : (u || evenRoot e) = true
  · exact hw.mono fun _ => hflag
  · apply hw'.mono
    intro hef
    rw [Bool.or_eq_true, not_or] at hflag
    rw [Bool.or_eq_true] at hef ⊢
    exact .inr ((evenRoot_add (hef.resolve_left hflag.1)).resolve_left hflag.2)

/-- The exact powers that are computed are those that are meant. -/
theorem exact (h : MeasuresPower ρ g u x e p) (hb : g.value? x = some b)
    (hq : (Rational.power b e).toOption.join = some q) : p = q ∧ (u = true → 0 ≤ q) := by
  obtain ⟨w, hw, hw0, rfl⟩ := h.exists_base
  obtain ⟨rfl, hsign⟩ := hw.of_value? hb
  rw [Ne, Rat.cast_eq_zero] at hw0
  obtain ⟨hval, hnonneg⟩ := Rational.cast_power hw0 hq
  refine ⟨hval.symm, fun hu => hnonneg (hsign ?_)⟩
  rw [hu, Bool.true_or]

end MeasuresPower

end ExactAlgebra.Graph
