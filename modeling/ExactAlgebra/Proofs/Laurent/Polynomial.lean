import Mathlib.Algebra.MonoidAlgebra.Basic
import Mathlib.LinearAlgebra.LinearIndependent.Basic
import Mathlib.Tactic.NormNum

/-!
Laurent polynomials and their values at points without zeros. Two polynomials that have the same
values everywhere are the same, since monomials are different characters of the group of points.
-/

namespace ExactAlgebra

/-- Laurent polynomials over the rationals; a monomial gives each name an exponent. -/
abbrev Laurent := AddMonoidAlgebra ℚ (String →₀ ℤ)

namespace Laurent

variable {ρ : String → ℚˣ} {p q : Laurent}

def monomialValue (ρ : String → ℚˣ) : Multiplicative (String →₀ ℤ) →* ℚˣ where
  toFun m := m.toAdd.prod fun name n => ρ name ^ n
  map_one' := Finsupp.prod_zero_index
  map_mul' _ _ := Finsupp.prod_add_index' (fun _ => zpow_zero _) fun _ _ _ => zpow_add _ _ _

/-- The value at a point. -/
noncomputable def value (ρ : String → ℚˣ) : Laurent →ₐ[ℚ] ℚ :=
  AddMonoidAlgebra.lift ℚ ℚ (String →₀ ℤ) ((Units.coeHom ℚ).comp (monomialValue ρ))

/-- A symbol with an exponent. -/
noncomputable def power (name : String) (n : ℤ) : Laurent :=
  AddMonoidAlgebra.single (Finsupp.single name n) 1

noncomputable def constant (c : ℚ) : Laurent := AddMonoidAlgebra.single 0 c

theorem value_single (m : String →₀ ℤ) (c : ℚ) :
    value ρ (AddMonoidAlgebra.single m c) = c * monomialValue ρ (Multiplicative.ofAdd m) := by
  rw [value, AddMonoidAlgebra.lift_single, smul_eq_mul]
  rfl

theorem value_constant (c : ℚ) : value ρ (constant c) = c := by
  rw [constant, value_single, ofAdd_zero, map_one, Units.val_one, mul_one]

theorem monomialValue_single (name : String) (n : ℤ) :
    monomialValue ρ (Multiplicative.ofAdd (Finsupp.single name n)) = ρ name ^ n :=
  Finsupp.prod_single_index (zpow_zero _)

theorem value_power (name : String) (n : ℤ) : value ρ (power name n) = (ρ name : ℚ) ^ n := by
  rw [power, value_single, monomialValue_single, one_mul, Units.val_zpow_eq_zpow_val]

/-- A monomial as a function of the point. -/
noncomputable def character (m : String →₀ ℤ) : (String → ℚˣ) →* ℚ where
  toFun ρ := monomialValue ρ (Multiplicative.ofAdd m)
  map_one' := by
    have h : monomialValue 1 (Multiplicative.ofAdd m) = 1 :=
      Finset.prod_eq_one fun name _ => one_zpow (m name)
    rw [h, Units.val_one]
  map_mul' ρ ρ' := by
    have h : monomialValue (ρ * ρ') (Multiplicative.ofAdd m) =
        monomialValue ρ (Multiplicative.ofAdd m) * monomialValue ρ' (Multiplicative.ofAdd m) := by
      rw [monomialValue, monomialValue, monomialValue]
      exact (Finset.prod_congr rfl fun name _ => mul_zpow (ρ name) (ρ' name) (m name)).trans
        Finset.prod_mul_distrib
    rw [h, Units.val_mul]

/-- The point with `2` for one name, and `1` for all others. -/
def twoAt (name : String) : String → ℚˣ :=
  Pi.mulSingle name (Units.mk0 2 two_ne_zero)

theorem character_twoAt (m : String →₀ ℤ) (name : String) :
    character m (twoAt name) = 2 ^ m name := by
  have h : monomialValue (twoAt name) (Multiplicative.ofAdd m) = twoAt name name ^ m name := by
    refine Finsupp.prod_eq_single name (fun other _ hne => ?_) fun _ => zpow_zero _
    rw [twoAt, Pi.mulSingle_eq_of_ne hne, one_zpow]
  rw [twoAt, Pi.mulSingle_eq_same] at h
  exact (congrArg Units.val h).trans (Units.val_zpow_eq_zpow_val ..)

theorem character_injective : Function.Injective character := by
  intro m m' h
  ext name
  have htwo : (2 : ℚ) ^ m name = 2 ^ m' name := by
    rw [← character_twoAt, ← character_twoAt, h]
  exact zpow_right_injective₀ two_pos (by norm_num) htwo

/-- Polynomials with the same values are the same. -/
theorem eq_of_value (h : ∀ ρ, value ρ p = value ρ q) : p = q := by
  have hchar := (linearIndependent_monoidHom (String → ℚˣ) ℚ).comp character character_injective
  have hvalue : ∀ (p : Laurent) ρ,
      Finsupp.linearCombination ℚ (fun m => (character m : (String → ℚˣ) → ℚ)) p.coeff ρ =
        value ρ p := by
    intro p ρ
    rw [value, AddMonoidAlgebra.lift_apply, Finsupp.linearCombination_apply, Finsupp.sum,
      Finset.sum_apply]
    rfl
  have hcoeff : p.coeff = q.coeff := by
    apply hchar
    funext ρ
    exact (hvalue p ρ).trans ((h ρ).trans (hvalue q ρ).symm)
  exact AddMonoidAlgebra.coeff_injective hcoeff

end Laurent

end ExactAlgebra
