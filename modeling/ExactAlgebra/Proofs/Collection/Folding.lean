import ExactAlgebra.Collection.Factors

/-!
Folding constants never fails: zero is not raised to a negative power, and not divided by where a
constant goes into a divisor.
-/

namespace ExactAlgebra

/-- Zero to a negative power is all that has no outcome. -/
theorem Rational.power_eq_ok {b e : Rat} (h : ¬ (b = 0 ∧ e < 0)) :
    power b e = .ok (power b e).toOption.join := by
  unfold power
  by_cases hlimit : e.num.natAbs > exponentLimit ∨ e.den > exponentLimit
  · rw [if_pos hlimit]
    rfl
  rw [if_neg hlimit]
  by_cases hb : b = 0
  · rw [if_pos hb, if_neg fun he => h ⟨hb, he⟩]
    rfl
  · rw [if_neg hb]
    rfl

namespace Graph

/-- The exact value of a constant base raised to its exponent. -/
def foldedValue? (g : Graph) (base : NodeId) (e : Rat) : Option Rat :=
  match g.value? base with
  | none => none
  | some b => if b = 0 ∧ e < 0 then none else (Rational.power b e).toOption.join

theorem baseValue?_eq (g : Graph) (base : NodeId) (e : Rat) :
    Factors.baseValue? g base e = .ok (foldedValue? g base e) := by
  unfold Factors.baseValue? foldedValue?
  cases g.value? base with
  | none => rfl
  | some b =>
    simp only
    split
    · rfl
    · next h => exact Rational.power_eq_ok h

namespace Factors

/-- Moves an entry with an exact value into the constant. -/
def foldEntry (g : Graph) (fs : Factors) (entry : NodeId × Rat) : Factors :=
  match foldedValue? g entry.1 entry.2 with
  | some q => ⟨fs.exponents.erase entry.1, fs.constant * q⟩
  | none => fs

def foldConstants (g : Graph) (fs : Factors) : Factors :=
  fs.exponents.entries.foldl (foldEntry g) fs

theorem foldBase_eq (g : Graph) (fs : Factors) (r : NodeId × Rat) :
    fs.foldBase g r = .ok (fs.foldEntry g r) := by
  unfold foldBase foldEntry
  rw [baseValue?_eq]
  cases foldedValue? g r.1 r.2 <;> rfl

theorem foldBases_eq (g : Graph) (fs : Factors) : fs.foldBases g = .ok (fs.foldConstants g) := by
  have hfold : ∀ (es : List (NodeId × Rat)) (fs : Factors),
      es.foldlM (foldBase g) fs = .ok (es.foldl (foldEntry g) fs) := by
    intro es
    induction es with
    | nil => exact fun _ => rfl
    | cons r es ih =>
      intro fs
      rw [List.foldlM_cons, foldBase_eq]
      exact ih (fs.foldEntry g r)
  exact hfold _ fs

theorem scale_eq {fs : Factors} (h : fs.constant ≠ 0) (e : Rat) :
    fs.scale e = .ok (if e < 0 then fs.constant⁻¹ else fs.constant) := by
  unfold scale Rational.reciprocal Rational.divide
  rw [if_neg h, Rat.div_def, Rat.one_mul]
  split <;> rfl

/-- Putting together the factors, the folding of constants being done. -/
theorem emit_eq (fs : Factors) : fs.emit = (do
    let fs := fs.foldConstants (← get)
    if fs.constant = 0 then return zero
    product (← (← fs.placeConstant).entries.filterMapM weightedFactor?)) := by
  funext g
  simp only [emit, foldBases_eq]
  rfl

theorem placeConstant_eq {fs : Factors} (h : fs.constant ≠ 0) : fs.placeConstant = (do
    if fs.constant = 1 then return fs.exponents
    match hostSum? (← get) fs with
    | some (x, e) =>
      let scaled ← scaleSum (if e < 0 then fs.constant⁻¹ else fs.constant) x
      return (fs.exponents.erase x).add scaled e
    | none => return fs.exponents.add (← Graph.constant fs.constant) 1) := by
  funext g
  simp only [placeConstant, scale_eq h]
  rfl

end Factors

end Graph

end ExactAlgebra
