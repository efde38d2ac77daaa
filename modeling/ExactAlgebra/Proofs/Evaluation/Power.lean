import ExactAlgebra.Evaluation.Rules
import ExactAlgebra.Proofs.Collection.Folding
import ExactAlgebra.Proofs.Graph.Construction

/-!
Raising an evaluated base to an evaluated exponent never fails either: a base that is zero is dealt
with before the power is taken.
-/

namespace ExactAlgebra.Evaluation

/-- The exact value of a power whose base and exponent are constants. -/
def foldedPower? (b e : Option Rat) : Option Rat := do
  (Rational.power (← b) (← e)).toOption.join

theorem constantPower?_eq {b e : Option Rat} (h : b ≠ some 0) :
    constantPower? b e = .ok (foldedPower? b e) := by
  cases b with
  | none => rfl
  | some b =>
    cases e with
    | none => rfl
    | some e => exact Rational.power_eq_ok fun hb => h (congrArg some hb.1)

/-- The power of an evaluated base and an evaluated exponent, zero being dealt with first. -/
theorem foldPower_eq (l r : NodeId) : foldPower l r = (do
    let g ← get
    let b := g.value? l
    let e := g.value? r
    if b = some 0 then return Graph.zero
    if b = some 1 then return Graph.one
    if e = some 0 then return Graph.one
    if e = some 1 then return l
    match foldedPower? b e with
    | some q => Graph.constant q
    | none => Graph.power l r) := by
  funext g
  simp only [foldPower, Graph.get_bind]
  by_cases h0 : g.value? l = some 0
  · rw [if_pos h0, if_pos h0]
  · rw [if_neg h0, if_neg h0, constantPower?_eq h0]
    rfl

end ExactAlgebra.Evaluation
