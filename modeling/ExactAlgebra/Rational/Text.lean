import ExactAlgebra.Rational.Decimal

/-!
The written form of a rational number: `p` for an integer and `p/q` in lowest terms otherwise.
-/

namespace ExactAlgebra.Rational

/-- The numerator, followed by the denominator unless that is one. -/
def text (q : Rat) : String :=
  if q.den = 1 then signedDecimal q.num else signedDecimal q.num ++ "/" ++ decimal q.den

end ExactAlgebra.Rational
