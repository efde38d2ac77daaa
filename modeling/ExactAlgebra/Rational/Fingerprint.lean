import ExactAlgebra.Rational.Power

/-!
A 64-bit fingerprint of a rational.
-/

namespace ExactAlgebra.Rational

/-- The golden ratio's fraction in 64 bits, which spreads neighbouring values. -/
def goldenWord : UInt64 := 0x9e3779b97f4a7c15

/-- Mixes the low words of numerator and denominator with the sign; all arithmetic wraps. -/
def fingerprint (a : Rat) : UInt64 :=
  let p := a.num.natAbs.toUInt64
  let q := a.den.toUInt64
  p ^^^ (q + goldenWord + (p <<< 6) + (p >>> 2)) ^^^ (sign a + 1).toNat.toUInt64

/-- The signed number that a 64-bit word stands for. -/
def ofWord (w : UInt64) : Rat := w.toInt64.toInt

end ExactAlgebra.Rational
