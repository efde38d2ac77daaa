import ExactAlgebra.Error
import ExactAlgebra.Rational.Root

/-!
Arithmetic on rationals that can fail: division, and powers with a rational exponent, which are
given only where they are rational themselves.
-/

namespace ExactAlgebra.Rational

def divide (a b : Rat) : Except Error Rat :=
  if b = 0 then .error .divisionByZero else .ok (a / b)

def reciprocal (a : Rat) : Except Error Rat := divide 1 a

def IsInteger (a : Rat) : Prop := a.den = 1

instance (a : Rat) : Decidable (IsInteger a) := inferInstanceAs (Decidable (a.den = 1))

/-- `1`, `0` or `-1`. -/
def sign (a : Rat) : Int := a.num.sign

def magnitude (a : Rat) : Rat := if a < 0 then -a else a

/-- The real `q`-th root of `b` that is positive when `q` is even, if it is rational. -/
def root? (q : Nat) (b : Rat) : Option Rat :=
  if q = 1 then some b
  else if b < 0 ∧ q % 2 = 0 then none
  else do
    let n ← exactRoot? q b.num.natAbs
    let d ← exactRoot? q b.den
    return mkRat (b.num.sign * n) d

def integerPower (b : Rat) (k : Int) : Rat :=
  if k < 0 then (b ^ k.natAbs)⁻¹ else b ^ k.natAbs

/-- Exponents whose numerator or denominator is larger are left alone. -/
def exponentLimit : Nat := 65536

/-- The exact value of `b ^ e`, or nothing where it is irrational or the exponent too large. -/
def power (b e : Rat) : Except Error (Option Rat) :=
  if e.num.natAbs > exponentLimit ∨ e.den > exponentLimit then .ok none
  else if b = 0 then
    if e < 0 then .error .zeroToNegativePower
    else .ok (some (if e = 0 then 1 else 0))
  else .ok ((root? e.den b).map (integerPower · e.num))

end ExactAlgebra.Rational
