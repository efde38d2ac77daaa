/-!
The decimal digits of natural numbers, found by halving: the leading half and the trailing half of
the digits of a long number are written separately.
-/

namespace ExactAlgebra.Rational

/-- The last `2 ^ level` digits of a number, leading zeros included. -/
def trailingDigits : Nat → Nat → List Char
  | 0, n => [Nat.digitChar (n % 10)]
  | level + 1, n =>
    let p := 10 ^ 2 ^ level
    trailingDigits level (n / p) ++ trailingDigits level (n % p)

/-- A level at which all digits are written, since a decimal digit is worth two binary ones. -/
def digitLevel (n : Nat) : Nat := n.log2.log2

/-- The digits of a number, without leading zeros but never empty. -/
def decimalDigits (n : Nat) : List Char :=
  match (trailingDigits (digitLevel n) n).dropWhile (· == '0') with
  | [] => ['0']
  | digits => digits

def decimal (n : Nat) : String := String.ofList (decimalDigits n)

def signedDecimal (n : Int) : String := if n < 0 then "-" ++ decimal n.natAbs else decimal n.natAbs

end ExactAlgebra.Rational
