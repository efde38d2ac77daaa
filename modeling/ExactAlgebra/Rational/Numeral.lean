import ExactAlgebra.Error

/-!
Reading rational numbers: decimal integers, and fractions `p/q` of two of them.
-/

namespace ExactAlgebra.Rational

/-- The blanks allowed in a numeral: space, tab, line feed, vertical tab, form feed, return. -/
def isBlank (c : Char) : Bool :=
  c == ' ' || ('\t' ≤ c && c ≤ '\r')

def digitValue (c : Char) : Nat := c.toNat - '0'.toNat

/-- The value of a list of digits, blanks between them left out. -/
def readDigits? : List Char → Nat → Option Nat
  | [], value => some value
  | c :: rest, value =>
    if isBlank c then readDigits? rest value
    else if c.isDigit then readDigits? rest (10 * value + digitValue c)
    else none

/-- At least one digit, and it comes first. -/
def readNatural? : List Char → Option Nat
  | [] => none
  | c :: rest => if c.isDigit then readDigits? (c :: rest) 0 else none

/-- Blanks, an optional minus sign, and digits at once after it. -/
def readInteger? (source : List Char) : Option Int :=
  match source.dropWhile isBlank with
  | '-' :: rest => (readNatural? rest).map fun n => -(n : Int)
  | rest => (readNatural? rest).map Int.ofNat

/-- The numerator and the denominator of a numeral, each as it is written. -/
def readFraction? (source : List Char) : Option (Int × Int) :=
  match source.dropWhile (· ≠ '/') with
  | [] => (readInteger? source).map fun p => (p, 1)
  | _ :: rest => do
    let p ← readInteger? (source.takeWhile (· ≠ '/'))
    let q ← readInteger? rest
    return (p, q)

/-- A fraction of integers of any sign. -/
def ofFraction (p q : Int) : Rat :=
  if q < 0 then mkRat (-p) q.natAbs else mkRat p q.natAbs

/-- The numeral ends before the first NUL of its text. -/
def parse (source : String) : Except Error Rat :=
  match readFraction? (source.toList.takeWhile (· ≠ '\x00')) with
  | none => .error (.unreadableNumeral source)
  | some (p, q) => if q = 0 then .error (.zeroDenominatorIn source) else .ok (ofFraction p q)

/-- The quotient of two integers. -/
def quotient (p q : Int) : Except Error Rat :=
  if q = 0 then .error .zeroDenominator else .ok (ofFraction p q)

end ExactAlgebra.Rational
