import ExactAlgebra.Evaluation.Library
import ExactAlgebra.Rational.Power

/-!
The functions of rationals that every evaluation knows.
-/

namespace ExactAlgebra

inductive Builtin where
  | abs
  | sign
  | min
  | max
  | floor
  | ceil
  | sqrt
  | inv
deriving DecidableEq, Repr

namespace Builtin

def all : List Builtin := [abs, sign, min, max, floor, ceil, sqrt, inv]

def name : Builtin → String
  | abs => "abs"
  | sign => "sign"
  | min => "min"
  | max => "max"
  | floor => "floor"
  | ceil => "ceil"
  | sqrt => "sqrt"
  | inv => "inv"

def arity : Builtin → Nat
  | min | max => 2
  | _ => 1

def key (b : Builtin) : Nat := all.idxOf b

def callee (b : Builtin) : Callee := ⟨b.key, b.name⟩

/-- Only the square roots that are rational have a value. -/
def squareRoot (x : Rat) : Except Error (Option Rat) :=
  if x < 0 then .error (.rootOfNegative x) else Rational.power x (1 / 2)

/-- Arguments beyond the arity are not looked at. -/
def apply : Builtin → List Rat → Except Error (Option Rat)
  | abs, x :: _ => .ok (some (Rational.magnitude x))
  | sign, x :: _ => .ok (some (Rational.sign x))
  | min, x :: y :: _ => .ok (some (if y < x then y else x))
  | max, x :: y :: _ => .ok (some (if x < y then y else x))
  | floor, x :: _ => .ok (some x.floor)
  | ceil, x :: _ => .ok (some x.ceil)
  | sqrt, x :: _ => squareRoot x
  | inv, x :: _ => (Rational.reciprocal x).map some
  | _, _ => .ok none

def behaviour (b : Builtin) : Behaviour := .real b.arity b.apply

def ofKey? (key : Nat) : Option Builtin := all[key]?

def ofName? (name : String) : Option Builtin := all.find? (·.name = name)

end Builtin

/-- The built-in functions, and another library for the functions that are not built in. -/
def Library.withBuiltins (rest : Library) : Library := fun f =>
  match Builtin.ofKey? f.key with
  | some b => b.behaviour
  | none => rest f

end ExactAlgebra
