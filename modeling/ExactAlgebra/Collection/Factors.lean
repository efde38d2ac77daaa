import ExactAlgebra.Collection.Terms
import ExactAlgebra.Rational.Power

/-!
Combining like factors. A factor is a base raised to a constant exponent; the exponents of equal
bases add up, and the constants fold into one, which goes into a sum among the bases if it can.
-/

namespace ExactAlgebra.Graph

/-- What was read of a list of factors: exponents of bases, and the product of the constants. -/
structure Factors where
  exponents : Weights NodeId := .empty
  constant : Rat := 1

/-- The base and the constant exponent of a power. -/
def constantPower? (g : Graph) (x : NodeId) : Option (NodeId × Rat) :=
  if (g.node x).isOpenPower then
    match g.operands x with
    | [base, exponent] => (g.value? exponent).map fun e => (base, e)
    | _ => none
  else none

namespace Factors

/-- Takes in one factor. -/
def read (g : Graph) (fs : Factors) (factor : NodeId) : Factors :=
  match g.value? factor with
  | some q => { fs with constant := fs.constant * q }
  | none =>
    match g.constantPower? factor with
    | some (base, e) => { fs with exponents := fs.exponents.add base e }
    | none => { fs with exponents := fs.exponents.add factor 1 }

/-- Takes in a factor, which may be a product. -/
def readFactor (g : Graph) (fs : Factors) (x : NodeId) : Factors :=
  (g.factors x).foldl (read g) fs

/-- The exact value of a constant base raised to its exponent. Zero is not divided by. -/
def baseValue? (g : Graph) (base : NodeId) (e : Rat) : Except Error (Option Rat) :=
  match g.value? base with
  | none => .ok none
  | some b => if b = 0 ∧ e < 0 then .ok none else Rational.power b e

/-- Moves an entry with an exact value into the constant. -/
def foldBase (g : Graph) (fs : Factors) (entry : NodeId × Rat) : Except Error Factors := do
  match ← baseValue? g entry.1 entry.2 with
  | some q => return ⟨fs.exponents.erase entry.1, fs.constant * q⟩
  | none => return fs

def foldBases (g : Graph) (fs : Factors) : Except Error Factors :=
  fs.exponents.entries.foldlM (foldBase g) fs

/-- The first sum that stands as a factor or as a divisor, and its exponent. -/
def hostSum? (g : Graph) (fs : Factors) : Option (NodeId × Rat) :=
  fs.exponents.entries.find? fun (x, e) => (g.node x).isOpenSum && (e = 1 || e = -1)

/-- What a sum under an exponent is multiplied by to take in the constant. -/
def scale (fs : Factors) (e : Rat) : Except Error Rat :=
  if e < 0 then Rational.reciprocal fs.constant else .ok fs.constant

/-- Moves the constant among the factors: into a sum if there is one, else as a factor. -/
def placeConstant (fs : Factors) : Build (Weights NodeId) := do
  if fs.constant = 1 then return fs.exponents
  match hostSum? (← get) fs with
  | some (x, e) =>
    let scaled ← scaleSum (← ofExcept (fs.scale e)) x
    return (fs.exponents.erase x).add scaled e
  | none => return fs.exponents.add (← Graph.constant fs.constant) 1

end Factors

/-- The power with a base and an exponent, unless the exponent is zero. -/
def weightedFactor? (entry : NodeId × Rat) : Build (Option NodeId) := do
  if entry.2 = 0 then return none
  let base ← checked entry.1
  if entry.2 = 1 then return base
  power base (← constant entry.2)

/-- The product of the factors that were read. -/
def Factors.emit (fs : Factors) : Build NodeId := do
  let fs ← ofExcept (fs.foldBases (← get))
  if fs.constant = 0 then return zero
  product (← (← fs.placeConstant).entries.filterMapM weightedFactor?)

/-- The product of factors, like factors combined. -/
def combineFactors (factors : List NodeId) : Build NodeId := do
  let g ← get
  (factors.foldl (Factors.readFactor g) {}).emit

end ExactAlgebra.Graph
