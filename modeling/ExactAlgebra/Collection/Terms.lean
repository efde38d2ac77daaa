import ExactAlgebra.Collection.Weights
import ExactAlgebra.Graph.Build

/-!
Combining like terms. A term is its first constant factor, the coefficient, times a bare term; the
coefficients of equal bare terms add up, and the constants fold into one.
-/

namespace ExactAlgebra.Graph

/-- The factors around the first constant one, and its value. -/
def splitFactors (g : Graph) : List NodeId → Option (Rat × List NodeId)
  | [] => none
  | x :: xs =>
    match g.value? x with
    | some q => some (q, xs)
    | none => (splitFactors g xs).map fun (q, rest) => (q, x :: rest)

/-- The coefficient of a term and its bare term. -/
def extractCoefficient (term : NodeId) : Build (Rat × NodeId) := do
  let g ← get
  match g.splitFactors (g.factors term) with
  | none => return (1, term)
  | some (q, rest) => return (q, ← product rest)

/-- A term times a constant, which goes into its coefficient. -/
def scaleTerm (c : Rat) (term : NodeId) : Build NodeId := do
  match (← get).value? term with
  | some q => constant (q * c)
  | none =>
    let (q, rest) ← extractCoefficient term
    product [← constant (q * c), rest]

/-- A sum with each of its terms multiplied by a constant. -/
def scaleSum (c : Rat) (x : NodeId) : Build NodeId := do
  sum (← ((← get).terms x).mapM (scaleTerm c))

/-- What was read of a list of addends: coefficients of bare terms, and the sum of the constants. -/
structure Terms where
  bare : Weights NodeId := .empty
  constant : Rat := 0

namespace Terms

/-- Takes in one term. -/
def read (ts : Terms) (term : NodeId) : Build Terms := do
  match (← get).value? term with
  | some q => return { ts with constant := ts.constant + q }
  | none =>
    let (q, bare) ← extractCoefficient term
    return { ts with bare := ts.bare.add bare q }

/-- Takes in an addend, which may be a sum. -/
def readAddend (ts : Terms) (x : NodeId) : Build Terms := do
  ((← get).terms x).foldlM read ts

end Terms

/-- The node of a number that came from outside. -/
def checked (x : NodeId) : Build NodeId := do
  if (← get).contains x then return x else throw .badHandle

/-- The term with a bare term and a coefficient, unless the coefficient is zero. -/
def weightedTerm? (entry : NodeId × Rat) : Build (Option NodeId) := do
  if entry.2 = 0 then return none
  let bare ← checked entry.1
  if entry.2 = 1 then return bare
  product [bare, ← constant entry.2]

/-- The sum of the terms that were read; the constant is a term like the others. -/
def Terms.emit (ts : Terms) : Build NodeId := do
  let all ← if ts.constant = 0 then pure ts.bare
    else do pure (ts.bare.add (← Graph.constant ts.constant) 1)
  sum (← all.entries.filterMapM weightedTerm?)

/-- The sum of addends, like terms combined. -/
def combineTerms (addends : List NodeId) : Build NodeId := do
  (← addends.foldlM Terms.readAddend {}).emit

end ExactAlgebra.Graph
