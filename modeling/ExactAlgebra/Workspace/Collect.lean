import ExactAlgebra.Collection.Factors
import ExactAlgebra.Workspace.Build
import ExactAlgebra.Workspace.Inspect

/-!
Combining like terms and like factors of expressions given by handles. Expressions of other graphs
may stand among them: their constants count, and their nodes are taken by number.
-/

namespace ExactAlgebra.Workspace

/-- The coefficient of an expression and its bare term, which is built in graph `k`. -/
def extractCoefficient (k : Nat) (h : Handle) : Work (Rat × Handle) := do
  let (k', x) ← resolve h
  let g := (← get).graph k'
  match g.splitFactors (g.factors x) with
  | none => return (1, h)
  | some (q, rest) => return (q, ← product k (rest.map (.node k')))

/-- Takes in one term. -/
def readTerm (k : Nat) (ts : Graph.Terms) (h : Handle) : Work Graph.Terms := do
  match ← value? h with
  | some q => return { ts with constant := ts.constant + q }
  | none =>
    let (q, bare) ← extractCoefficient k h
    return { ts with bare := ts.bare.add bare.id q }

/-- Takes in an addend, which may be a sum. -/
def readAddend (k : Nat) (ts : Graph.Terms) (h : Handle) : Work Graph.Terms := do
  (← terms h).foldlM (readTerm k) ts

/-- The sum of addends in graph `k`, like terms combined. -/
def combineTerms (k : Nat) (addends : List Handle) : Work Handle := do
  let ts ← addends.foldlM (readAddend k) {}
  make k ts.emit

/-- Takes in a factor, which may be a product. -/
def readFactor (fs : Graph.Factors) (h : Handle) : Work Graph.Factors := do
  inspect (fun g x => Graph.Factors.readFactor g fs x) h

/-- The product of factors in graph `k`, like factors combined. -/
def combineFactors (k : Nat) (factors : List Handle) : Work Handle := do
  let fs ← factors.foldlM readFactor {}
  make k fs.emit

/-- A term times a constant, which goes into its coefficient. -/
def scaleTerm (k : Nat) (c : Rat) (h : Handle) : Work Handle := do
  match ← value? h with
  | some q => constant k (q * c)
  | none =>
    let (q, rest) ← extractCoefficient k h
    let coefficient ← constant k (q * c)
    product k [coefficient, rest]

/-- A sum with each of its terms multiplied by a constant, in graph `k`. -/
def scaleSum (k : Nat) (c : Rat) (h : Handle) : Work Handle := do
  sum k (← (← terms h).mapM (scaleTerm k c))

end ExactAlgebra.Workspace
