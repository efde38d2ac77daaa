import ExactAlgebra.Workspace.Basic

/-!
Building expressions from handles.
-/

namespace ExactAlgebra.Workspace

def constant (k : Nat) (q : Rat) : Work Handle := make k (Graph.constant q)

def symbol (k : Nat) (name : String) : Work Handle := make k (Graph.symbol name)

def boolean (k : Nat) (b : Bool) : Handle := .node k (Graph.boolean b)

/-- A constant in the graph of an expression. -/
def constantNear (h : Handle) (q : Rat) : Work Handle := do
  constant (← resolve h).1 q

def sum (k : Nat) (terms : List Handle) : Work Handle := do
  let xs ← nodesIn k terms
  make k (Graph.sum xs)

def product (k : Nat) (factors : List Handle) : Work Handle := do
  let xs ← nodesIn k factors
  make k (Graph.product xs)

/-- A sum in the graph of its first term. -/
def sumOf (terms : List Handle) : Work Handle := do
  sum (← graphOf "sum" terms) terms

/-- A product in the graph of its first factor. -/
def productOf (factors : List Handle) : Work Handle := do
  product (← graphOf "product" factors) factors

def power (base exponent : Handle) : Work Handle := do
  let (k, x, y) ← together base exponent
  make k (Graph.power x y)

def powerOf (base : Handle) (exponent : Rat) : Work Handle := do
  power base (← constantNear base exponent)

def binary (op : Operator) (l r : Handle) : Work Handle := do
  let (k, x, y) ← together l r
  make k (Graph.binary op x y)

def unary (op : Operator) (h : Handle) : Work Handle := do
  let (k, x) ← resolve h
  make k (Graph.unary op x)

/-- A call of a function, which has to be there. -/
def call (k : Nat) (f : Option Callee) (arguments : List Handle) : Work Handle := do
  let xs ← nodesIn k arguments
  match f with
  | some f => make k (Graph.call f xs)
  | none => throw .missingCallee

/-- A call in the graph of its first argument. -/
def callOf (f : Option Callee) (arguments : List Handle) : Work Handle := do
  call (← graphOf "call" arguments) f arguments

def set (k : Nat) (members : List Handle) : Work Handle := do
  let xs ← nodesIn k members
  make k (Graph.set xs)

def arrow (l r : Handle) : Work Handle := do
  let (k, x, y) ← together l r
  make k (Graph.arrow x y)

def add (l r : Handle) : Work Handle := do
  let (k, x, y) ← together l r
  make k (Graph.sum [x, y])

def multiply (l r : Handle) : Work Handle := do
  let (k, x, y) ← together l r
  make k (Graph.product [x, y])

def negate (h : Handle) : Work Handle := do
  let (k, x) ← resolve h
  make k (Graph.negate x)

def subtract (l r : Handle) : Work Handle := do
  let (k, x, y) ← together l r
  make k (Graph.subtract x y)

def divide (l r : Handle) : Work Handle := do
  let (k, x, y) ← together l r
  make k (Graph.divide x y)

def openLoop (k : Nat) (label : String) : Work Handle := make k (Graph.openLoop label)

/-- Closes a node that was opened over its structure. -/
def closeLoop (self content : Handle) : Work Unit := do
  let (k, slot, x) ← together self content
  within k (Graph.closeLoop slot x)

/-- A node that refers to itself: `body` is given the node and returns its structure. -/
def loop {m : Type → Type} [Monad m] [MonadLiftT Work m] (k : Nat) (label : String)
    (body : Handle → m Handle) : m Handle := do
  let self ← openLoop k label
  let content ← body self
  closeLoop self content
  return self

/-- A constant in the graph of the innermost scope. -/
def currentConstant (q : Rat) : Work Handle := do constant (← currentGraph) q

/-- A symbol in the graph of the innermost scope. -/
def currentSymbol (name : String) : Work Handle := do symbol (← currentGraph) name

end ExactAlgebra.Workspace
