import ExactAlgebra.Collection.Factors
import ExactAlgebra.Evaluation.Library
import ExactAlgebra.Graph.Reachability
import ExactAlgebra.Transform.Substitution

/-!
The rules of evaluation: like terms and like factors are combined, powers are folded and pushed
into products, relations and logic are decided where their operands are constants, calls are made,
and substitutions are carried out.
-/

namespace ExactAlgebra

/-- A call that failed on its arguments, and why. -/
structure Fault where
  callee : Callee
  call : NodeId
  message : String

/-- What an evaluation has recorded: the failing calls, and all the calls it has made. -/
structure Journal where
  faults : Array Fault := #[]
  invocations : Array Callee := #[]

abbrev Evaluating := Dialogue (Pass Journal)

namespace Evaluation

open Dialogue (ask askAll)

def isTrue : Option Rat → Bool
  | some q => q ≠ 0
  | none => false

def isFalse : Option Rat → Bool
  | some q => q = 0
  | none => false

/-- The outcome of a relation between two constants. -/
def compareValues? (op : Operator) (l r : Rat) : Option Bool :=
  match op with
  | .equal => some (l = r)
  | .notEqual => some (l ≠ r)
  | .less => some (l < r)
  | .lessEqual => some (l ≤ r)
  | .greater => some (r < l)
  | .greaterEqual => some (r ≤ l)
  | _ => none

/-- The outcome of an operator that is fixed by what is known of its operands. -/
def decide? (op : Operator) (l r : NodeId) (lv rv : Option Rat) : Option Bool :=
  match op with
  | .conjunction =>
    if isFalse lv || isFalse rv then some false
    else if isTrue lv && isTrue rv then some true
    else none
  | .disjunction =>
    if isTrue lv || isTrue rv then some true
    else if isFalse lv && isFalse rv then some false
    else none
  | .equal => if l = r then some true else none
  | .notEqual => if l = r then some false else none
  | _ => none

/-- The outcome of an operator, from the values of its operands if they are constants. -/
def binaryOutcome? (op : Operator) (l r : NodeId) (lv rv : Option Rat) : Option Bool :=
  (do compareValues? op (← lv) (← rv)) <|> decide? op l r lv rv

def binary (op : Operator) (left right : NodeId) : Evaluating NodeId := do
  let l ← ask left
  let r ← ask right
  if op = .substitution then
    ask (← Graph.substitute (← Graph.arrowPairs r) l)
  else
    let g ← Dialogue.graph
    match binaryOutcome? op l r (g.value? l) (g.value? r) with
    | some b => return Graph.boolean b
    | none => Graph.binary op l r

def unary (op : Operator) (operand : NodeId) : Evaluating NodeId := do
  let x ← ask operand
  let value := (← Dialogue.graph).value? x
  if op = .negation && value.isSome then return Graph.boolean (isFalse value)
  Graph.unary op x

/-- The exact value of a power whose base and exponent are constants. -/
def constantPower? (b e : Option Rat) : Except Error (Option Rat) :=
  match b, e with
  | some b, some e => Rational.power b e
  | _, _ => .ok none

/-- The power of an evaluated base and an evaluated exponent. -/
def foldPower (l r : NodeId) : Build NodeId := do
  let g ← get
  let b := g.value? l
  let e := g.value? r
  if b = some 0 then return Graph.zero
  if b = some 1 then return Graph.one
  if e = some 0 then return Graph.one
  if e = some 1 then return l
  match ← ofExcept (constantPower? b e) with
  | some q => Graph.constant q
  | none => Graph.power l r

/-- The product of the factors, each raised to an exponent. -/
def powerOfProduct (factors : List NodeId) (exponent : NodeId) : Build NodeId := do
  Graph.product (← factors.mapM (Graph.power · exponent))

/-- `(x * y) ^ z` becomes `x ^ z * y ^ z`, and `(x ^ y) ^ z` becomes `x ^ (y * z)`. -/
def power (base exponent : NodeId) : Evaluating NodeId := do
  let l ← ask base
  let g ← Dialogue.graph
  if (g.node l).isOpenProduct then
    ask (← powerOfProduct (g.operands l) exponent)
  else
    let r ← ask exponent
    match (g.node l).isOpenPower, g.operands l with
    | true, [l', r'] => foldPower l' (← ask (← Graph.product [r, r']))
    | true, _ => Dialogue.fail .noSuchOperand
    | false, _ => foldPower l r

/-- The values of nodes that are all constants. -/
def values? (g : Graph) (xs : List NodeId) : Option (List Rat) := xs.mapM g.value?

/-- What a function makes of evaluated arguments; nothing if it does not accept them. -/
def invoke (f : Callee) (behaviour : Behaviour) (arguments : List NodeId) :
    Evaluating Reply := do
  let g ← Dialogue.graph
  match behaviour with
  | .real arity apply =>
    match values? g arguments with
    | some qs =>
      if qs.length = arity then
        Dialogue.updateLog fun log => { log with invocations := log.invocations.push f }
        Reply.ofReal (apply qs)
      else return .declined
    | none => return .declined
  | .direct accepts run =>
    if accepts g (arguments.map some) then
      Dialogue.updateLog fun log => { log with invocations := log.invocations.push f }
      run (arguments.map some)
    else return .declined

/-- A call stays as it is when its function declines it or fails on it. -/
def call (library : Library) (f : Callee) (operands : List NodeId) : Evaluating NodeId := do
  let arguments ← askAll operands
  let unevaluated ← Graph.call f arguments
  match ← invoke f (library f) arguments with
  | .value x => return x
  | .elsewhere _ _ => Dialogue.fail (.calledOutsideGraph f.name)
  | .declined => return unevaluated
  | .fault message =>
    Dialogue.updateLog fun log =>
      { log with faults := log.faults.push ⟨f, unevaluated, message⟩ }
    return unevaluated

/-- Evaluates a node by its shape, whether or not it is self-referential. -/
def byShape (library : Library) (x : NodeId) : Evaluating NodeId := do
  let g ← Dialogue.graph
  match g.shape x, g.operands x with
  | .constant _, _ | .symbol _, _ => return x
  | .sum, xs => do Graph.combineTerms (← askAll xs)
  | .product, xs => do Graph.combineFactors (← askAll xs)
  | .power, [base, exponent] => power base exponent
  | .binary op, [left, right] => binary op left right
  | .unary op, [operand] => unary op operand
  | .call f, xs => call library f xs
  | .set, _ | .arrow, _ => Dialogue.operands x
  | _, _ => Dialogue.fail .noSuchOperand

/-- A self-referential node whose structure is that of `body`, in which `x` stands for the node. -/
def closeOver (x body : NodeId) : Build NodeId := do
  let name ← match (← get).label? x with
    | some name => pure name
    | none => throw .notRecursive
  let slot ← Graph.openLoop name
  let content ← Graph.substitute [(x, slot)] body
  Graph.closeLoop slot content
  return slot

/-- The canonical form of a self-referential node, given the evaluated structure. -/
def canonicalLoop (x body : NodeId) : Build NodeId := do
  let g ← get
  if g.sameStructure body x then return x
  if g.occurs x body then closeOver x body else return body

/--
A self-referential node is evaluated through its structure, itself standing for every occurrence
in it. The result is recorded in the graph, for the node and for the result.
-/
def selfReferential (library : Library) (x : NodeId) : Evaluating NodeId := do
  match (← Dialogue.graph).form? x with
  | some form => return form
  | none =>
    let body ← byShape library x
    let form ← canonicalLoop x body
    Graph.recordForm x form
    if (← Dialogue.graph).isLoop form then Graph.recordForm form form
    return form

def rules (library : Library) : Rules Journal where
  transform x := do
    if (← Dialogue.graph).isLoop x then return some (← selfReferential library x)
    else return some (← byShape library x)

end Evaluation

/-- Evaluates a node with whatever was evaluated before in the same run. -/
def evaluateIn (library : Library) (depth : Nat) (x : NodeId) :
    EStateM Error (Run Journal) NodeId :=
  (Evaluation.rules library).apply depth x

/-- A run in which nothing was evaluated yet. -/
def Run.start (g : Graph) : Run Journal := ⟨{}, ⟨g, {}⟩⟩

/-- Evaluates a node of a graph by itself. -/
def Graph.evaluate (library : Library) (depth : Nat) (x : NodeId) : Build NodeId := fun g =>
  match evaluateIn library depth x (.start g) with
  | .ok y s => .ok y s.pass.graph
  | .error e s => .error e s.pass.graph

end ExactAlgebra
