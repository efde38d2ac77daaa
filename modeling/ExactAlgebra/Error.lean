import ExactAlgebra.Rational.Text

/-!
The causes for which an operation of this library fails, and the wording of each.
-/

namespace ExactAlgebra

inductive Error where
  /-- A numeral's text does not follow the grammar. -/
  | unreadableNumeral (source : String)
  | zeroDenominator
  | zeroDenominatorIn (source : String)
  | divisionByZero
  | zeroToNegativePower
  | rootOfNegative (radicand : Rat)
  | notConstant
  | notSymbol
  | notCall
  | notRecursive
  | noSuchOperand
  /-- A list of `count` operands was asked for the one at a position that it does not have. -/
  | tooFewOperands (position count : Nat)
  | operandOutsideGraph
  | graphFull
  | missingCallee
  | closingUnknownNode
  | closingNonPlaceholder
  | badHandle
  | emptyHandle
  | differentGraphs
  /-- An operation that takes its graph from its first operand had none. -/
  | noGraphFor (operation : String)
  | askedOutsideGraph
  | transformedOutsideGraph
  | transformerWithoutGraph
  | bindingIsNoArrow
  | bindingsOutsideGraph
  | emptyCallValue
  | noCallValue
  | calledOutsideGraph (callee : String)
  | calleeWithoutBody (callee : String)
  /-- A callee gave up in a way that it does not report as a fault. -/
  | calleeAborted (message : String)
  /-- A transformation rule does not allow a node. -/
  | transformRefused (reason : String)
  | noOpenScope
  | shapeMismatch (operation : String) (rows cols rows' cols' : Nat)
  | notSquare (rows cols : Nat)
  | unsupportedExponent (exponent : Int)
  /-- Elimination found no pivot in the named column. -/
  | singular (column : Nat)
  | notVector (rows cols : Nat)
  | noSuchEntry (row col : Nat)
  | noSuchVectorEntry (position : Nat)
  | matrixWithoutGraph
  | entryOutsideGraph
  /-- The depth that a computation was given did not suffice; a larger one may. -/
  | depthExhausted
deriving DecidableEq, Repr

namespace Error

def dimensions (rows cols : Nat) : String := toString rows ++ "x" ++ toString cols

def wording : Error → String
  | unreadableNumeral source => "Real: cannot parse '" ++ source ++ "'"
  | zeroDenominator => "Real: zero denominator"
  | zeroDenominatorIn source => "Real: zero denominator in '" ++ source ++ "'"
  | divisionByZero => "Real: division by zero"
  | zeroToNegativePower => "Real: zero raised to a negative power"
  | rootOfNegative radicand => "sqrt of negative number " ++ Rational.text radicand
  | notConstant => "Expression is not a constant"
  | notSymbol => "Expression is not a symbol"
  | notCall => "Expression is not a call"
  | notRecursive => "Expression is not recursive"
  | noSuchOperand => "Expression child index out of range"
  | tooFewOperands position count =>
    "vector::_M_range_check: __n (which is " ++ toString position ++
      ") >= this->size() (which is " ++ toString count ++ ")"
  | operandOutsideGraph => "Child expression does not belong to this arena"
  | graphFull => "Expression arena exceeded maximum index for ExprId"
  | missingCallee => "Call target must not be null"
  | closingUnknownNode => "Invalid expression id in close_recursive"
  | closingNonPlaceholder => "close_recursive on a slot that is not an open placeholder"
  | badHandle => "Expression handle needs an arena and a valid id"
  | emptyHandle => "Operation on an empty expression handle"
  | differentGraphs => "Expressions must belong to the same expression arena"
  | noGraphFor operation => operation ++ " needs an arena when built from no operands"
  | askedOutsideGraph => "Visited expression does not belong to the visitor's arena"
  | transformedOutsideGraph => "Rewrite produced an expression outside the visitor's arena"
  | transformerWithoutGraph => "CachedRecursiveVisitor needs an arena"
  | bindingIsNoArrow => "Substitution binding is not an arrow"
  | bindingsOutsideGraph => "Substitution bindings must belong to the expression's arena"
  | emptyCallValue => "CallResult::value needs a valid expression"
  | noCallValue => "CallResult holds no value"
  | calledOutsideGraph callee =>
    "Callable '" ++ callee ++ "' returned an expression from another arena"
  | calleeWithoutBody callee => "RealFunction '" ++ callee ++ "' needs a function"
  | calleeAborted message => message
  | transformRefused reason => reason
  | noOpenScope => "symeval: no ArenaScope is open on this thread"
  | shapeMismatch operation rows cols rows' cols' =>
    "Invalid matrix " ++ operation ++ ": " ++ dimensions rows cols ++ " and " ++
      dimensions rows' cols'
  | notSquare rows cols => "Non-square matrix: " ++ dimensions rows cols
  | unsupportedExponent exponent => "Unsupported matrix exponent: " ++ toString exponent
  | singular column => "Singular matrix: no nonzero pivot in column " ++ toString column
  | notVector rows cols => "Matrix is not a vector: " ++ dimensions rows cols
  | noSuchEntry row col =>
    "Matrix index (" ++ toString row ++ ", " ++ toString col ++ ") out of range"
  | noSuchVectorEntry position => "Vector index " ++ toString position ++ " out of range"
  | matrixWithoutGraph => "Matrix needs an arena"
  | entryOutsideGraph => "Matrix entries must belong to the matrix arena"
  | depthExhausted => "depth exhausted"

/-- A message ends before its first NUL, whatever names it quotes. -/
def message (e : Error) : String :=
  String.ofList (e.wording.toList.takeWhile (· ≠ '\x00'))

end Error

end ExactAlgebra
