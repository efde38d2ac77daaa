import ExactAlgebra.Proofs.Collection.Closure
import ExactAlgebra.Proofs.Evaluation.Power
import ExactAlgebra.Proofs.Transform.Closure

/-!
The rules of evaluation are composed of the elementary constructions, whatever is evaluated.
-/

namespace ExactAlgebra

/-- A class of computations that has all that the rules of evaluation are composed of, apart from
what self-referential nodes need. -/
structure Evaluations (library : Library) extends Exchanges Journal where
  substitute : ∀ s x, builders.Holds (Graph.substitute s x)
  call : ∀ f xs, Holds (Evaluation.call library f xs)

namespace Evaluation

open ExactAlgebra.Graph (Builders)

variable {library : Library} (C : Builders) (P : Evaluations library)

theorem arrowPair_holds (x : NodeId) : C.Holds (Graph.arrowPair x) := by
  apply C.bind C.get
  intro g
  split
  · exact C.pure _
  · exact C.throw _
  · exact C.throw _

theorem arrowPairs_holds (x : NodeId) : C.Holds (Graph.arrowPairs x) := by
  apply C.bind C.get
  intro g
  split
  · exact C.mapM (arrowPair_holds C) _
  · exact C.bind (arrowPair_holds C x) fun _ => C.pure _

theorem foldPower_holds (l r : NodeId) : C.Holds (foldPower l r) := by
  rw [foldPower_eq]
  apply C.bind C.get
  intro g
  apply C.ite (fun _ => C.pure _)
  intro _
  apply C.ite (fun _ => C.pure _)
  intro _
  apply C.ite (fun _ => C.pure _)
  intro _
  apply C.ite (fun _ => C.pure _)
  intro _
  cases foldedPower? (g.value? l) (g.value? r) with
  | some q => exact Graph.constant_holds C q
  | none => exact C.power l r

theorem powerOfProduct_holds (xs : List NodeId) (y : NodeId) : C.Holds (powerOfProduct xs y) :=
  C.bind (C.mapM (fun x => C.power x y) xs) C.product

theorem ofReal_holds (r : Except Error (Option Rat)) : C.Holds (Reply.ofReal r) := by
  rcases r with e | _ | q
  · exact C.pure _
  · exact C.pure _
  · exact C.bind (Graph.constant_holds C q) fun _ => C.pure _

theorem binary_holds (op : Operator) (x y : NodeId) : P.Holds (binary op x y) := by
  apply P.bind (P.ask x)
  intro l
  apply P.bind (P.ask y)
  intro r
  apply P.ite
  · intro _
    apply P.bind (P.build (arrowPairs_holds _ r))
    intro s
    exact P.bind (P.build (P.substitute s l)) P.ask
  · intro _
    apply P.bind P.graph
    intro g
    cases binaryOutcome? op l r (g.value? l) (g.value? r) with
    | some b => exact P.pure _
    | none => exact P.build (Graph.binary_holds _ op l r)

theorem unary_holds (op : Operator) (x : NodeId) : P.Holds (unary op x) := by
  apply P.bind (P.ask x)
  intro l
  apply P.bind P.graph
  intro g
  apply P.ite
  · intro _
    exact P.pure _
  · intro _
    exact P.build (Graph.unary_holds _ op l)

theorem power_holds (x y : NodeId) : P.Holds (power x y) := by
  apply P.bind (P.ask x)
  intro l
  apply P.bind P.graph
  intro g
  apply P.ite
  · intro _
    exact P.bind (P.build (powerOfProduct_holds _ _ y)) P.ask
  · intro _
    apply P.bind (P.ask y)
    intro r
    split
    · apply P.bind (P.build (P.builders.product _))
      intro q
      exact P.bind (P.ask q) fun q' => P.build (foldPower_holds _ _ q')
    · exact P.fail _
    · exact P.build (foldPower_holds _ l r)

section Calls

variable (P : Exchanges Journal) (hlog : ∀ u, P.Holds (Dialogue.updateLog u))
variable (hdirect : ∀ {f accepts run}, library f = .direct accepts run → ∀ xs,
  P.Holds (Dialogue.build (run xs)))

include hlog hdirect

theorem invoke_holds (f : Callee) (xs : List NodeId) : P.Holds (invoke f (library f) xs) := by
  apply P.bind P.graph
  intro g
  cases hf : library f with
  | real arity fn =>
    simp only
    split
    · apply P.ite
      · intro _
        exact P.bind (hlog _) fun _ => P.build (ofReal_holds _ _)
      · intro _
        exact P.pure _
    · exact P.pure _
  | direct accepts run =>
    apply P.ite
    · intro _
      exact P.bind (hlog _) fun _ => hdirect hf _
    · intro _
      exact P.pure _

/-- Calls need nothing but logs that may be written, and functions that may be run. -/
theorem call_holds (f : Callee) (xs : List NodeId) : P.Holds (call library f xs) := by
  apply P.bind (P.askAll xs)
  intro ys
  apply P.bind (P.build (P.builders.call f ys))
  intro u
  apply P.bind (invoke_holds P hlog hdirect f ys)
  intro reply
  cases reply with
  | value x => exact P.pure x
  | elsewhere g x => exact P.fail _
  | declined => exact P.pure u
  | fault message => exact P.bind (hlog _) fun _ => P.pure u

end Calls

theorem byShape_holds (x : NodeId) : P.Holds (byShape library x) := by
  apply P.bind P.graph
  intro g
  split
  · exact P.pure x
  · exact P.pure x
  · exact P.bind (P.askAll _) fun ys => P.build (Graph.combineTerms_holds _ ys)
  · exact P.bind (P.askAll _) fun ys => P.build (Graph.combineFactors_holds _ ys)
  · exact power_holds P _ _
  · exact binary_holds P _ _ _
  · exact unary_holds P _ _
  · exact P.call _ _
  · exact P.operands x
  · exact P.operands x
  · exact P.fail _

/-- Canonical forms need nothing but loops that are closed over copies of other loops. -/
theorem canonicalLoop_holds (hloop : ∀ name x body, C.Holds (do
      let slot ← Graph.openLoop name
      let content ← Graph.substitute [(x, slot)] body
      Graph.closeLoop slot content
      return slot)) (x body : NodeId) : C.Holds (canonicalLoop x body) := by
  apply C.bind C.get
  intro g
  apply C.ite fun _ => C.pure x
  intro _
  apply C.ite _ fun _ => C.pure body
  intro _
  apply C.bind C.get
  intro g
  cases g.label? x with
  | some name => exact hloop name x body
  | none => exact C.bind (C.throw _) fun name => hloop name x body

section Loops

variable (hcanonical : ∀ x body, P.Holds (Dialogue.build (canonicalLoop x body)))
variable (hrecord : ∀ x form, P.Holds (Dialogue.build (Graph.recordForm x form)))

include hcanonical hrecord in
theorem selfReferential_holds (x : NodeId) : P.Holds (selfReferential library x) := by
  apply P.bind P.graph
  intro g
  cases g.form? x with
  | some form => exact P.pure form
  | none =>
    apply P.bind (byShape_holds P x)
    intro body
    apply P.bind (hcanonical x body)
    intro form
    apply P.bind (hrecord x form)
    intro _
    apply P.bind P.graph
    intro g'
    apply P.ite
    · intro _
      exact P.bind (hrecord form form) fun _ => P.pure form
    · intro _
      exact P.pure form

include hcanonical hrecord in
theorem transform_holds (x : NodeId) : P.Holds ((rules library).transform x) := by
  apply P.bind P.graph
  intro g
  apply P.ite
  · intro _
    exact P.bind (selfReferential_holds P hcanonical hrecord x) fun _ => P.pure _
  · intro _
    exact P.bind (byShape_holds P x) fun _ => P.pure _

end Loops

end Evaluation

end ExactAlgebra
