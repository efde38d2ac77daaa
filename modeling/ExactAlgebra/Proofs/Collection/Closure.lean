import ExactAlgebra.Proofs.Collection.Folding
import ExactAlgebra.Proofs.Graph.Closure

/-!
Collecting terms and factors is composed of the elementary constructions, whatever is collected.
-/

namespace ExactAlgebra.Graph

variable (P : Builders)

theorem extractCoefficient_holds (x : NodeId) : P.Holds (extractCoefficient x) := by
  apply P.bind P.get
  intro g
  cases g.splitFactors (g.factors x) with
  | none => exact P.pure _
  | some r => exact P.bind (P.product r.2) fun _ => P.pure _

theorem scaleTerm_holds (c : Rat) (x : NodeId) : P.Holds (scaleTerm c x) := by
  apply P.bind P.get
  intro g
  cases g.value? x with
  | some q => exact constant_holds P _
  | none =>
    exact P.bind (extractCoefficient_holds P x) fun _ =>
      P.bind (constant_holds P _) fun _ => P.product _

theorem scaleSum_holds (c : Rat) (x : NodeId) : P.Holds (scaleSum c x) := by
  apply P.bind P.get
  intro g
  exact P.bind (P.mapM (scaleTerm_holds P c) _) P.sum

theorem read_holds (ts : Terms) (x : NodeId) : P.Holds (ts.read x) := by
  apply P.bind P.get
  intro g
  cases g.value? x with
  | some q => exact P.pure _
  | none => exact P.bind (extractCoefficient_holds P x) fun _ => P.pure _

theorem readAddend_holds (ts : Terms) (x : NodeId) : P.Holds (ts.readAddend x) := by
  apply P.bind P.get
  intro g
  exact P.foldlM (read_holds P) _ ts

theorem checked_holds (x : NodeId) : P.Holds (checked x) := by
  apply P.bind P.get
  intro g
  exact P.ite (fun _ => P.pure _) fun _ => P.throw _

theorem weightedTerm?_holds (r : NodeId × Rat) : P.Holds (weightedTerm? r) := by
  apply P.ite
  · intro _
    exact P.pure none
  · intro _
    apply P.bind (checked_holds P r.1)
    intro y
    apply P.ite
    · intro _
      exact P.pure _
    · intro _
      exact P.bind (constant_holds P _) fun _ => P.bind (P.product _) fun _ => P.pure _

theorem Terms.emit_holds (ts : Terms) : P.Holds ts.emit := by
  have hrest : ∀ all : Weights NodeId, P.Holds (do
      sum (← all.entries.filterMapM weightedTerm?)) := fun all =>
    P.bind (P.filterMapM (weightedTerm?_holds P) all.entries) P.sum
  unfold Terms.emit
  apply P.ite
  · intro _
    exact hrest ts.bare
  · intro _
    exact P.bind (constant_holds P _) fun c => hrest (ts.bare.add c 1)

theorem combineTerms_holds (xs : List NodeId) : P.Holds (combineTerms xs) :=
  P.bind (P.foldlM (readAddend_holds P) xs {}) (Terms.emit_holds P)

theorem weightedFactor?_holds (r : NodeId × Rat) : P.Holds (weightedFactor? r) := by
  apply P.ite
  · intro _
    exact P.pure none
  · intro _
    apply P.bind (checked_holds P r.1)
    intro y
    apply P.ite
    · intro _
      exact P.pure _
    · intro _
      exact P.bind (constant_holds P _) fun _ => P.bind (P.power _ _) fun _ => P.pure _

theorem Factors.placeConstant_holds (fs : Factors) : P.Holds fs.placeConstant := by
  apply P.ite
  · intro _
    exact P.pure _
  · intro _
    apply P.bind P.get
    intro g
    cases fs.hostSum? g with
    | some r =>
      exact P.bind (ofExcept_holds P _) fun c =>
        P.bind (scaleSum_holds P c r.1) fun _ => P.pure _
    | none => exact P.bind (constant_holds P _) fun _ => P.pure _

theorem Factors.emit_holds (fs : Factors) : P.Holds fs.emit := by
  rw [emit_eq]
  apply P.bind P.get
  intro g
  apply P.ite
  · intro _
    exact P.pure _
  · intro _
    exact P.bind (placeConstant_holds P _) fun ws =>
      P.bind (P.filterMapM (weightedFactor?_holds P) ws.entries) P.product

theorem combineFactors_holds (xs : List NodeId) : P.Holds (combineFactors xs) := by
  apply P.bind P.get
  intro g
  exact Factors.emit_holds P _

end ExactAlgebra.Graph
