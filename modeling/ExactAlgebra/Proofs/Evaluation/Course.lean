import ExactAlgebra.Proofs.Evaluation.Closure
import ExactAlgebra.Proofs.Transform.Course

/-!
Evaluation keeps to a course of the graph, if the functions of the library do, and the steps do in
which the forms of self-referential nodes are made.
-/

namespace ExactAlgebra

open ExactAlgebra.Graph (Course)

/-- What evaluation needs of a course, beyond the elementary constructions. -/
structure Graph.Course.Evaluates (C : Course) (library : Library) : Prop where
  direct : ∀ {f accepts run}, library f = .direct accepts run → ∀ xs, C.builders.Holds (run xs)
  canonicalLoop : ∀ x body, C.builders.Holds (Evaluation.canonicalLoop x body)
  recordForm : ∀ x form, C.builders.Holds (recordForm x form)

namespace Graph.Course.Evaluates

variable {C : Course} {library : Library}

/-- The evaluations that keep to a course. -/
def evaluations (h : C.Evaluates library) : Evaluations library where
  toExchanges := C.exchanges Journal
  substitute := substitute_leads C
  call := Evaluation.call_holds (C.exchanges Journal) (fun _ p => C.refl p.graph) fun hf xs =>
    (C.exchanges Journal).build (h.direct hf xs)

theorem rules_onCourse (h : C.Evaluates library) : (Evaluation.rules library).OnCourse C where
  onCycle x := (C.exchanges Journal).pure x
  transform := Evaluation.transform_holds h.evaluations
    (fun x body => (C.exchanges Journal).build (h.canonicalLoop x body))
    (fun x form => (C.exchanges Journal).build (h.recordForm x form))

theorem evaluateIn_leads (h : C.Evaluates library) (depth : Nat) (x : NodeId) :
    (C.runs Journal).Holds (evaluateIn library depth x) :=
  h.rules_onCourse.apply depth x

end Graph.Course.Evaluates

end ExactAlgebra
