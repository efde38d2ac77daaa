import ExactAlgebra.Proofs.Evaluation.Course
import ExactAlgebra.Proofs.Transform.Frame

/-!
Evaluation leaves all nodes as they are. The placeholders that it closes for the forms of
self-referential nodes are its own.
-/

namespace ExactAlgebra

variable {library : Library} {S : NodeId → Prop}

/-- A library whose functions of expressions leave all nodes as they are, apart from placeholders in
`S`. -/
def Library.Intact (S : NodeId → Prop) (library : Library) : Prop :=
  ∀ f accepts run, library f = .direct accepts run → ∀ xs, (Graph.intact S).Holds (run xs)

theorem Library.silent_intact (S : NodeId → Prop) : Library.silent.Intact S := by
  rintro f accepts run ⟨⟩ xs
  exact (Graph.intact S).pure _

namespace Evaluation

theorem canonicalLoop_intact (x body : NodeId) : (Graph.intact S).Holds (canonicalLoop x body) :=
  canonicalLoop_holds (Graph.intact S).builders (fun name x body =>
    Graph.loop_intact name fun slot => Graph.substitute_intact S [(x, slot)] body) x body

end Evaluation

theorem Library.Intact.evaluates (hlib : library.Intact S) :
    (Graph.unchanging S).Evaluates library where
  direct hf := hlib _ _ _ hf
  canonicalLoop := Evaluation.canonicalLoop_intact
  recordForm := Graph.recordForm_intact S

theorem evaluateIn_intact (hlib : library.Intact S) (depth : Nat) (x : NodeId) :
    (Run.intact S Journal).Holds (evaluateIn library depth x) :=
  hlib.evaluates.evaluateIn_leads depth x

/-- Functions of a library may evaluate expressions, too. -/
theorem Graph.evaluate_intact (hlib : library.Intact S) (depth : Nat) (x : NodeId) :
    (intact S).Holds (Graph.evaluate library depth x) := by
  intro g
  have hrun := evaluateIn_intact hlib depth x (.start g)
  unfold Graph.evaluate
  cases he : evaluateIn library depth x (.start g) <;> rw [he] at hrun <;> exact hrun

end ExactAlgebra
