import ExactAlgebra.Proofs.Graph.Frame
import ExactAlgebra.Proofs.Transform.Course

/-!
Transformations leave all nodes as they are, if the rules for each node do, whatever is asked and
answered. So does substitution.
-/

namespace ExactAlgebra

variable {τ : Type} {S : NodeId → Prop}

/-- What the graph of a pass holds is left as it is, apart from placeholders in `S`. -/
abbrev Pass.Intact (S : NodeId → Prop) (p p' : Pass τ) : Prop := p.graph.Intact S p'.graph

/-- The computations in a transformation that leave all nodes as they are, apart from placeholders
in `S`. -/
def conversing (S : NodeId → Prop) (τ : Type) : Conversations τ where
  Holds m := ∀ p, (m p).Stays (Pass.Intact S) p
  pure _ p := .refl S p.graph
  bind hm hf p := (hm p).bind (fun _ _ _ => .trans) fun a p' => hf a p'
  constructions := Graph.intact S
  build {_ m} hm p := by
    have h := hm p.graph
    unfold Dialogue.build
    cases he : m p.graph <;> simp only [he] at h ⊢ <;> exact h
  graph p := .refl S p.graph
  updateLog _ p := .refl S p.graph
  fail _ p := .refl S p.graph
  ask _ p := ⟨.refl S p.graph, fun _ p' _ => .refl S p'.graph⟩

/-- Rules that leave all nodes as they are, apart from placeholders in `S`. -/
structure Rules.Intact (S : NodeId → Prop) (rules : Rules τ) : Prop where
  transform : ∀ x, (conversing S τ).Holds (rules.transform x)
  onCycle : ∀ x, (conversing S τ).Holds (rules.onCycle x)

namespace Run

/-- The computations on a run that leave all nodes as they are, apart from placeholders in `S`. -/
def intact (S : NodeId → Prop) (τ : Type) : Closure (EStateM Error (Run τ)) :=
  .along (fun run run' => run.pass.graph.Intact S run'.pass.graph)
    (fun run => .refl S run.pass.graph) .trans

end Run

theorem Rules.Intact.onCourse {rules : Rules τ} (h : rules.Intact S) :
    rules.OnCourse (Graph.unchanging S) :=
  ⟨h.transform, h.onCycle⟩

/-- What rules leave as it is, they leave so in whole transformations. -/
theorem Rules.Intact.apply {rules : Rules τ} (h : rules.Intact S) (depth : Nat) (x : NodeId) :
    (Run.intact S τ).Holds (rules.apply depth x) :=
  h.onCourse.apply depth x

theorem Graph.substitute_intact (S : NodeId → Prop) (s : Substitution) (x : NodeId) :
    (intact S).Holds (substitute s x) :=
  substitute_leads (unchanging S) s x

end ExactAlgebra
