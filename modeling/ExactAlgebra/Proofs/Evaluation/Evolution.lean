import ExactAlgebra.Proofs.Evaluation.Closure
import ExactAlgebra.Proofs.Evaluation.Exact
import ExactAlgebra.Proofs.Transform.Freedom

/-!
Evaluation of arbitrary expressions, self-referential ones included. It lets graphs evolve, and what
it remembers of expressions with exact values are those values.
-/

namespace ExactAlgebra

/-- A library whose functions of expressions use graphs as graphs may be used: they only add nodes
and close placeholders. -/
def Library.Evolving (library : Library) : Prop :=
  ∀ f accepts run, library f = .direct accepts run → ∀ xs, Graph.Evolving (run xs)

/-- A library whose functions of expressions change graphs in a given way only. -/
def Library.Changing (R : Graph → Graph → Prop) (library : Library) : Prop :=
  ∀ f accepts run, library f = .direct accepts run → ∀ xs, Graph.Changing R (run xs)

namespace Evaluation

variable {library : Library} {F : Freedom} {α β : Type}

/-! ### Rules -/

open ExactAlgebra.Graph (Changing Developing Grows)

/-- The evaluations of nodes that are left free. -/
def wandering (F : Freedom) (hlib : library.Changing F.contract.Frame) : Evaluations library where
  toExchanges := (ExactAlgebra.wandering F Journal).exchanges
  substitute := Graph.substitute_grows
  call := call_holds (ExactAlgebra.wandering F Journal).exchanges
    (ExactAlgebra.wandering F Journal).updateLog fun hf xs => .change (hlib _ _ _ hf xs)

theorem byShape_wanders (hlib : library.Changing F.contract.Frame) (x : NodeId) :
    Wanders F (byShape library x) :=
  byShape_holds (wandering F hlib) x

theorem closeOver_developing (x body : NodeId) : Developing (closeOver x body) := by
  apply Developing.get
  intro g
  have hrest : ∀ name, Developing (do
      let slot ← Graph.openLoop name
      let content ← Graph.substitute [(x, slot)] body
      Graph.closeLoop slot content
      return slot) := by
    intro name
    apply (Graph.openLoop_grows name).developing.bind
    intro slot
    apply (Graph.substitute_grows _ body).developing.bind
    intro content
    exact (Graph.closeLoop_developing slot content).bind fun _ => (Grows.pure slot).developing
  cases g.label? x with
  | some name => exact hrest name
  | none => exact (Grows.throw _).developing.bind hrest

theorem canonicalLoop_developing (x body : NodeId) : Developing (canonicalLoop x body) := by
  apply Developing.get
  intro g
  exact .ite (Grows.pure x).developing
    (.ite (closeOver_developing x body) (Grows.pure body).developing)

theorem transform_wanders (hlib : library.Changing F.contract.Frame)
    (hF : ∀ {g g' : Graph}, g.Develops g' → F.contract.Frame g g') (x : NodeId) :
    Wanders F ((rules library).transform x) := by
  have hdevelop : ∀ {α : Type} {m : Build α}, Developing m →
      Wanders F (Dialogue.build m : Evaluating α) :=
    fun hm => .change (hm.mono fun _ _ _ => hF)
  apply transform_holds (wandering F hlib)
  · intro x body
    exact hdevelop (canonicalLoop_developing x body)
  · intro x form
    exact hdevelop ((Graph.recordForm_changing x form).mono fun _ _ _ => Graph.Extends.develops)

/-- Expressions without exact values are left free where exact values are what counts. -/
def valueless (library : Library) : Freedom where
  contract := computes library False
  Free g z := ∀ v, ¬ g.Denotes (.exact library) [] z v
  asks _ := False.elim
  fails := False.elim
  below h v hv := absurd hv (h v)
  free_frame hg hz hx h v hv := h v ((Graph.Evolves.denotes_iff hx (fun _ => rfl) hg hz).1 hv)

/--
Whatever is evaluated, the memo answers nodes that have exact values by the constants with these
values.
-/
theorem evaluateIn_records (hlib : library.Evolving) (depth : Nat) :
    Replies (computes library False) depth (evaluateIn library depth) := by
  apply Rules.replies (rules library) (fun _ => rfl)
  intro depth x g hg _ hx
  by_cases hv : ∃ v, g.Denotes (.exact library) [] x v
  · obtain ⟨v, hv⟩ := hv
    exact rules_compute hg hv False.elim
  · have hnone : ∀ v, ¬ g.Denotes (.exact library) [] x v := fun v h => hv ⟨v, h⟩
    have hlib' : library.Changing (valueless library).contract.Frame := hlib
    apply (transform_wanders hlib' (fun h => h.toEvolves) x hg hx hnone).mono
    intro r g' hg' hf _
    refine ⟨fun y _ _ v hv' => ?_, fun _ => False.elim⟩
    exact absurd ((Graph.Evolves.denotes_iff hf (fun _ => rfl) hg hx).1 hv') (hnone v)

end Evaluation

end ExactAlgebra
