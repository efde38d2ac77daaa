import ExactAlgebra.Proofs.Graph.Evolution
import ExactAlgebra.Proofs.Transform.Closure
import ExactAlgebra.Proofs.Transform.Contract

/-!
Contracts that leave the transformation of some nodes free: whatever is asked and built there, and
however it fails, the contract is kept.
-/

namespace ExactAlgebra

open ExactAlgebra.Graph (Changing Developing Grows)

variable {τ α β : Type}

/-- A construction that changes the graph in a way that a contract allows. -/
theorem Dialogue.Meets.change {c : Contract} {depth : Nat} {z : NodeId} {g : Graph}
    {Q : α → Graph → Prop} {m : Build α} (hm : Graph.Changes c.Frame c.Fails m g Q) :
    Dialogue.Meets c depth z (Dialogue.build m : Dialogue (Pass τ) α) g Q := by
  intro log
  unfold Graph.Changes at hm
  unfold Dialogue.build
  cases he : m g with
  | ok a g' =>
    simp only [he] at hm ⊢
    exact hm
  | error e g' =>
    simp only [he] at hm ⊢
    exact hm

/-- A contract and the nodes whose transformation it leaves free. -/
structure Freedom where
  contract : Contract
  Free : Graph → NodeId → Prop
  asks : ∀ {depth g z x}, Free g z → contract.Asks depth g x
  fails : ∀ {e g}, contract.Fails e g
  below : ∀ {g : Graph} {z x}, Free g z → contract.Below g z x
  free_frame : ∀ {g g' : Graph} {z}, g.WellFormed → z < g.size → contract.Frame g g' →
    Free g z → Free g' z

variable {F : Freedom}

/-- A computation in the transformation of a node that is left free. -/
def Wanders (F : Freedom) (m : Dialogue (Pass τ) α) : Prop :=
  ∀ ⦃depth : Nat⦄ ⦃z : NodeId⦄ ⦃g : Graph⦄, g.WellFormed → z < g.size → F.Free g z →
    m.Meets F.contract depth z g fun _ _ => True

namespace Wanders

theorem pure (a : α) : Wanders F (Pure.pure a : Dialogue (Pass τ) α) :=
  fun _ _ _ hg _ _ => .pure hg trivial

theorem bind {m : Dialogue (Pass τ) α} {f : α → Dialogue (Pass τ) β} (hm : Wanders F m)
    (hf : ∀ a, Wanders F (f a)) : Wanders F (m >>= f) := by
  intro depth z g hg hz hv
  apply (hm hg hz hv).bind
  intro a g' hg' hx _
  exact hf a hg' (F.contract.frame_lt_size hx hz) (F.free_frame hg hz hx hv)

theorem change {m : Build α} (hm : Changing F.contract.Frame m) :
    Wanders F (Dialogue.build m : Dialogue (Pass τ) α) := by
  intro depth z g hg _ _ log
  have h := hm hg
  unfold Dialogue.build
  cases he : m g with
  | ok a g' =>
    simp only [he] at h ⊢
    exact ⟨h.1, h.2, trivial⟩
  | error e g' =>
    simp only [he] at h ⊢
    exact ⟨h.1, h.2, F.fails⟩

end Wanders

/-- The computations in the transformation of a node that is left free. -/
def wandering (F : Freedom) (τ : Type) : Conversations τ where
  Holds := Wanders F
  pure := Wanders.pure
  bind := Wanders.bind
  constructions := Graph.growing
  build hm := .change ((Grows.changing hm).mono fun _ _ => F.contract.frame_of_growsTo)
  graph _ _ _ hg _ _ := .graph (.pure hg trivial)
  updateLog _ _ _ _ hg _ _ := .updateLog (.pure hg trivial)
  fail _ _ _ _ hg _ _ := .fail hg F.fails
  ask _ _ _ _ hg _ hv := (Dialogue.Meets.ask hg (F.asks hv) fun _ => F.below hv).mono
    fun _ _ _ _ _ => trivial

/-- The freedom to develop graphs in any way. -/
def developing : Freedom where
  contract :=
    { Frame := Graph.Develops
      Asks _ _ _ := True
      Answers _ _ _ := True
      Below _ _ _ := True
      Fails _ _ := True
      frame_refl := .refl
      frame_of_growsTo _ h := h.develops
      frame_trans h h' := h.trans h'
      frame_lt_size h hx := h.lt_size hx
      answers_frame _ _ _ _ _ := trivial
      below_frame _ _ _ _ _ := trivial
      below_trans _ _ := trivial
      answers_self _ _ := trivial
      fails_outside _ _ := trivial
      fails_exhausted _ := trivial }
  Free _ _ := True
  asks _ := trivial
  fails := trivial
  below _ := trivial
  free_frame _ _ _ _ := trivial

end ExactAlgebra
