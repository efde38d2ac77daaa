import ExactAlgebra.Proofs.Graph.Course
import ExactAlgebra.Proofs.Transform.Closure
import ExactAlgebra.Transform.Substitution

/-!
Transformations keep to a course of the graph, if the rules for each node do, whatever is asked and
answered. So does substitution.
-/

namespace ExactAlgebra

open ExactAlgebra.Graph (Course)

variable {σ τ α β : Type}

section Stays

variable {R : σ → σ → Prop} {s s' : σ}

/-- A step that starts from a state leaves a related one, and so it goes on after each question,
from whatever related state it is answered in. -/
def Step.Stays (R : σ → σ → Prop) : Step σ α → σ → Prop
  | .done outcome, s => R s (final outcome)
  | .ask _ s' resume, s => R s s' ∧ ∀ y s'', R s' s'' → (resume y s'').Stays R s''

theorem Step.Stays.of_related (htrans : ∀ s s' s'', R s s' → R s' s'' → R s s'')
    {p : Step σ α} (h : p.Stays R s') (hs : R s s') : p.Stays R s := by
  cases p with
  | done outcome => exact htrans s s' _ hs h
  | ask x state resume => exact ⟨htrans s s' state hs h.1, h.2⟩

theorem Step.Stays.bind (htrans : ∀ s s' s'', R s s' → R s' s'' → R s s'') {p : Step σ α}
    {f : α → σ → Step σ β} (hp : p.Stays R s) (hf : ∀ a s, (f a s).Stays R s) :
    (p.bind f).Stays R s := by
  induction p generalizing s with
  | done outcome =>
    cases outcome with
    | ok a s' => exact .of_related htrans (hf a s') hp
    | error e s' => exact hp
  | ask x state resume ih => exact ⟨hp.1, fun y s'' hs => ih y s'' (hp.2 y s'' hs)⟩

end Stays

/-- What passes may become while nodes are transformed, one after another. -/
structure Passage (τ : Type) where
  Leads : Pass τ → Pass τ → Prop
  refl : ∀ p, Leads p p
  trans : ∀ {p p' p''}, Leads p p' → Leads p' p'' → Leads p p''

/-- The computations in a transformation that lead passes where they may go, as long as what builds
nodes does. -/
def Passage.exchanges (K : Passage τ) (B : Graph.Builders)
    (hbuild : ∀ {α : Type} {m : Build α}, B.Holds m → ∀ p, (Dialogue.build m p).Stays K.Leads p) :
    Exchanges τ where
  Holds m := ∀ p, (m p).Stays K.Leads p
  pure _ p := K.refl p
  bind hm hf p := (hm p).bind (R := K.Leads) (fun _ _ _ => K.trans) fun a p' => hf a p'
  builders := B
  build := hbuild
  graph p := K.refl p
  fail _ p := K.refl p
  ask _ p := ⟨K.refl p, fun _ p' _ => K.refl p'⟩

section Led

variable {K : Passage τ} {rules : Rules τ}

theorem Step.run_leads {answer : NodeId → EStateM Error (Run τ) NodeId}
    (hanswer : ∀ x run, K.Leads run.pass (final (answer x run)).pass) {p : Step (Pass τ) α}
    {pass : Pass τ} (hp : p.Stays K.Leads pass) (m : Memo) :
    K.Leads pass (final (p.run answer m)).pass := by
  induction p generalizing pass m with
  | done outcome => cases outcome <;> exact hp
  | ask x state resume ih =>
    have hx := hanswer x ⟨m, state⟩
    rw [Step.run]
    cases he : answer x ⟨m, state⟩ with
    | error e run =>
      rw [he] at hx
      exact K.trans hp.1 hx
    | ok y run =>
      rw [he] at hx
      exact K.trans (K.trans hp.1 hx) (ih y run.pass (hp.2 y run.pass hx) run.memo)

/-- The pass is not touched when an outcome is recorded. -/
theorem settle_pass (x : NodeId) (r : EStateM.Result Error (Run τ) (Option NodeId)) :
    (final (settle x r)).pass = (final r).pass := by
  match r with
  | .error e run => rfl
  | .ok none run => rfl
  | .ok (some y) run =>
    simp only [settle]
    split <;> rfl

/-- What every rule does to passes, whole transformations do. -/
theorem Rules.apply_leads (htransform : ∀ x p, (rules.transform x p).Stays K.Leads p)
    (hcycle : ∀ x p, (rules.onCycle x p).Stays K.Leads p) (depth : Nat) (x : NodeId)
    (run : Run τ) : K.Leads run.pass (final (rules.apply depth x run)).pass := by
  induction depth generalizing x run with
  | zero => exact K.refl run.pass
  | succ depth ih =>
    rw [Rules.apply]
    split
    · exact K.refl run.pass
    · split
      · exact K.refl run.pass
      · exact Step.run_leads ih (hcycle x run.pass) run.memo
      · rw [settle_pass]
        exact Step.run_leads ih (htransform x run.pass) _

end Led

variable (C : Course)

/-- The graph of a pass keeps to a course. -/
abbrev Pass.Leads (p p' : Pass τ) : Prop := C.Leads p.graph p'.graph

/-- Passes keep to a course, whatever becomes of their logs. -/
def Graph.Course.passage (τ : Type) : Passage τ where
  Leads := Pass.Leads C
  refl p := C.refl p.graph
  trans := C.trans

/-- The computations in a transformation that keep to a course. -/
def Graph.Course.exchanges (τ : Type) : Exchanges τ :=
  (C.passage τ).exchanges C.builders fun {_ m} hm p => by
    have h := hm p.graph
    unfold Dialogue.build
    cases he : m p.graph <;> simp only [he] at h ⊢ <;> exact h

/-- Rules that keep to a course. -/
structure Rules.OnCourse (rules : Rules τ) : Prop where
  transform : ∀ x, (C.exchanges τ).Holds (rules.transform x)
  onCycle : ∀ x, (C.exchanges τ).Holds (rules.onCycle x)

/-- The computations on a run that keep to a course. -/
def Graph.Course.runs (τ : Type) : Closure (EStateM Error (Run τ)) :=
  .along (fun run run' => C.Leads run.pass.graph run'.pass.graph) (fun run => C.refl run.pass.graph)
    C.trans

variable {C}

/-- Where rules keep to a course, so do whole transformations. -/
theorem Rules.OnCourse.apply {rules : Rules τ} (h : rules.OnCourse C) (depth : Nat) (x : NodeId) :
    (C.runs τ).Holds (rules.apply depth x) :=
  Rules.apply_leads (K := C.passage τ) h.transform h.onCycle depth x

/-! ### Substitution -/

theorem Substitution.rules_onCourse (C : Course) (s : Substitution) : s.rules.OnCourse C where
  onCycle x := (C.exchanges Unit).pure x
  transform x := by
    have hoperands : (C.exchanges Unit).Holds (do return some (← Dialogue.operands x)) :=
      (C.exchanges Unit).bind ((C.exchanges Unit).operands x) fun _ => (C.exchanges Unit).pure _
    simp only [rules]
    cases s.value? x with
    | some y => exact (C.exchanges Unit).pure _
    | none =>
      apply (C.exchanges Unit).bind (C.exchanges Unit).graph
      intro g
      cases g.shape x with
      | constant | symbol => exact fun p => C.refl p.graph
      | _ => exact hoperands

theorem Graph.substitute_leads (C : Course) (s : Substitution) (x : NodeId) :
    C.builders.Holds (substitute s x) := by
  intro g
  have hrun := (s.rules_onCourse C).apply g.substitutionDepth x ⟨{}, ⟨g, ()⟩⟩
  rw [Graph.substitute]
  split
  · exact C.refl g
  · cases he : s.rules.apply g.substitutionDepth x ⟨{}, ⟨g, ()⟩⟩ <;> rw [he] at hrun <;> exact hrun

end ExactAlgebra
