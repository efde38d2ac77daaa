import ExactAlgebra.Proofs.Graph.Evolution

/-!
How programs change graphs: by building nodes, by opening and closing placeholders, and by recording
forms, one after another. What all of these steps keep to, so does whatever is composed of them.
-/

namespace ExactAlgebra.Graph

variable {g g' g'' : Graph} {s : Shape} {xs : List NodeId}

/-- A way in which graphs change that all constructions keep to. -/
structure Course where
  Leads : Graph → Graph → Prop
  refl : ∀ g, Leads g g
  trans : ∀ {g g' g''}, Leads g g' → Leads g' g'' → Leads g g''
  construct : ∀ (c : Construction) g, Leads g (final (c.build g))

namespace Course

variable (C : Course)

theorem intern_leads (hs : s.IsVerbatim) (harity : s.Allows xs.length) (g : Graph) :
    C.Leads g (final (intern s xs g)) := by
  cases s with
  | constant q =>
    obtain rfl := List.eq_nil_of_length_eq_zero harity
    exact C.construct (.constant q) g
  | symbol name =>
    obtain rfl := List.eq_nil_of_length_eq_zero harity
    exact C.construct (.symbol name) g
  | binary op =>
    obtain ⟨x, y, rfl⟩ := List.length_eq_two.1 harity
    exact C.construct (.binary op x y) g
  | unary op =>
    obtain ⟨x, rfl⟩ := List.length_eq_one_iff.1 harity
    exact C.construct (.unary op x) g
  | set => exact C.construct (.set xs) g
  | arrow =>
    obtain ⟨x, y, rfl⟩ := List.length_eq_two.1 harity
    exact C.construct (.arrow x y) g
  | sum | product | power | call => exact hs.elim

/-- The constructions that keep to a course, whatever their outcome. -/
def builders : Builders where
  toClosure := .along C.Leads C.refl C.trans
  throw _ := C.refl
  get := C.refl
  intern := C.intern_leads
  sum ts := C.construct (.sum ts)
  product fs := C.construct (.product fs)
  power x y := C.construct (.power x y)
  call f xs := C.construct (.call f xs)
  callAgain {x xs k} hcall hother := by
    intro g
    change C.Leads g (final (k g g))
    cases hs : g.shape x with
    | call f =>
      have heq : withOperands x xs g = k g g := by
        rw [withOperands, get_bind, hs, hcall g f hs]
      rw [← heq]
      exact C.construct (.withOperands x xs) g
    | _ => exact hother g (fun f hf => by rw [hs] at hf; cases hf) g

end Course

/-! ### Actions -/

/-- What is done with a graph in one step. -/
inductive Action where
  | construct (c : Construction)
  | openLoop (label : String)
  | closeLoop (placeholder body : NodeId)
  | recordForm (x form : NodeId)

/-- The graph that is left, also when the action fails. -/
def Action.after : Action → Graph → Graph
  | construct c, g => final (c.build g)
  | openLoop label, g => final (Graph.openLoop label g)
  | closeLoop placeholder body, g => final (Graph.closeLoop placeholder body g)
  | recordForm x form, g => final (Graph.recordForm x form g)

/-- `g'` is what actions make of `g`, one after another. -/
inductive Becomes (g : Graph) : Graph → Prop
  | refl : Becomes g g
  | act {g' : Graph} (h : g.Becomes g') (a : Action) : g.Becomes (a.after g')

theorem Becomes.trans (h : g.Becomes g') (h' : g'.Becomes g'') : g.Becomes g'' := by
  induction h' with
  | refl => exact h
  | act _ a ih => exact ih.act a

theorem Action.becomes (a : Action) (g : Graph) : g.Becomes (a.after g) := Becomes.refl.act a

/-- The course of programs, which do one thing after another. -/
def acting : Course where
  Leads := Becomes
  refl _ := .refl
  trans := .trans
  construct c := (Action.construct c).becomes

/-! ### What actions keep -/

theorem Action.after_develops (a : Action) (hg : g.WellFormed) :
    (a.after g).WellFormed ∧ g.Develops (a.after g) := by
  cases a with
  | construct c => exact (Grows.developing (c.build_holds growing.builders)).final hg
  | openLoop label => exact (openLoop_grows label).developing.final hg
  | closeLoop x y => exact (closeLoop_developing x y).final hg
  | recordForm x y =>
    exact ((recordForm_changing x y).mono fun _ _ _ => Extends.develops).final hg

theorem Becomes.develops (h : g.Becomes g') (hg : g.WellFormed) :
    g'.WellFormed ∧ g.Develops g' := by
  induction h with
  | refl => exact ⟨hg, .refl g⟩
  | act _ a ih =>
    obtain ⟨hg', hd⟩ := ih
    obtain ⟨hg'', hd'⟩ := a.after_develops hg'
    exact ⟨hg'', hd.trans hd'⟩

end ExactAlgebra.Graph
