import ExactAlgebra.Proofs.Workspace.Polynomials
import ExactAlgebra.Workspace.Build

/-!
Expanded Laurent polynomials have canonical forms: the value of one is its own value, and the
difference of two has the value `0` exactly if they stand for the same polynomial.
-/

namespace ExactAlgebra

variable {library : Library} {V : Graph.Vocabulary} {g : Graph} {x y : NodeId} {p q : Laurent}
variable {k : Nat}

theorem Graph.WellFormed.represents_zero (hg : g.WellFormed) :
    g.Represents library V Graph.zero 0 where
  combined := hg.single_zero.combined
  denotes ρ := by
    rw [map_zero]
    exact hg.denotes_zero

namespace Workspace

/-- The value of an expression, and the value of that. -/
def evaluateTwice (library : Library) (depth : Nat) (h : Handle) : Work (Handle × Handle) := do
  let l ← evaluate library depth h
  let r ← evaluate library depth l
  return (l, r)

/-- The value of a difference. -/
def evaluateDifference (library : Library) (depth : Nat) (l r : Handle) : Work Handle := do
  evaluate library depth (← subtract l r)

/-- Evaluating the value of an expanded expression once more leads to the same node. -/
theorem evaluateTwice_converges (hlib : library.Changing Graph.Develops) (hg : g.WellFormed)
    (hx : g.Elementary g.names x) (hp : g.Expanded x p) :
    Converges k (fun depth => evaluateTwice library depth (.node k x)) g fun r _ => r.1 = r.2 := by
  have hV' : ∀ op, ¬ g.names.operators op := fun _ => id
  apply (evaluate_represents hlib hg.named_names hV' hx hp).bind
  rintro _ g₁ hg₁ hext₁ ⟨y, rfl, hy⟩
  have hV₁ := hg.named_names.grow hext₁ hg₁
  apply (evaluate_represents hlib hV₁ hV' hy.combined.elementary (hy.expanded hg₁)).bind
  rintro _ g₂ hg₂ hext₂ ⟨z, rfl, hz⟩
  refine .pure hg₂ (congrArg (Handle.node k) ?_)
  exact ((hy.extends hg₁ hext₂).eq_iff (hV₁.grow hext₂ hg₂) hz).2 rfl

/-- The value of a difference tells whether two expanded expressions stand for one polynomial. -/
theorem evaluateDifference_converges (hlib : library.Changing Graph.Develops) (hg : g.WellFormed)
    (hx : g.Elementary g.names x) (hy : g.Elementary g.names y) (hp : g.Expanded x p)
    (hq : g.Expanded y q) :
    Converges k (fun depth => evaluateDifference library depth (.node k x) (.node k y)) g
      fun h _ => h = .node k Graph.zero ↔ p = q := by
  have hsubtract : subtract (.node k x) (.node k y) = make k (Graph.subtract x y) := by
    simp only [subtract, together, if_true, pure_bind]
  unfold evaluateDifference
  rw [hsubtract]
  apply (Converges.make (Graph.subtract_expanded hg hx hy hp hq)).bind
  rintro _ g₁ hg₁ hext₁ ⟨z, rfl, hz, hpq⟩
  have hV₁ := hg.named_names.grow hext₁ hg₁
  apply (evaluate_represents hlib hV₁ (fun _ => id) hz hpq).mono
  rintro _ g₂ hg₂ hext₂ ⟨w, rfl, hw⟩
  have hzero := hw.eq_iff (hV₁.grow hext₂ hg₂) hg₂.represents_zero
  rw [Handle.node.injEq, eq_self, true_and, hzero, sub_eq_zero]

end Workspace

end ExactAlgebra
