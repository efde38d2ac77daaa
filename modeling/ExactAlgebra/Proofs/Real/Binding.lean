import ExactAlgebra.Proofs.Graph.Binding
import ExactAlgebra.Proofs.Real.Measure

/-!
Real values of expressions with bound symbols are the real values at the point that the symbols are
bound to.
-/

namespace ExactAlgebra.Graph

variable {ρ ρ' : String → Option Rat} {s s' : Substitution} {g g' : Graph} {x : NodeId} {u : Bool}
variable {v : ℝ} {V : Vocabulary}

/-- Real values depend on the values of leaves only. -/
theorem Measures.congr (h : Measures ρ s g u x v) (hx : g.Elementary V x)
    (hleaf : ∀ y, g.Elementary V y → g.leafValue? ρ s y = g.leafValue? ρ' s' y)
    (hfree : ∀ y, (g.shape y).IsSymbol ∨ s'.value? y = none) : Measures ρ' s' g u x v := by
  have hplain : ∀ {y σ}, ¬ σ.IsSymbol → Plain s g y σ → Plain s' g y σ := fun {y σ} hσ hy =>
    ⟨hy.lt_size, hy.not_loop, (hfree y).resolve_left (hy.shape_eq ▸ hσ), hy.shape_eq⟩
  induction h with
  | leaf hlt hq hn => exact .leaf hlt ((hleaf _ hx).symm.trans hq) hn
  | sum v hp _ ih => exact .sum v (hplain id hp) fun y hy => ih y hy (hx.operands y hy)
  | product v hp _ ih => exact .product v (hplain id hp) fun y hy => ih y hy (hx.operands y hy)
  | power hp hops _ _ hw ihe ih =>
    apply Measures.power (hplain id hp) hops (ihe (hx.operands _ _)) (ih (hx.operands _ _)) hw
    all_goals simp [hops]

/-- What has a real value without values for symbols has none. -/
theorem Measures.elementary (hg : g.WellFormed) (h : Measures (fun _ => none) [] g u x v) :
    g.Elementary V x := by
  induction h with
  | @leaf _ x q hlt hq hn =>
    have hl := (Measures.leaf hlt hq hn).not_loop rfl
    rw [leafValue?_of_not_bound rfl hl] at hq
    cases hshape : g.shape x with
    | constant =>
      have harity := hg.arity x
      rw [hshape] at harity
      refine .node hlt hl (by rw [hshape]; trivial) fun y hy => ?_
      rw [List.length_eq_zero_iff.1 harity] at hy
      cases hy
    | _ =>
      rw [hshape] at hq
      cases hq
  | sum _ hp _ ih => exact .node hp.lt_size hp.not_loop (by rw [hp.shape_eq]; trivial) ih
  | product _ hp _ ih => exact .node hp.lt_size hp.not_loop (by rw [hp.shape_eq]; trivial) ih
  | power hp hops _ _ _ ihe ih =>
    refine .node hp.lt_size hp.not_loop (by rw [hp.shape_eq]; trivial) fun y hy => ?_
    rw [hops] at hy
    exact (List.mem_pair.1 hy).elim (· ▸ ih) (· ▸ ihe)

end ExactAlgebra.Graph
