import ExactAlgebra.Proofs.Collection.Scaling
import ExactAlgebra.Proofs.Reachable.Regrouping
import ExactAlgebra.Proofs.Workspace.Folding

/-!
Numbers act on the sums that evaluation leaves: a sum times one number and then another is the sum
times the product of both, and a sum times a number and then its inverse is the sum again.
-/

namespace ExactAlgebra

namespace Graph

variable {g : Graph} {s : NodeId} {w : Rat}

/-- Numbers other than zero act on `s` by multiplying its terms. Only for lack of room may there be
no such node. -/
structure ActedOn (g : Graph) (s : NodeId) : Prop where
  /-- Whichever is built first, it is the node that the other comes to. -/
  mul : ∀ v w, v ≠ 0 → w ≠ 0 →
    Meets Overflow (both (scaleTwice v w s) (scaleSum (v * w) s)) g (fun p _ => p.1 = p.2) ∧
      Meets Overflow (both (scaleSum (v * w) s) (scaleTwice v w s)) g fun p _ => p.1 = p.2
  inv : ∀ w, w ≠ 0 → Meets Overflow (scaleTwice w w⁻¹ s) g fun z _ => z = s

/-- Two ways to multiply a sum by one number come to one node. -/
theorem both_isMultiple {m m' : Build NodeId} (hg : g.WellFormed) (hs : g.Collected s)
    (hm : ∀ g', g'.WellFormed → g.Extends g' →
      Meets Overflow m g' fun z g'' => g''.IsMultiple w s z)
    (hm' : ∀ g', g'.WellFormed → g.Extends g' →
      Meets Overflow m' g' fun z g'' => g''.IsMultiple w s z) :
    Meets Overflow (both m m') g fun p _ => p.1 = p.2 := by
  apply (hm g hg (.refl g)).bind
  intro y g₁ hg₁ hx₁ hy
  apply (hm' g₁ hg₁ hx₁).bind
  intro z g₂ hg₂ hx₂ hz
  have hy₂ := hy.extends hg₁ (hx₁.collected hg hs) hx₂
  exact .pure hg₂ (hy₂.unique hz hg₂)

theorem Collected.actedOn (hs : g.Collected s) (hg : g.WellFormed) (ho : (g.node s).isOpenSum) :
    g.ActedOn s := by
  have hlater : ∀ {g'}, g.Extends g' → (g'.node s).isOpenSum := fun hx => by
    rwa [hx.node_eq s hs.lt_size]
  constructor
  · intro v w hv hw
    have htwice : ∀ g', g'.WellFormed → g.Extends g' →
        Meets Overflow (scaleTwice v w s) g' fun z g'' => g''.IsMultiple (v * w) s z :=
      fun g' hg' hx => scaleTwice_isMultiple hg' (hx.collected hg hs) (hlater hx) hv hw
    have honce : ∀ g', g'.WellFormed → g.Extends g' →
        Meets Overflow (scaleSum (v * w) s) g' fun z g'' => g''.IsMultiple (v * w) s z :=
      fun g' hg' hx => scaleSum_isMultiple hg' (hx.collected hg hs) (hlater hx) (mul_ne_zero hv hw)
    exact ⟨both_isMultiple hg hs htwice honce, both_isMultiple hg hs honce htwice⟩
  · intro w hw
    apply (scaleTwice_isMultiple hg hs ho hw (inv_ne_zero hw)).mono
    intro z g' hg' hx hz
    rw [mul_inv_cancel₀ hw] at hz
    exact hz.unique (.one (hx.collected hg hs) (hlater hx)) hg'

/-- The graph of `x + x` and of `x + x + 1`, which is its last node. -/
def doubledPlusOne : Graph := doubled.extend .sum [2, 2, 1]

theorem doubledPlusOne_wellFormed : doubledPlusOne.WellFormed := by
  refine doubled_wellFormed.extend ⟨by decide, fun _ => Shape.noConfusion, trivial⟩ ?_
  simp [doubled, extend, push, empty]

theorem doubledPlusOne_elementary (V : Vocabulary) (hV : V.symbols 2) :
    doubledPlusOne.Elementary V 4 := by
  have hsymbol : doubledPlusOne.Elementary V 2 :=
    .of_node (by decide) rfl hV fun _ hy => absurd hy List.not_mem_nil
  refine .of_node (by decide) rfl trivial fun y hy => ?_
  simp only [List.mem_cons, List.not_mem_nil, or_false] at hy
  rcases hy with rfl | rfl | rfl
  · exact hsymbol
  · exact hsymbol
  · exact doubledPlusOne_wellFormed.elementary_one

end Graph

namespace Workspace

variable {library : Library} {x : NodeId} {ws : Workspace} {k : Nat}

/--
On every sum in the result of an evaluation, numbers other than zero act: in this graph, and in all
that become of it by adding nodes, a sum times a number and then another is the same node as the sum
times their product, and a sum times a number and then its inverse is the sum. Evaluation comes to an
end if enough depth is given. Calls are to functions of rationals, for what a function of expressions
replies is not evaluated.
-/
theorem evaluate_actedOn (hlib : library.Changing Graph.Develops) (hk : k < ws.graphs.size)
    (hg : (ws.graph k).WellFormed) (hx : (ws.graph k).Elementary library.vocabulary x) :
    ∃ N, ∀ depth, EndsIn (fun g y => ∀ s, g.Part s y → g.shape s = .sum →
      ∀ g', g'.WellFormed → g.Extends g' → g'.ActedOn s) k N depth
      (evaluate library depth (.node k x) ws) := by
  obtain ⟨N, hN⟩ := evaluate_reduces hlib hk hg hx
  refine ⟨N, fun depth => (hN depth).mono ?_⟩
  rintro g y ⟨hwf, hy⟩ s hs hsum g' hwf' hext
  have hc := hy.collected.part hs
  refine (hext.collected hwf hc).actedOn hwf' ?_
  rw [hext.node_eq s hc.lt_size]
  exact Graph.isOpenSum_iff.2 ⟨hsum, hc.isLoop_eq⟩

/-- `x + x + 1` becomes the sum `2 * x + 1`, on which numbers act. -/
theorem evaluate_doubledPlusOne_actedOn :
    (seen id (evaluate .silent 9 (.node 0 4) { graphs := #[Graph.doubledPlusOne] })).1 =
      .ok (.node 0 7) ∧
    ∃ N, ∀ depth, EndsIn (fun g y => ∀ s, g.Part s y → g.shape s = .sum →
      ∀ g', g'.WellFormed → g.Extends g' → g'.ActedOn s) 0 N depth
      (evaluate .silent depth (.node 0 4) { graphs := #[Graph.doubledPlusOne] }) := by
  have hsize : 0 < (Workspace.mk #[Graph.doubledPlusOne] [] #[]).graphs.size := by decide
  refine ⟨by cbv, ?_⟩
  exact evaluate_actedOn silent_changing hsize Graph.doubledPlusOne_wellFormed
    (Graph.doubledPlusOne_elementary Library.silent.vocabulary trivial)

end Workspace

end ExactAlgebra
