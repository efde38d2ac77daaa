import ExactAlgebra.Proofs.Workspace.Collection

/-!
Evaluation leaves no constants to fold, in no part of a result, except for powers at the limit of
exponents.
-/

namespace ExactAlgebra

variable {library : Library} {g : Graph} {x z : NodeId} {ws : Workspace} {k : Nat}

theorem Graph.Folded.part (h : g.Folded x) (hg : g.WellFormed) (hz : g.Part z x) : g.Folded z := by
  induction hz with
  | refl => exact h
  | tail _ hb ih => exact ih.operands hg _ hb

/-- The constants `-1` and `-65537`, and `-1 * (-1) ^ -65537`, node `5`. -/
def Graph.atLimit : Graph :=
  (((empty.extend (.constant (-1)) []).extend (.constant (-65537)) []).extend .power
    [2, 3]).extend .product [2, 4]

namespace Workspace

/-- An evaluation in graph `k` has ended with a node that `P` holds of, with an error, or because
less depth than `N` was given. -/
def EndsIn (P : Graph → NodeId → Prop) (k N depth : Nat) :
    EStateM.Result Error Workspace Handle → Prop
  | .ok h ws => ∃ y, h = .node k y ∧ P (ws.graph k) y
  | .error e ws => Fails e (ws.graph k) ∨ (e = .depthExhausted ∧ depth < N)

theorem EndsIn.mono {P Q : Graph → NodeId → Prop} {N depth : Nat}
    {r : EStateM.Result Error Workspace Handle} (h : EndsIn P k N depth r)
    (hP : ∀ g y, P g y → Q g y) : EndsIn Q k N depth r := by
  cases r with
  | ok h' ws =>
    obtain ⟨y, rfl, hy⟩ := h
    exact ⟨y, rfl, hP _ y hy⟩
  | error e ws => exact h

/-- Evaluation comes to what plain recursion comes to, if enough depth is given. -/
theorem evaluate_reduces (hlib : library.Changing Graph.Develops) (hk : k < ws.graphs.size)
    (hg : (ws.graph k).WellFormed) (hx : (ws.graph k).Elementary library.vocabulary x) :
    ∃ N, ∀ depth, EndsIn (fun g y => g.WellFormed ∧ g.Reduces library.vocabulary x y) k N depth
      (evaluate library depth (.node k x) ws) := by
  have hdepth : ∀ g, ¬ Fails .depthExhausted g := by
    rintro g (⟨h, -⟩ | h) <;> cases h
  obtain ⟨N, hN⟩ := Evaluation.exists_depth (permits library) hg hx hdepth
  refine ⟨N, fun depth => ?_⟩
  have hready : Ready library ws { graph := k, log := #[] } := .fresh library hk hg
  have hreduced := hN depth _ _ (hready.transforms hlib depth x)
  rw [evaluate_eq, startRun]
  cases he : evaluateIn library depth x (Transforming.start ws { graph := k, log := #[] }) with
  | ok y run =>
    rw [he] at hreduced
    obtain ⟨hw, -, hy⟩ := hreduced
    refine ⟨y, rfl, ?_⟩
    rw [graph_afterRun hk]
    exact ⟨hw, hy⟩
  | error e run =>
    rw [he] at hreduced
    rw [EndsIn, graph_afterRun hk]
    exact hreduced

/--
Evaluation folds constants, in every part of a result. It leaves no relation between two constants,
no negation of a constant, and no conjunction or disjunction that its constant operands decide. A
power of a constant with a constant exponent is left only if it has no exact value, or if its
exponent was too large before one was added to it. Evaluation comes to an end if enough depth is
given.
-/
theorem evaluate_folds (hlib : library.Changing Graph.Develops) (hk : k < ws.graphs.size)
    (hg : (ws.graph k).WellFormed) (hx : (ws.graph k).Elementary library.vocabulary x) :
    ∃ N, ∀ depth, EndsIn (fun g y => ∀ z, g.Part z y → g.Unfoldable z) k N depth
      (evaluate library depth (.node k x) ws) := by
  obtain ⟨N, hN⟩ := evaluate_reduces hlib hk hg hx
  refine ⟨N, fun depth => (hN depth).mono ?_⟩
  rintro g y ⟨hg', hy⟩ z hz
  exact (hy.folded.part hg' hz).unfoldable

/-- What is left of `-1 * (-1) ^ -65537` is `(-1) ^ -65536`, although that is `1`. -/
theorem evaluate_atLimit :
    Rational.power (-1) (-65536) = .ok (some 1) ∧
      match evaluate .silent 9 (.node 0 5) { graphs := #[Graph.atLimit] } with
      | .ok h ws => h = .node 0 7 ∧
          (ws.graph 0).node 7 = { shape := .power, operands := [2, 6] } ∧
          (ws.graph 0).value? 2 = some (-1) ∧ (ws.graph 0).value? 6 = some (-65536)
      | .error _ _ => False := by
  constructor
  · rw [Rational.power_of_ne_zero (by norm_num) (by decide) (by decide)]
    have hroot : Rational.root? (-65536 : Rat).den (-1) = some (-1) := if_pos rfl
    rw [hroot, Option.map_some, show (-65536 : Rat).num = -65536 from rfl,
      Even.neg_one_zpow (by decide)]
  · cbv

end Workspace

end ExactAlgebra
