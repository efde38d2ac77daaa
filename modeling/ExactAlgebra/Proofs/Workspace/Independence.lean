import ExactAlgebra.Proofs.Evaluation.Standing
import ExactAlgebra.Proofs.Workspace.Frame
import ExactAlgebra.Proofs.Workspace.Portability

/-!
What was evaluated before makes no difference to expressions without self-reference, calls and
placeholders: they stay what they are, and evaluating them leads to the same trees. What was
evaluated before may be self-referential, may call functions, and may be in other graphs.
-/

namespace ExactAlgebra

open ExactAlgebra.Evaluation
open ExactAlgebra.Graph (Develops)

variable {library : Library} {g g' : Graph} {x : NodeId}

namespace Graph

theorem Intact.extends (h : g.Intact (fun _ => False) g') : g.Extends g' where
  size_le := h.size_le
  node_eq x hx := ((h.node_eq x hx).resolve_right fun hc => hc.1).1
  callees_prefix := h.callees_prefix

/-- Symbols are found by their names as before. -/
theorem Intact.interned (h : g.Intact (fun _ => False) g') (hg : g.WellFormed)
    (hx : g.interned.symbols x) : g'.interned.symbols x := by
  have hlt := hg.named.lt_size x hx
  obtain ⟨name, hn, hi⟩ := hx
  exact ⟨name, (h.extends.node_eq x hlt).trans hn, (h.index_iff _ x hlt).2 hi⟩

theorem Intact.sameTree (h : g.Intact (fun _ => False) g') (hg : g.WellFormed) (hg' : g'.WellFormed)
    (hx : g.Elementary g.interned x) : SameTree g g' x x where
  left := hx
  right := by
    apply (h.extends.elementary hx).mono
    intro y s hs
    cases s with
    | symbol => exact h.interned hg hs
    | _ => exact hs
  tree_eq := (h.extends.tree_eq hg hg' hx).symm

end Graph

namespace Workspace

variable {ws ws' ws'' : Workspace} {k : Nat}

/-- Nothing in the graphs of `ws` was changed on the way to `ws'`, and they are still graphs. -/
structure Keeps (ws ws' : Workspace) : Prop extends ws.Intact (fun _ => False) ws' where
  wellFormed : ∀ k, k < ws.graphs.size → (ws.graph k).WellFormed → (ws'.graph k).WellFormed

theorem Keeps.refl (ws : Workspace) : ws.Keeps ws := ⟨.refl _ ws, fun _ _ => id⟩

theorem Keeps.trans (h : ws.Keeps ws') (h' : ws'.Keeps ws'') : ws.Keeps ws'' where
  toIntact := h.toIntact.trans h'.toIntact
  wellFormed k hk hg := h'.wellFormed k (hk.trans_le h.size_le) (h.wellFormed k hk hg)

theorem evaluate_keeps (hlib : library.Intact fun _ => False) (hlib' : library.Changing Develops)
    (depth : Nat) (h : Handle) (ws : Workspace) :
    ws.Keeps (final (evaluate library depth h ws)) where
  toIntact := evaluate_intact (S := fun _ => False) (fun _ => hlib) depth h ws
  wellFormed k hk hg := by
    cases h with
    | empty => exact hg
    | node k' x =>
      have hafter : ∀ run, (k = k' → run.pass.graph.WellFormed) →
          ((ws.afterRun k' run).graph k).WellFormed := by
        intro run hrun
        by_cases hk' : k = k'
        · subst hk'
          rw [graph_afterRun hk]
          exact hrun rfl
        · change ((ws.setGraph k' run.pass.graph).graph k).WellFormed
          rwa [graph_setGraph_of_ne hk']
      have hrun : k = k' →
          (final (evaluateIn library depth x (ws.startRun k'))).pass.graph.WellFormed := by
        rintro rfl
        exact (evaluateIn_develops hlib' depth x (ws.graph k) {} _ hg (Memo.holds_empty _ _) trivial
          (Memo.leads_empty _ _ x)).final.1
      rw [evaluate_eq]
      cases he : evaluateIn library depth x (ws.startRun k') <;> rw [he] at hrun <;>
        exact hafter _ hrun

/-- Expressions are evaluated one after the other, each to a depth of its own. -/
def afterEvaluating (library : Library) (es : List (Nat × Handle)) (ws : Workspace) : Workspace :=
  es.foldl (fun ws e => final (evaluate library e.1 e.2 ws)) ws

theorem afterEvaluating_keeps (hlib : library.Intact fun _ => False)
    (hlib' : library.Changing Develops) (es : List (Nat × Handle)) (ws : Workspace) :
    ws.Keeps (afterEvaluating library es ws) := by
  induction es generalizing ws with
  | nil => exact .refl ws
  | cons e es ih => exact (evaluate_keeps hlib hlib' e.1 e.2 ws).trans (ih _)

/-- As long as nothing is changed, an expression can be evaluated now or later. -/
theorem Keeps.evaluate (h : ws.Keeps ws') (hk : k < ws.graphs.size) (hg : (ws.graph k).WellFormed)
    (hx : (ws.graph k).Elementary (ws.graph k).interned x) (depth : Nat) :
    EndAlike k k (evaluate library depth (.node k x) ws)
      (evaluate library depth (.node k x) ws') := by
  have hg' := h.wellFormed k hk hg
  exact evaluate_endAlike hk (hk.trans_le h.size_le) hg hg' ((h.graph k hk).sameTree hg hg' hx)

/-- What an expression is evaluated to does not depend on what was evaluated before. -/
theorem evaluate_afterEvaluating (hlib : library.Intact fun _ => False)
    (hlib' : library.Changing Develops) (hk : k < ws.graphs.size) (hg : (ws.graph k).WellFormed)
    (hx : (ws.graph k).Elementary (ws.graph k).interned x) (depth : Nat) (es : List (Nat × Handle)) :
    EndAlike k k (evaluate library depth (.node k x) ws)
      (evaluate library depth (.node k x) (afterEvaluating library es ws)) :=
  (afterEvaluating_keeps hlib hlib' es ws).evaluate hk hg hx depth

end Workspace

end ExactAlgebra
