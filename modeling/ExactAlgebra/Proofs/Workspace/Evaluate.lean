import ExactAlgebra.Workspace.Evaluate
import ExactAlgebra.Proofs.Transform.Contract

/-!
Operations on workspaces as operations on one of their graphs.
-/

namespace ExactAlgebra

variable {α : Type} {ws : Workspace} {k : Nat} {x : NodeId} {library : Library} {depth : Nat}

namespace Workspace

theorem mapM_eq_ok {β ε σ : Type} {f : α → EStateM ε σ β} {h : α → β} {s : σ} (as : List α)
    (hf : ∀ a ∈ as, f a s = .ok (h a) s) : as.mapM f s = .ok (as.map h) s := by
  induction as with
  | nil => rfl
  | cons a as ih =>
    have ha := hf a (List.mem_cons_self ..)
    have has := ih fun b hb => hf b (List.mem_cons_of_mem _ hb)
    rw [List.mapM_cons, List.map_cons]
    simp only [bind, EStateM.bind, ha, has]
    rfl

/-- A workspace in which one graph was replaced. -/
def setGraph (ws : Workspace) (k : Nat) (g : Graph) : Workspace :=
  { ws with graphs := ws.graphs.setIfInBounds k g }

theorem graph_setGraph (hk : k < ws.graphs.size) (g : Graph) : (ws.setGraph k g).graph k = g := by
  simp only [graph, setGraph, Array.getElem?_setIfInBounds_self_of_lt hk, Option.getD_some]

theorem setGraph_self (ws : Workspace) (k : Nat) : ws.setGraph k (ws.graph k) = ws := by
  have h : ws.graphs.setIfInBounds k (ws.graph k) = ws.graphs := by
    by_cases hk : k < ws.graphs.size
    · rw [graph, Array.getElem?_eq_getElem hk, Option.getD_some, Array.setIfInBounds, dif_pos hk]
      exact Array.set_getElem_self hk
    · exact Array.setIfInBounds_eq_of_size_le (not_lt.1 hk)
  rw [setGraph, h]

theorem size_setGraph (ws : Workspace) (k : Nat) (g : Graph) :
    (ws.setGraph k g).graphs.size = ws.graphs.size := Array.size_setIfInBounds

theorem within_eq (k : Nat) (m : Build α) (ws : Workspace) :
    within k m ws =
      match m (ws.graph k) with
      | .ok a g => .ok a (ws.setGraph k g)
      | .error e g => .error e (ws.setGraph k g) := by
  simp only [within, graph, setGraph]
  cases m (ws.graphs[k]?.getD .empty) <;> simp only [Array.setIfInBounds_setIfInBounds]

theorem make_eq (k : Nat) (m : Build NodeId) (ws : Workspace) :
    make k m ws =
      match m (ws.graph k) with
      | .ok x g => .ok (.node k x) (ws.setGraph k g)
      | .error e g => .error e (ws.setGraph k g) := by
  simp only [make, bind, EStateM.bind, within_eq]
  cases m (ws.graph k) <;> rfl

/-- A workspace after an evaluation in one of its graphs. -/
def afterRun (ws : Workspace) (k : Nat) (run : Run Journal) : Workspace :=
  { ws.setGraph k run.pass.graph with invocations := run.pass.log.invocations }

theorem graph_afterRun (hk : k < ws.graphs.size) (run : Run Journal) :
    (ws.afterRun k run).graph k = run.pass.graph := graph_setGraph hk _

end Workspace

namespace Transforming

/-- The run that a transformer starts in its graph. -/
def start (ws : Workspace) (t : Transformer (Array Fault)) : Run Journal :=
  ⟨t.memo, ⟨ws.graph t.graph, ⟨t.log, ws.invocations⟩⟩⟩

/-- A workspace and a transformer after a run. -/
def after (ws : Workspace) (k : Nat) (run : Run Journal) :
    Workspace × Transformer (Array Fault) :=
  (ws.afterRun k run, ⟨k, run.memo, run.pass.log.faults⟩)

theorem runEvaluation_eq (m : EStateM Error (Run Journal) α) (ws : Workspace)
    (t : Transformer (Array Fault)) :
    runEvaluation m (ws, t) =
      match m (start ws t) with
      | .ok a run => .ok a (after ws t.graph run)
      | .error e run => .error e (after ws t.graph run) := by
  simp only [runEvaluation, Transforming.run, start, Workspace.graph]
  cases m ⟨t.memo, ⟨ws.graphs[t.graph]?.getD .empty, ⟨t.log, ws.invocations⟩⟩⟩ with
  | ok a run =>
    simp only [after, Workspace.afterRun, Workspace.setGraph, Array.setIfInBounds_setIfInBounds]
  | error e run =>
    simp only [after, Workspace.afterRun, Workspace.setGraph, Array.setIfInBounds_setIfInBounds]

theorem node_eq (x : NodeId) (ws : Workspace) (t : Transformer (Array Fault)) :
    Transforming.node (.node t.graph x) (ws, t) = .ok x (ws, t) := by
  have h : Transforming.node (.node t.graph x) (ws, t) =
      (if t.graph = t.graph then pure x else throw .askedOutsideGraph :
        Transforming (Array Fault) NodeId) (ws, t) := rfl
  rw [h, if_pos rfl]
  rfl

theorem evaluate_eq (library : Library) (depth : Nat) (x : NodeId) (ws : Workspace)
    (t : Transformer (Array Fault)) :
    Transforming.evaluate library depth (.node t.graph x) (ws, t) =
      match evaluateIn library depth x (start ws t) with
      | .ok y run => .ok (.node t.graph y) (after ws t.graph run)
      | .error e run => .error e (after ws t.graph run) := by
  simp only [Transforming.evaluate, bind, EStateM.bind, node_eq, runEvaluation_eq]
  cases evaluateIn library depth x (start ws t) <;> rfl

end Transforming

namespace Workspace

/-- A run with a fresh memo in one graph of a workspace. -/
def startRun (ws : Workspace) (k : Nat) : Run Journal :=
  Transforming.start ws { graph := k, log := #[] }

theorem evaluateFaults_eq (library : Library) (depth : Nat) (k : Nat) (x : NodeId)
    (ws : Workspace) :
    evaluateFaults library depth (.node k x) ws =
      match evaluateIn library depth x (ws.startRun k) with
      | .ok y run => .ok (.node k y, run.pass.log.faults) (ws.afterRun k run)
      | .error e run => .error e (ws.afterRun k run) := by
  have h : evaluateFaults library depth (.node k x) ws =
      withFreshMemo k (Transforming.evaluate library depth (.node k x)) ws := rfl
  have heval := Transforming.evaluate_eq library depth x ws { graph := k, log := #[] }
  rw [h, withFreshMemo, heval]
  simp only [startRun]
  cases evaluateIn library depth x (Transforming.start ws { graph := k, log := #[] }) <;> rfl

theorem evaluate_eq (library : Library) (depth : Nat) (k : Nat) (x : NodeId) (ws : Workspace) :
    evaluate library depth (.node k x) ws =
      match evaluateIn library depth x (ws.startRun k) with
      | .ok y run => .ok (.node k y) (ws.afterRun k run)
      | .error e run => .error e (ws.afterRun k run) := by
  simp only [evaluate, bind, EStateM.bind, evaluateFaults_eq]
  cases evaluateIn library depth x (ws.startRun k) <;> rfl

end Workspace

end ExactAlgebra
