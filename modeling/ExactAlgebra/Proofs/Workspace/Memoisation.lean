import Mathlib
import ExactAlgebra.Proofs.Evaluation.Elementary
import ExactAlgebra.Proofs.Evaluation.Evolution
import ExactAlgebra.Proofs.Transform.Memoisation

/-!
Evaluation of expressions that were built without self-reference, and that call functions of
rationals only. The memo of an evaluation is not to be seen in its outcome, whatever was evaluated
with it before: the outcome is that of evaluation by plain recursion. So a batch evaluates each of
its expressions as if it stood alone.
-/

namespace ExactAlgebra

open ExactAlgebra.Graph (Vocabulary)

variable {α β σ : Type} {library : Library} {g g₀ : Graph} {ws ws' : Workspace} {k n depth : Nat}
variable {x : NodeId} {s : Substitution} {t : Transformer (Array Fault)}

/-- All symbols, and the functions of rationals. -/
def Library.vocabulary (library : Library) : Vocabulary :=
  ⟨fun _ => True, library.IsReal, fun _ => True⟩

namespace Evaluation

theorem rules_uniform (hlib : library.Changing Graph.Develops) :
    (rules library).Uniform library.IsReal where
  onCycle _ := rfl
  wanders x :=
    have hlib' : library.Changing developing.contract.Frame := hlib
    transform_wanders hlib' id x
  follows _ _ _ _ hV hg hx := transform_follows hV hg hx

end Evaluation

/-- The value of a node by plain recursion. -/
def Graph.recurse (library : Library) (depth : Nat) (x : NodeId) : Build NodeId := fun g =>
  match (Evaluation.rules library).recurse depth x ⟨g, {}⟩ with
  | .ok y p => .ok y p.graph
  | .error e p => .error e p.graph

namespace Workspace

/-- The value of an expression by plain recursion. -/
def recurse (library : Library) (depth : Nat) : Handle → Work Handle
  | .node k x => make k (Graph.recurse library depth x)
  | .empty => throw .transformerWithoutGraph

/-- The values of several expressions at one point, each by plain recursion. -/
def recurseEach (library : Library) (depth : Nat) (hs : List Handle)
    (pairs : List (Handle × Handle)) : Work (List Handle) :=
  hs.mapM fun h => do recurse library depth (← substitute h pairs)

/-- The values of several expressions at one point, each evaluated alone. -/
def evaluateEach (library : Library) (depth : Nat) (hs : List Handle)
    (pairs : List (Handle × Handle)) : Work (List Handle) :=
  hs.mapM fun h => do return (← evaluateBound library depth h pairs).1

/-- What an outcome shows: the value or the exception, and the graphs that are left. -/
def seen (workspace : σ → Workspace) (r : EStateM.Result Error σ α) :
    Except Error α × Array Graph :=
  match r with
  | .ok a s => (.ok a, (workspace s).graphs)
  | .error e s => (.error e, (workspace s).graphs)

/-- The uses of one transformer for evaluation. Between them anything may be done to the graph; each
of them may concern any expression, and may fail. -/
inductive Used (library : Library) : Workspace → Transformer (Array Fault) → Prop
  | fresh (ws : Workspace) (k : Nat) (hk : k < ws.graphs.size) (hg : (ws.graph k).WellFormed) :
      Used library ws { graph := k, log := #[] }
  | work {ws ws' : Workspace} {t : Transformer (Array Fault)} (h : Used library ws t)
      (hk : t.graph < ws'.graphs.size) (hg : (ws'.graph t.graph).WellFormed)
      (hd : (ws.graph t.graph).Develops (ws'.graph t.graph)) : Used library ws' t
  | evaluate {ws : Workspace} {t : Transformer (Array Fault)} (h : Used library ws t)
      (depth : Nat) (e : Handle) :
      Used library (final (Transforming.evaluate library depth e (ws, t))).1
        (final (Transforming.evaluate library depth e (ws, t))).2

/-- A transformer between two evaluations. -/
structure Ready (library : Library) (ws : Workspace) (t : Transformer (Array Fault)) : Prop where
  inRange : t.graph < ws.graphs.size
  wellFormed : (ws.graph t.graph).WellFormed
  holds : t.memo.Holds (remembering (Evaluation.rules library) library.IsReal) (ws.graph t.graph)
  idle : ∀ i, t.memo.mark? i ≠ some .inProgress

theorem Ready.fresh (library : Library) (hk : k < ws.graphs.size) (hg : (ws.graph k).WellFormed) :
    Ready library ws { graph := k, log := #[] } :=
  ⟨hk, hg, Memo.holds_empty _ _, fun i h => by simp [Memo.mark?] at h⟩

theorem Ready.develops (h : Ready library ws t) (hk : t.graph < ws'.graphs.size)
    (hg : (ws'.graph t.graph).WellFormed)
    (hd : (ws.graph t.graph).Develops (ws'.graph t.graph)) : Ready library ws' t :=
  ⟨hk, hg, h.holds.frame h.wellFormed hd, h.idle⟩

/-- What one evaluation in the graph of a transformer does. -/
theorem Ready.transforms (h : Ready library ws t) (hlib : library.Changing Graph.Develops)
    (depth : Nat) (x : NodeId) :
    Transforms (Evaluation.rules library) library.IsReal depth x (ws.graph t.graph) t.memo
      (evaluateIn library depth x (Transforming.start ws t)) :=
  (Evaluation.rules_uniform hlib).answering depth x (ws.graph t.graph) t.memo _ h.wellFormed
    h.holds fun i hi => absurd hi (h.idle i)

theorem Ready.after {run : Run Journal} (h : Ready library ws t)
    (hl : Leaves (Evaluation.rules library) library.IsReal (ws.graph t.graph) t.memo run) :
    Ready library (ws.afterRun t.graph run) ⟨t.graph, run.memo, run.pass.log.faults⟩ := by
  have hgraph := graph_afterRun h.inRange run
  refine ⟨?_, ?_, ?_, fun i hi => h.idle i ((hl.marks i).1 hi)⟩
  · exact (size_setGraph ws t.graph run.pass.graph).symm ▸ h.inRange
  · rw [hgraph]
    exact hl.wellFormed
  · rw [hgraph]
    exact hl.holds

/-- Whatever is evaluated, a transformer can be used again. -/
theorem Ready.evaluate (h : Ready library ws t) (hlib : library.Changing Graph.Develops)
    (depth : Nat) (e : Handle) :
    Ready library (final (Transforming.evaluate library depth e (ws, t))).1
      (final (Transforming.evaluate library depth e (ws, t))).2 := by
  cases e with
  | empty => exact h
  | node k x =>
    by_cases hk : k = t.graph
    · subst hk
      have hl := (h.transforms hlib depth x).leaves
      rw [Transforming.evaluate_eq]
      cases he : evaluateIn library depth x (Transforming.start ws t) <;> rw [he] at hl <;>
        exact h.after hl
    · have hout : Transforming.evaluate library depth (.node k x) (ws, t) =
          .error .askedOutsideGraph (ws, t) := by
        have hnode : Transforming.node (.node k x) (ws, t) =
            .error .askedOutsideGraph (ws, t) := by
          have heq : Transforming.node (.node k x) (ws, t) =
              (if k = t.graph then pure x else throw .askedOutsideGraph :
                Transforming (Array Fault) NodeId) (ws, t) := rfl
          rw [heq, if_neg hk]
          rfl
        simp only [Transforming.evaluate, bind, EStateM.bind, hnode]
      rw [hout]
      exact h

theorem Used.ready (hlib : library.Changing Graph.Develops) (h : Used library ws t) :
    Ready library ws t := by
  induction h with
  | fresh ws k hk hg => exact .fresh library hk hg
  | work _ hk hg hd ih => exact ih.develops hk hg hd
  | evaluate _ depth e ih => exact ih.evaluate hlib depth e

/-! ### Comparing evaluation with plain recursion -/

theorem recurse_eq (library : Library) (n k : Nat) (x : NodeId) (ws : Workspace) :
    recurse library n (.node k x) ws =
      match Graph.recurse library n x (ws.graph k) with
      | .ok y g => .ok (.node k y) (ws.setGraph k g)
      | .error e g => .error e (ws.setGraph k g) := by
  simp only [recurse, make, bind, EStateM.bind, within_eq]
  cases Graph.recurse library n x (ws.graph k) <;> rfl

theorem graph_congr (h : ws.graphs = ws'.graphs) (k : Nat) : ws.graph k = ws'.graph k := by
  rw [graph, graph, h]

theorem setGraph_congr (h : ws.graphs = ws'.graphs) (k : Nat) (g : Graph) :
    (ws.setGraph k g).graphs = (ws'.setGraph k g).graphs := by
  simp only [setGraph, h]

/-- Plain recursion on an expression goes on too long, or does what an evaluation does. -/
inductive Compares (library : Library) (ws ws' : Workspace) (t : Transformer (Array Fault))
    (n : Nat) (x : NodeId) : EStateM.Result Error (Run Journal) NodeId → Prop
  | exhausted {r : EStateM.Result Error (Run Journal) NodeId}
      (h : Exhausted (recurse library n (.node t.graph x) ws')) : Compares library ws ws' t n x r
  | ok {y : NodeId} {run : Run Journal}
      (h : recurse library n (.node t.graph x) ws' =
        .ok (.node t.graph y) (ws'.setGraph t.graph run.pass.graph))
      (hready : Ready library (ws.afterRun t.graph run) ⟨t.graph, run.memo, run.pass.log.faults⟩)
      (hx : (ws.graph t.graph).Extends run.pass.graph) :
      Compares library ws ws' t n x (.ok y run)
  | error {e : Error} {run : Run Journal}
      (h : recurse library n (.node t.graph x) ws' =
        .error e (ws'.setGraph t.graph run.pass.graph)) :
      Compares library ws ws' t n x (.error e run)

theorem Ready.compares (h : Ready library ws t) (hlib : library.Changing Graph.Develops)
    (hgraphs : ws.graphs = ws'.graphs) (hn : n ≤ depth)
    (hx : (ws.graph t.graph).Elementary library.vocabulary x) :
    Compares library ws ws' t n x (evaluateIn library depth x (Transforming.start ws t)) := by
  have htrans := h.transforms hlib depth x
  have hV : ∀ f, library.vocabulary.callees f → library.IsReal f := fun _ hf => hf
  have hleaves := htrans.leaves
  have hext := htrans.extends_of library.vocabulary hV hx
  have hsame := htrans.same library.vocabulary hV hx n {}
  have hrec := recurse_eq library n t.graph x ws'
  rw [Graph.recurse, ← graph_congr hgraphs t.graph] at hrec
  rcases hsame with ⟨p, hexh⟩ | hsame
  · rw [hexh] at hrec
    exact .exhausted ⟨_, hrec⟩
  cases he : evaluateIn library depth x (Transforming.start ws t) with
  | ok y run =>
    rw [he] at hsame hext hleaves
    obtain ⟨log, hq⟩ := hsame
    rw [hq] at hrec
    exact .ok hrec (h.after hleaves) hext
  | error e run =>
    rw [he] at hsame
    rcases hsame with ⟨-, hlt⟩ | ⟨log, hq⟩
    · exact absurd hlt (Nat.not_lt.2 hn)
    · rw [hq] at hrec
      exact .error hrec

/-- An evaluation shows what plain recursion shows. -/
theorem Ready.seen_evaluate (h : Ready library ws t) (hlib : library.Changing Graph.Develops)
    (hn : n ≤ depth) (hx : (ws.graph t.graph).Elementary library.vocabulary x)
    (hfin : ¬ Exhausted (recurse library n (.node t.graph x) ws)) :
    seen Prod.fst (Transforming.evaluate library depth (.node t.graph x) (ws, t)) =
      seen id (recurse library n (.node t.graph x) ws) := by
  have hc := h.compares hlib rfl hn hx
  rw [Transforming.evaluate_eq]
  generalize evaluateIn library depth x (Transforming.start ws t) = r at hc ⊢
  cases hc with
  | exhausted hexh => exact absurd hexh hfin
  | ok hrec =>
    rw [hrec]
    rfl
  | error hrec =>
    rw [hrec]
    rfl

/-- A computation that went on too long, or one with the same outcome and the same graphs; `Q` holds
of the states after a success. -/
inductive Alike (workspace : σ → Workspace) (Q : σ → Workspace → Prop) :
    EStateM.Result Error σ α → EStateM.Result Error Workspace α → Prop
  | exhausted {r : EStateM.Result Error σ α} {r' : EStateM.Result Error Workspace α}
      (h : Exhausted r') : Alike workspace Q r r'
  | ok {a : α} {s : σ} {ws : Workspace} (h : (workspace s).graphs = ws.graphs) (hQ : Q s ws) :
      Alike workspace Q (.ok a s) (.ok a ws)
  | error {e : Error} {s : σ} {ws : Workspace} (h : (workspace s).graphs = ws.graphs) :
      Alike workspace Q (.error e s) (.error e ws)

variable {workspace : σ → Workspace} {Q : σ → Workspace → Prop}

theorem Alike.seen_eq {r : EStateM.Result Error σ α} {r' : EStateM.Result Error Workspace α}
    (h : Alike workspace Q r r') (hfin : ¬ Exhausted r') : seen workspace r = seen id r' := by
  cases h with
  | exhausted h => exact absurd h hfin
  | ok h => simp only [seen, h, id]
  | error h => simp only [seen, h, id]

/-- What is done alike for one element is done alike for a list. -/
theorem Alike.mapM {f : α → EStateM Error σ β} {f' : α → Work β} {as : List α}
    (hf : ∀ a ∈ as, ∀ s ws, (workspace s).graphs = ws.graphs → Q s ws →
      Alike workspace Q (f a s) (f' a ws)) {s : σ} (h : (workspace s).graphs = ws.graphs)
    (hQ : Q s ws) : Alike workspace Q (as.mapM f s) (as.mapM f' ws) := by
  induction as generalizing s ws with
  | nil => exact .ok h hQ
  | cons a as ih =>
    have ha := hf a (List.mem_cons_self ..) s ws h hQ
    simp only [List.mapM_cons, bind, EStateM.bind]
    generalize f a s = r at ha ⊢
    generalize f' a ws = r' at ha ⊢
    cases ha with
    | exhausted hexh =>
      obtain ⟨ws', rfl⟩ := hexh
      exact .exhausted ⟨ws', rfl⟩
    | error h' => exact .error h'
    | @ok b s' ws' h' hQ' =>
      have has := ih (fun a' ha' => hf a' (List.mem_cons_of_mem _ ha')) h' hQ'
      simp only
      generalize as.mapM f s' = r at has ⊢
      generalize as.mapM f' ws' = r' at has ⊢
      cases has with
      | exhausted hexh =>
        obtain ⟨ws'', rfl⟩ := hexh
        exact .exhausted ⟨ws'', rfl⟩
      | error h'' => exact .error h''
      | ok h'' hQ'' => exact .ok h'' hQ''

/-! ### Batches -/

/-- The graph in which a batch is evaluated has grown from `g₀`. -/
structure Grown (g₀ : Graph) (k : Nat) (ws : Workspace) : Prop where
  inRange : k < ws.graphs.size
  wellFormed : (ws.graph k).WellFormed
  extends_graph : g₀.Extends (ws.graph k)

/-- Substitution, before plain recursion or evaluation. -/
inductive Substitutes (library : Library) (s : Substitution) (k : Nat) (x : NodeId)
    (ws : Workspace) : Prop
  | ok {y : NodeId} {g : Graph} (h : Graph.substitute s x (ws.graph k) = .ok y g)
      (hg : g.WellFormed) (hx : (ws.graph k).Extends g)
      (hy : g.Elementary library.vocabulary y)
  | error {e : Error} {g : Graph} (h : Graph.substitute s x (ws.graph k) = .error e g)

theorem Grown.substitutes (h : Grown g₀ k ws) (hs : s.Elementary library.vocabulary g₀)
    (hx : g₀.Elementary library.vocabulary x) : Substitutes library s k x ws := by
  have hext := h.extends_graph
  have hm := Graph.substitute_replays h.wellFormed (fun p hp => hext.elementary (hs p hp))
    (hext.elementary hx)
  unfold Graph.Replays Graph.Meets at hm
  cases he : Graph.substitute s x (ws.graph k) with
  | ok y g =>
    rw [he] at hm
    exact .ok he hm.1 hm.2.1.toExtends hm.2.2.1
  | error e g => exact .error he

theorem Grown.setGraph (h : Grown g₀ k ws) (hg : g.WellFormed) (hx : (ws.graph k).Extends g) :
    Grown g₀ k (ws.setGraph k g) := by
  refine ⟨(size_setGraph ws k g).symm ▸ h.inRange, ?_, ?_⟩
  · rwa [graph_setGraph h.inRange]
  · rw [graph_setGraph h.inRange]
    exact h.extends_graph.trans hx

theorem Grown.congr (h : Grown g₀ k ws) (he : ws.graphs = ws'.graphs) : Grown g₀ k ws' := by
  refine ⟨he ▸ h.inRange, ?_, ?_⟩
  · rw [← graph_congr he]
    exact h.wellFormed
  · rw [← graph_congr he]
    exact h.extends_graph

/-- One expression of a batch, with the memo of the batch. -/
theorem alike_batch (hlib : library.Changing Graph.Develops) (hn : n ≤ depth)
    (hs : s.Elementary library.vocabulary g₀) (hx : g₀.Elementary library.vocabulary x)
    (state : Workspace × Transformer (Array Fault)) (ws : Workspace)
    (hgraphs : state.1.graphs = ws.graphs)
    (hstate : Ready library state.1 state.2 ∧ state.2.graph = k ∧ Grown g₀ k state.1) :
    Alike Prod.fst
      (fun state' _ => Ready library state'.1 state'.2 ∧ state'.2.graph = k ∧ Grown g₀ k state'.1)
      ((do
        let bound ← Transforming.work (substitute (.node k x) (bindings k s))
        Transforming.evaluate library depth bound) state)
      ((do recurse library n (← substitute (.node k x) (bindings k s))) ws) := by
  obtain ⟨ws₁, t⟩ := state
  obtain ⟨hready, rfl, hgrown⟩ := hstate
  simp only [bind, EStateM.bind, Transforming.work, substitute_bindings,
    ← graph_congr hgraphs t.graph]
  cases hgrown.substitutes hs hx with
  | error h =>
    rw [h]
    exact .error (setGraph_congr hgraphs _ _)
  | @ok y g h hg hext hy =>
    have hgrown' := hgrown.setGraph hg hext
    have hgraph := graph_setGraph hgrown.inRange g
    have hready' : Ready library (ws₁.setGraph t.graph g) t := by
      refine hready.develops hgrown'.inRange hgrown'.wellFormed ?_
      rw [hgraph]
      exact hext.develops
    have hcompares := hready'.compares hlib (setGraph_congr hgraphs t.graph g) hn (hgraph ▸ hy)
    simp only [h, Transforming.evaluate_eq]
    generalize evaluateIn library depth y (Transforming.start (ws₁.setGraph t.graph g) t) = r
      at hcompares ⊢
    cases hcompares with
    | exhausted hexh => exact .exhausted hexh
    | error hrec =>
      rw [hrec]
      exact .error (setGraph_congr (setGraph_congr hgraphs _ _) _ _)
    | @ok _ run hrec hready'' hext' =>
      rw [hrec]
      refine .ok (setGraph_congr (setGraph_congr hgraphs _ _) _ _) ⟨hready'', rfl, ?_⟩
      have hwell := hready''.wellFormed
      rw [graph_afterRun hgrown'.inRange] at hwell
      exact (hgrown'.setGraph hwell hext').congr rfl

/-- One expression of a batch, evaluated alone. -/
theorem alike_alone (hlib : library.Changing Graph.Develops) (hn : n ≤ depth)
    (hs : s.Elementary library.vocabulary g₀) (hx : g₀.Elementary library.vocabulary x)
    (ws₁ ws : Workspace) (hgraphs : ws₁.graphs = ws.graphs) (hgrown : Grown g₀ k ws₁) :
    Alike id (fun ws' _ => Grown g₀ k ws')
      ((do return (← evaluateBound library depth (.node k x) (bindings k s)).1 : Work Handle) ws₁)
      ((do recurse library n (← substitute (.node k x) (bindings k s))) ws) := by
  simp only [evaluateBound, bind, EStateM.bind, substitute_bindings, ← graph_congr hgraphs k]
  cases hgrown.substitutes hs hx with
  | error h =>
    rw [h]
    exact .error (setGraph_congr hgraphs _ _)
  | @ok y g h hg hext hy =>
    have hgrown' := hgrown.setGraph hg hext
    have hready : Ready library (ws₁.setGraph k g) { graph := k, log := #[] } :=
      .fresh library hgrown'.inRange hgrown'.wellFormed
    have hcompares := hready.compares hlib (setGraph_congr hgraphs k g) hn
      ((graph_setGraph hgrown.inRange g).symm ▸ hy)
    simp only [h, evaluateFaults_eq, startRun]
    generalize evaluateIn library depth y _ = r at hcompares ⊢
    cases hcompares with
    | exhausted hexh => exact .exhausted hexh
    | error hrec =>
      rw [hrec]
      exact .error (setGraph_congr (setGraph_congr hgraphs _ _) _ _)
    | @ok _ run hrec hready' hext' =>
      rw [hrec]
      refine .ok (setGraph_congr (setGraph_congr hgraphs _ _) _ _) ?_
      have hwell := hready'.wellFormed
      rw [graph_afterRun hgrown'.inRange] at hwell
      exact (hgrown'.setGraph hwell hext').congr rfl

theorem seen_withFreshMemo (k : Nat) (m : Transforming (Array Fault) α) (ws : Workspace) :
    seen id ((do return (← withFreshMemo k m).1 : Work α) ws) =
      seen Prod.fst (m (ws, { graph := k, log := #[] })) := by
  simp only [bind, EStateM.bind, withFreshMemo]
  cases m (ws, { graph := k, log := #[] }) <;> rfl

/-- A batch shows what plain recursion on each of its expressions shows. -/
theorem seen_evaluateAll (hlib : library.Changing Graph.Develops) (hn : n ≤ depth)
    {xs : List NodeId} (hk : k < ws.graphs.size) (hg : (ws.graph k).WellFormed)
    (hs : s.Elementary library.vocabulary (ws.graph k))
    (hxs : ∀ x ∈ xs, (ws.graph k).Elementary library.vocabulary x)
    (hfin : ¬ Exhausted (recurseEach library n (xs.map (.node k)) (bindings k s) ws)) :
    seen id ((do return (← evaluateAll library depth (xs.map (.node k)) (bindings k s)).1 :
      Work (List Handle)) ws) =
      seen id (recurseEach library n (xs.map (.node k)) (bindings k s) ws) := by
  cases xs with
  | nil => rfl
  | cons x xs =>
    have hstart : Ready library ws { graph := k, log := #[] } ∧ k = k ∧
        Grown (ws.graph k) k ws := ⟨.fresh library hk hg, rfl, hk, hg, .refl _⟩
    have halike : Alike Prod.fst
        (fun state _ =>
          Ready library state.1 state.2 ∧ state.2.graph = k ∧ Grown (ws.graph k) k state.1)
        ((((x :: xs).map (Handle.node k)).mapM fun h => do
          let bound ← Transforming.work (substitute h (bindings k s))
          Transforming.evaluate library depth bound) (ws, { graph := k, log := #[] }))
        (recurseEach library n ((x :: xs).map (.node k)) (bindings k s) ws) := by
      refine Alike.mapM ?_ rfl hstart
      intro h hh state ws' hgraphs hstate
      obtain ⟨y, hy, rfl⟩ := List.mem_map.1 hh
      exact alike_batch hlib hn hs (hxs y hy) state ws' hgraphs hstate
    exact (seen_withFreshMemo k _ ws).trans (halike.seen_eq hfin)

/-- So does evaluating each of them alone. -/
theorem seen_evaluateEach (hlib : library.Changing Graph.Develops) (hn : n ≤ depth)
    {xs : List NodeId} (hk : k < ws.graphs.size) (hg : (ws.graph k).WellFormed)
    (hs : s.Elementary library.vocabulary (ws.graph k))
    (hxs : ∀ x ∈ xs, (ws.graph k).Elementary library.vocabulary x)
    (hfin : ¬ Exhausted (recurseEach library n (xs.map (.node k)) (bindings k s) ws)) :
    seen id (evaluateEach library depth (xs.map (.node k)) (bindings k s) ws) =
      seen id (recurseEach library n (xs.map (.node k)) (bindings k s) ws) := by
  refine (Alike.mapM (Q := fun ws' _ => Grown (ws.graph k) k ws') ?_ rfl
    ⟨hk, hg, .refl _⟩).seen_eq hfin
  intro h hh ws₁ ws' hgraphs hgrown
  obtain ⟨y, hy, rfl⟩ := List.mem_map.1 hh
  exact alike_alone hlib hn hs (hxs y hy) ws₁ ws' hgraphs hgrown

/--
Whatever a memo was used for before, an evaluation with it shows what plain recursion shows, where
that comes to an end: the same node or the same exception, and the same graphs. So a batch shows
what its expressions show when they are evaluated one after the other, each alone.
-/
theorem evaluate_eq_recurse (hlib : library.Changing Graph.Develops) (hn : n ≤ depth) :
    (∀ (ws : Workspace) (t : Transformer (Array Fault)) (x : NodeId), Used library ws t →
      (ws.graph t.graph).Elementary library.vocabulary x →
      ¬ Exhausted (recurse library n (.node t.graph x) ws) →
        seen Prod.fst (Transforming.evaluate library depth (.node t.graph x) (ws, t)) =
          seen id (recurse library n (.node t.graph x) ws)) ∧
    ∀ (ws : Workspace) (k : Nat) (s : Substitution) (xs : List NodeId), k < ws.graphs.size →
      (ws.graph k).WellFormed → s.Elementary library.vocabulary (ws.graph k) →
      (∀ x ∈ xs, (ws.graph k).Elementary library.vocabulary x) →
      ¬ Exhausted (recurseEach library n (xs.map (.node k)) (bindings k s) ws) →
        seen id ((do return (← evaluateAll library depth (xs.map (.node k)) (bindings k s)).1 :
          Work (List Handle)) ws) =
          seen id (recurseEach library n (xs.map (.node k)) (bindings k s) ws) ∧
        seen id ((do return (← evaluateAll library depth (xs.map (.node k)) (bindings k s)).1 :
          Work (List Handle)) ws) =
          seen id (evaluateEach library depth (xs.map (.node k)) (bindings k s) ws) := by
  constructor
  · intro ws t x hused hx hfin
    exact (hused.ready hlib).seen_evaluate hlib hn hx hfin
  · intro ws k s xs hk hg hs hxs hfin
    have hbatch := seen_evaluateAll hlib hn hk hg hs hxs hfin
    exact ⟨hbatch, hbatch.trans (seen_evaluateEach hlib hn hk hg hs hxs hfin).symm⟩

theorem not_exhausted_of_seen {workspace : σ → Workspace} {r : EStateM.Result Error σ α} {a : α}
    (h : (seen workspace r).1 = .ok a) : ¬ Exhausted r := by
  rintro ⟨s, rfl⟩
  cases h

theorem doubled_elementary (V : Vocabulary) (hV : V.symbols 2) : Graph.doubled.Elementary V 3 := by
  have hsymbol : Graph.doubled.Elementary V 2 :=
    .of_node (by decide) rfl hV fun _ hy => absurd hy List.not_mem_nil
  refine .of_node (by decide) rfl trivial fun y hy => ?_
  rw [List.mem_pair.1 hy |>.elim id id]
  exact hsymbol

/-- After an evaluation that failed, and in a batch that asks for it twice, `x + x` is evaluated as
by plain recursion. -/
theorem evaluate_doubled_recurse :
    seen Prod.fst (Transforming.evaluate .silent 9 (.node 0 3)
      ({ graphs := #[Graph.doubled] }, { graph := 0, log := #[] })) =
      seen id (recurse .silent 9 (.node 0 3) { graphs := #[Graph.doubled] }) ∧
    seen id ((do return (← evaluateAll .silent 9 ([3, 3].map (.node 0)) (bindings 0 [])).1 :
      Work (List Handle)) { graphs := #[Graph.doubled] }) =
      seen id (recurseEach .silent 9 ([3, 3].map (.node 0)) (bindings 0 [])
        { graphs := #[Graph.doubled] }) := by
  have hlib : Library.silent.Changing Graph.Develops := by
    rintro f accepts run ⟨⟩ xs
    exact (Graph.Grows.pure _).developing
  have hx := doubled_elementary Library.silent.vocabulary trivial
  have hg : (Workspace.graph { graphs := #[Graph.doubled] } 0).WellFormed :=
    Graph.doubled_wellFormed
  have hused : Used .silent { graphs := #[Graph.doubled] } { graph := 0, log := #[] } :=
    (Used.fresh { graphs := #[Graph.doubled] } 0 (by decide) hg).evaluate 9 .empty
  have hone : (seen id (recurse .silent 9 (.node 0 3) { graphs := #[Graph.doubled] })).1 =
      .ok (.node 0 5) := by
    cbv
  have htwo : (seen id (recurseEach .silent 9 ([3, 3].map (.node 0)) (bindings 0 [])
      { graphs := #[Graph.doubled] })).1 = .ok [.node 0 5, .node 0 5] := by
    cbv
  obtain ⟨hsingle, hbatch⟩ := evaluate_eq_recurse hlib (Nat.le_refl 9)
  refine ⟨hsingle _ _ 3 hused hx (not_exhausted_of_seen hone), ?_⟩
  refine (hbatch _ 0 [] [3, 3] (by decide) hg ?_ ?_ (not_exhausted_of_seen htwo)).1
  · exact fun p hp => absurd hp List.not_mem_nil
  · intro y hy
    rw [List.mem_pair.1 hy |>.elim id id]
    exact hx

end Workspace

end ExactAlgebra
