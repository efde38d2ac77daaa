import ExactAlgebra.Matrix.Arithmetic
import ExactAlgebra.Proofs.Matrix.Elimination
import ExactAlgebra.Proofs.Workspace.Evaluate

/-!
Matrices of handles. Their entries are evaluated one after another, and then the nodes that they are
evaluated to are inverted as a grid.
-/

namespace ExactAlgebra

variable {library : Library} {depth k n : Nat} {x : NodeId} {v : Rat} {c : Contract}
variable {ws ws' : Workspace} {run : Run Journal} {V : Valuation library depth}
variable {A : RatMatrix n} {entries : Grid n n Handle}

/-! ### Evaluation of the entries -/

namespace Transforming

theorem start_after (hk : k < ws.graphs.size) (run : Run Journal) :
    start (after ws k run).1 (after ws k run).2 = run := by
  rw [start, after]
  simp only [Workspace.graph_afterRun hk]
  rfl

/-- A transformer of graph `k`, with a memo that keeps a contract. -/
structure Settled (c : Contract) (k : Nat) (state : Workspace × Transformer (Array Fault)) :
    Prop where
  graph_eq : state.2.graph = k
  lt_size : k < state.1.graphs.size
  run : (start state.1 state.2).Settled c

theorem Settled.fresh (hk : k < ws.graphs.size) (hg : (ws.graph k).WellFormed) :
    Settled c k (ws, { graph := k, log := #[] }) := by
  refine ⟨rfl, hk, hg, Memo.holds_empty _ _, fun i hi => ?_⟩
  simp [start, Memo.mark?] at hi

theorem Settled.wellFormed {state : Workspace × Transformer (Array Fault)}
    (hs : Settled c k state) : (state.1.graph k).WellFormed := by
  rw [← hs.graph_eq]
  exact hs.run.wellFormed

theorem Settled.after (hk : k < ws.graphs.size) (hr : run.Settled c) :
    Settled c k (after ws k run) := by
  refine ⟨rfl, ?_, ?_⟩
  · rw [Transforming.after, Workspace.afterRun]
    exact (Workspace.size_setGraph ..).symm ▸ hk
  · rw [start_after hk]
    exact hr

/-- A node with a promised value is evaluated to a node with that value. -/
theorem Settled.evaluate_node {state : Workspace × Transformer (Array Fault)}
    (hs : Settled V.contract k state) (hv : V.Promises (state.1.graph k) x v) :
    Ends (Transforming.evaluate library depth (.node k x)) state
      (fun h state' => Settled V.contract k state' ∧
        V.contract.Frame (state.1.graph k) (state'.1.graph k) ∧
        ∃ y, h = .node k y ∧ V.Has (state'.1.graph k) y v)
      fun e state' => V.contract.Fails e (state'.1.graph k) := by
  obtain ⟨ws, t⟩ := state
  obtain ⟨rfl, hlt, hr⟩ := hs
  have hrun := Valuation.evaluateIn_eliminates hr hv
  unfold Ends
  rw [evaluate_eq]
  unfold Eliminates at hrun
  cases he : evaluateIn library depth x (start ws t) with
  | error e run =>
    rw [he] at hrun
    simp only [Transforming.after, Workspace.graph_afterRun hlt]
    exact hrun
  | ok y run =>
    rw [he] at hrun
    obtain ⟨hr', hx, hy⟩ := hrun
    refine ⟨.after hlt hr', ?_, y, rfl, ?_⟩
    · simp only [Transforming.after, Workspace.graph_afterRun hlt]
      exact hx
    · simp only [Transforming.after, Workspace.graph_afterRun hlt]
      exact hy

end Transforming

/-! ### Inversion -/

/-- The entries are nodes of graph `k`, with the values that `A` has. -/
def Grid.Shows (V : Valuation library depth) (entries : Grid n n Handle) (ws : Workspace) (k : Nat)
    (A : RatMatrix n) : Prop :=
  ∀ i j, ∃ x, entries.get i j = .node k x ∧ V.Has (ws.graph k) x (A i j)

theorem Grid.Shows.frame (hA : entries.Shows V ws k A) (hg : (ws.graph k).WellFormed)
    (hx : V.contract.Frame (ws.graph k) (ws'.graph k)) : entries.Shows V ws' k A := by
  intro i j
  obtain ⟨x, hx', hv⟩ := hA i j
  exact ⟨x, hx', V.has_frame hg hx hv⟩

theorem Grid.Shows.represents (hA : entries.Shows V ws k A) :
    (entries.map Handle.id).Represents V (ws.graph k) A := by
  intro i j
  obtain ⟨x, hx, hv⟩ := hA i j
  rw [Grid.get_map, hx]
  exact hv

theorem Grid.Represents.shows {m : Grid n n NodeId} (hA : m.Represents V (ws.graph k) A) :
    (m.map (Handle.node k)).Shows V ws k A := by
  intro i j
  rw [Grid.get_map]
  exact ⟨_, rfl, hA i j⟩

namespace Matrix

theorem inverse_square_eq (library : Library) (depth k : Nat) (entries : Grid n n Handle)
    (ws : Workspace) :
    Matrix.inverse library depth ⟨k, n, n, entries⟩ ws =
      match invertEntries library depth k entries (ws, { graph := k, log := #[] }) with
      | .ok entries (ws', _) => .ok ⟨k, n, n, entries⟩ ws'
      | .error e (ws', _) => .error e ws' := by
  rw [Matrix.inverse, dif_pos rfl]
  simp only [bind, EStateM.bind, Workspace.withFreshMemo]
  cases invertEntries library depth k entries (ws, { graph := k, log := #[] }) <;> rfl

/--
The inversion of a matrix takes the node `x` for a pivot, when its graph has become `g`: the entries
were evaluated, the identity was built, and some columns were reduced.
-/
def UsesPivot (library : Library) (depth k : Nat) (entries : Grid n n Handle) (ws : Workspace)
    (g : Graph) (x : NodeId) : Prop :=
  ∃ entries' state b run,
    Grid.generate (fun i j => Transforming.evaluate library depth (entries.get i j))
        (ws, { graph := k, log := #[] }) = .ok entries' state ∧
      Run.build (identityGrid n) (Transforming.start state.1 state.2) = .ok b run ∧
      Tableau.UsesPivot library depth ⟨entries'.map Handle.id, b⟩ run g x

/-- If its entries are evaluated to nodes with values, a matrix is inverted by elimination. -/
theorem invertEntries_ends
    (hentries : Ends
      (Grid.generate fun i j => Transforming.evaluate library depth (entries.get i j))
      (ws, { graph := k, log := #[] })
      (fun entries' state => Transforming.Settled V.contract k state ∧
        entries'.Shows V state.1 k A)
      fun e state => V.contract.Fails e (state.1.graph k))
    (hpivot : ∀ g x, UsesPivot library depth k entries ws g x → ¬ V.Has g x 0) :
    Ends (invertEntries library depth k entries) (ws, { graph := k, log := #[] })
      (fun bs state => ∃ B, bs.Shows V state.1 k B ∧ A * B = 1 ∧ B * A = 1)
      fun e state => Stops V.contract.Fails A e (state.1.graph k) := by
  unfold Ends invertEntries at *
  simp only [bind, EStateM.bind]
  cases he : Grid.generate (fun i j => Transforming.evaluate library depth (entries.get i j))
    (ws, ({ graph := k, log := #[] } : Transformer (Array Fault))) with
  | error e state =>
    rw [he] at hentries
    exact .inr hentries
  | ok entries' state =>
    rw [he] at hentries
    obtain ⟨⟨rfl, hlt, hr⟩, hA⟩ := hentries
    obtain ⟨ws', t'⟩ := state
    have hinvert := invertGrid_eliminates hr hA.represents fun b run hb g x hx =>
      hpivot g x ⟨entries', (ws', t'), b, run, he, hb, hx⟩
    rw [Eliminates] at hinvert
    simp only [Transforming.runEvaluation_eq]
    cases hm : invertGrid library depth (entries'.map Handle.id) (Transforming.start ws' t') with
    | error e run =>
      rw [hm] at hinvert
      simp only [Transforming.after, Workspace.graph_afterRun hlt]
      exact hinvert
    | ok b run =>
      rw [hm] at hinvert
      obtain ⟨-, -, B, hB, hinverse⟩ := hinvert
      refine ⟨B, Grid.Represents.shows ?_, hinverse⟩
      simp only [Transforming.after, Workspace.graph_afterRun hlt]
      exact hB

end Matrix

end ExactAlgebra
