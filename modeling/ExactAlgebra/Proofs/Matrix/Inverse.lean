import ExactAlgebra.Proofs.Evaluation.Evolution
import ExactAlgebra.Proofs.Matrix.Entries
import ExactAlgebra.Proofs.Matrix.Exact

/-!
Matrices the entries of which have exact values are inverted exactly, or refused with the first
column that depends on those before it.
-/

namespace ExactAlgebra

open ExactAlgebra.Graph (Overflow)

variable {library : Library} {depth k n : Nat} {x : NodeId} {h h' : Handle}
variable {ws ws' : Workspace} {t t' : Transformer (Array Fault)} {A : RatMatrix n}
variable {entries entries' : Grid n n Handle}

/-! ### Evaluation of the entries -/

namespace Transforming

/-- A transformer of graph `k`, with a memo that knows the exact values. -/
abbrev Sound (library : Library) (k : Nat) (state : Workspace × Transformer (Array Fault)) : Prop :=
  Settled (Evaluation.computes library True) k state

/-- Only expressions of the graph of a transformer are evaluated. -/
theorem exists_node_of_evaluate {state : Workspace × Transformer (Array Fault)}
    (he : Transforming.evaluate library depth h (ws, t) = .ok h' state) :
    ∃ x, h = .node t.graph x := by
  cases h with
  | empty => cases he
  | node k x =>
    by_cases hk : k = t.graph
    · exact ⟨x, by rw [hk]⟩
    · have hnode : Transforming.node (.node k x) (ws, t) =
          .error .askedOutsideGraph (ws, t) := by
        have hif : Transforming.node (.node k x) (ws, t) =
            (if k = t.graph then pure x else throw .askedOutsideGraph :
              Transforming (Array Fault) NodeId) (ws, t) := rfl
        rw [hif, if_neg hk]
        rfl
      simp only [Transforming.evaluate, bind, EStateM.bind, hnode] at he
      cases he

theorem Sound.evaluate (hlib : library.Evolving)
    {state state' : Workspace × Transformer (Array Fault)} (hs : Sound library k state)
    (he : Transforming.evaluate library depth h state = .ok h' state') :
    Sound library k state' := by
  obtain ⟨ws, t⟩ := state
  obtain ⟨x, rfl⟩ := exists_node_of_evaluate he
  obtain ⟨rfl, hlt, hr⟩ := hs
  rw [evaluate_eq] at he
  have hleads : Memo.Leads (Evaluation.computes library False) (start ws t).pass.graph
      (start ws t).memo x := fun i hi => absurd hi (hr.idle i)
  have hrun := Evaluation.evaluateIn_records hlib depth x (start ws t).pass.graph
    (start ws t).memo (start ws t).pass.log hr.wellFormed hr.holds False.elim hleads
  cases hy : evaluateIn library depth x (start ws t) with
  | error e run =>
    rw [hy] at he
    cases he
  | ok y run =>
    rw [hy] at he
    cases he
    have hrun : Outcome _ _ _ _ (evaluateIn library depth x (start ws t)) := hrun
    rw [hy] at hrun
    obtain ⟨hg, -, hh, hp, -⟩ := hrun
    exact .after hlt ⟨hg, hh, fun i hi => hr.idle i ((hp i).1 hi)⟩

/-- A transformer that has left all nodes as they were. -/
structure Idle (ws : Workspace) (k : Nat) (state : Workspace × Transformer (Array Fault)) :
    Prop where
  workspace_eq : state.1 = ws
  graph_eq : state.2.graph = k
  marks : ∀ x j, state.2.memo.mark? x = some j → j = .finished x

theorem Idle.fresh (ws : Workspace) (k : Nat) : Idle ws k (ws, { graph := k, log := #[] }) := by
  refine ⟨rfl, rfl, fun x j hj => ?_⟩
  simp [Memo.mark?] at hj

theorem Idle.evaluate_constant {state : Workspace × Transformer (Array Fault)} {v : Rat}
    (hs : Idle ws k state) (hx : (ws.graph k).plainValue? x = some v) :
    ∃ state', Transforming.evaluate library (depth + 1) (.node k x) state =
      .ok (.node k x) state' ∧ Idle ws k state' := by
  obtain ⟨ws, t⟩ := state
  obtain ⟨rfl, rfl, hm⟩ := hs
  obtain ⟨m, hrun, hm'⟩ :=
    Evaluation.evaluateIn_constant library depth hx ⟨t.log, ws.invocations⟩ (hm x)
  have hstart : start ws t = ⟨t.memo, ⟨ws.graph t.graph, ⟨t.log, ws.invocations⟩⟩⟩ := rfl
  refine ⟨(ws, ⟨t.graph, m, t.log⟩), ?_, rfl, rfl, ?_⟩
  · rw [evaluate_eq, hstart, hrun]
    simp only [after, Workspace.afterRun, Workspace.setGraph_self]
  · intro y j hj
    rcases hm' with rfl | rfl
    · exact hm y j hj
    · rw [Memo.mark?_store] at hj
      split at hj
      · next he =>
        subst he
        exact (Option.some.inj hj).symm
      · next he =>
        rw [Memo.mark?_enter, if_neg he] at hj
        exact hm y j hj

end Transforming

/-! ### Matrices -/

/-- The entries are constants of graph `k`, with the values that `A` has. -/
def Grid.HasValues (entries : Grid n n Handle) (ws : Workspace) (k : Nat) (A : RatMatrix n) :
    Prop :=
  ∀ i j, ∃ x, entries.get i j = .node k x ∧ (ws.graph k).plainValue? x = some (A i j)

namespace Matrix

/-- Evaluating a matrix is evaluating its entries one after another. -/
theorem evaluate_nil_eq (library : Library) (depth : Nat) (m : ExactAlgebra.Matrix)
    (ws : Workspace) :
    m.evaluate library depth [] ws =
      match Grid.generate (fun i j => Transforming.evaluate library depth (m.entries.get i j))
        (ws, { graph := m.graph, log := #[] }) with
      | .ok entries (ws', _) => .ok { m with entries } ws'
      | .error e (ws', _) => .error e ws' := by
  have hpair : (fun i j => do
      let h ← Transforming.work (Workspace.substitute (m.entries.get i j) [])
      Transforming.evaluate library depth h) =
      fun i j => Transforming.evaluate library depth (m.entries.get i j) := rfl
  rw [Matrix.evaluate, hpair]
  simp only [bind, EStateM.bind, Workspace.withFreshMemo]
  cases Grid.generate (fun i j => Transforming.evaluate library depth (m.entries.get i j))
    (ws, { graph := m.graph, log := #[] }) <;> rfl

/-- A matrix of constants is left as it is by evaluation. -/
theorem evaluate_constants (hA : entries.HasValues ws k A) :
    Matrix.evaluate library (depth + 1) [] ⟨k, n, n, entries⟩ ws = .ok ⟨k, n, n, entries⟩ ws := by
  rw [evaluate_nil_eq]
  have hentries : ∃ state, Grid.generate
      (fun i j => Transforming.evaluate library (depth + 1) (entries.get i j))
      (ws, ({ graph := k, log := #[] } : Transformer (Array Fault))) = .ok entries state ∧
        Transforming.Idle ws k state := by
    apply Grid.generate_eq_ok
    · intro i j state hs
      obtain ⟨x, hx, hv⟩ := hA i j
      rw [hx]
      exact hs.evaluate_constant hv
    · exact .fresh ws k
  obtain ⟨⟨ws', t⟩, hgen, rfl, -⟩ := hentries
  simp only [hgen]

/-- Once its entries are evaluated to constants, a matrix is inverted by elimination on them. -/
theorem invertEntries_constants (hd : 4 ≤ depth)
    (he : Grid.generate (fun i j => Transforming.evaluate library depth (entries.get i j))
      (ws, { graph := k, log := #[] }) = .ok entries' (ws', t'))
    (hs : Transforming.Sound library k (ws', t')) (hA : entries'.HasValues ws' k A) :
    match invertEntries library depth k entries (ws, { graph := k, log := #[] }) with
    | .ok bs (ws'', _) => ∃ B, bs.HasValues ws'' k B ∧ A * B = 1 ∧ B * A = 1
    | .error e (ws'', _) => Stops Overflow A e (ws''.graph k) := by
  have hpivot : ∀ g x, UsesPivot library depth k entries ws g x → g.plainValue? x ≠ some 0 := by
    rintro g x ⟨_, _, _, _, -, -, hx⟩ h0
    have hne := hx.hasValue_eq_false
    rw [Graph.hasValue_of_plainValue? h0] at hne
    cases hne
  have hends := invertEntries_ends (V := .exact library hd) (A := A) (by
    rw [Ends, he]
    exact ⟨hs, hA⟩) hpivot
  unfold Ends at hends
  cases hr : invertEntries library depth k entries (ws, { graph := k, log := #[] }) with
  | ok bs state =>
    rw [hr] at hends
    exact hends
  | error e state =>
    rw [hr] at hends
    exact hends.imp_right fun hfull => hfull trivial

/--
A square matrix whose entries all evaluate to constants has an exact inverse, or is singular, and
then inversion names the first column that depends on those before it. The only other outcome is a
full graph.
-/
theorem inverse_exact (hlib : library.Evolving) (hk : k < ws.graphs.size)
    (hg : (ws.graph k).WellFormed) (hd : 4 ≤ depth)
    (he : Matrix.evaluate library depth [] ⟨k, n, n, entries⟩ ws = .ok ⟨k, n, n, entries'⟩ ws')
    (hA : entries'.HasValues ws' k A) :
    match Matrix.inverse library depth ⟨k, n, n, entries⟩ ws with
    | .ok m ws'' => A.det ≠ 0 ∧ ∃ bs B, m = ⟨k, n, n, bs⟩ ∧ bs.HasValues ws'' k B ∧
        A * B = 1 ∧ B * A = 1
    | .error e ws'' =>
      (A.det = 0 ∧ ∃ j : Fin n, e = .singular j ∧ IsLeast { c | A.ColumnsDependent c } j) ∨
        (e = .graphFull ∧ Graph.capacity ≤ (ws''.graph k).size) := by
  rw [evaluate_nil_eq] at he
  cases hgen : Grid.generate
      (fun i j => Transforming.evaluate library depth (entries.get i j))
      (ws, ({ graph := k, log := #[] } : Transformer (Array Fault))) with
  | error e state =>
    simp only [hgen] at he
    cases he
  | ok entries₁ state =>
    obtain ⟨ws₁, t₁⟩ := state
    simp only [hgen] at he
    cases he
    have hs : Transforming.Sound library k (ws', t₁) :=
      Grid.generate_keeps (fun i j state h state' hs => hs.evaluate hlib) (.fresh hk hg) hgen
    have hm := invertEntries_constants hd hgen hs hA
    rw [inverse_square_eq]
    cases hr : invertEntries library depth k entries (ws, { graph := k, log := #[] }) with
    | ok bs state =>
      rw [hr] at hm
      obtain ⟨B, hB, hAB, hBA⟩ := hm
      refine ⟨?_, bs, B, rfl, hB, hAB, hBA⟩
      exact RatMatrix.det_ne_zero_of_mul_eq_one hAB
    | error e state =>
      rw [hr] at hm
      rcases hm with ⟨j, rfl, hj⟩ | hfull
      · exact .inl ⟨RatMatrix.det_eq_zero_of_columnsDependent hj.1, j, rfl, hj⟩
      · exact .inr hfull

/-- The matrix that exchanges two rows. -/
def exchange : RatMatrix 2 := fun i j => if i = j then 0 else 1


theorem inverse_exchange :
    match Matrix.inverse .silent 4
      ⟨0, 2, 2, .ofFn fun i j => .node 0 (if i = j then Graph.zero else Graph.one)⟩ {} with
    | .ok m ws'' => exchange.det ≠ 0 ∧ ∃ bs B, m = ⟨0, 2, 2, bs⟩ ∧
        bs.HasValues ws'' 0 B ∧ exchange * B = 1 ∧ B * exchange = 1
    | .error e ws'' =>
      (exchange.det = 0 ∧ ∃ j : Fin 2, e = .singular j ∧
          IsLeast { c | exchange.ColumnsDependent c } j) ∨
        (e = .graphFull ∧ Graph.capacity ≤ (ws''.graph 0).size) := by
  have hg : (Workspace.graph {} 0).WellFormed := Graph.empty_wellFormed
  have hlib : Library.silent.Evolving := by
    rintro f accepts run ⟨⟩ xs
    exact (Graph.Grows.pure _).evolving
  have hA : (Grid.ofFn fun i j : Fin 2 =>
      Handle.node 0 (if i = j then Graph.zero else Graph.one)).HasValues {} 0
        exchange := by
    intro i j
    rw [Grid.get_ofFn]
    refine ⟨_, rfl, ?_⟩
    by_cases hij : i = j
    · rw [if_pos hij, exchange, if_pos hij]
      exact Graph.empty_wellFormed.plainValue?_zero
    · rw [if_neg hij, exchange, if_neg hij]
      exact Graph.empty_wellFormed.plainValue?_one
  exact inverse_exact hlib (by decide) hg (le_refl 4) (evaluate_constants hA) hA

end Matrix

end ExactAlgebra
