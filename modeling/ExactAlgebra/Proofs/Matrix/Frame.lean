import ExactAlgebra.Matrix.Arithmetic
import ExactAlgebra.Proofs.Workspace.Frame

/-!
Matrix operations leave the nodes of all graphs as they are, elimination included.
-/

namespace ExactAlgebra

variable {M : Type → Type} [Monad M] [LawfulMonad M] {α : Type} {rows cols n : Nat}
variable {library : Library}

namespace Closure

variable (P : Closure M)

theorem ofFnM {f : Fin n → M α} (hf : ∀ i, P.Holds (f i)) : P.Holds (Vector.ofFnM f) := by
  induction n with
  | zero =>
    rw [Vector.ofFnM_zero]
    exact P.pure _
  | succ n ih =>
    rw [Vector.ofFnM_succ]
    exact P.bind (ih fun i => hf i.castSucc) fun _ => P.bind (hf (Fin.last n)) fun _ => P.pure _

theorem generate {f : Fin rows → Fin cols → M α} (hf : ∀ i j, P.Holds (f i j)) :
    P.Holds (Grid.generate f) :=
  P.bind (P.ofFnM fun j => P.ofFnM fun i => hf i j) fun _ => P.pure _

end Closure

/-! ### Elimination -/

section Elimination

variable {S : NodeId → Prop}

theorem Run.get_intact {τ : Type} : (intact S τ).Holds get := fun run => .refl S run.pass.graph

theorem Run.build_intact {τ : Type} {m : Build α} (hm : (Graph.intact S).Holds m) :
    (intact S τ).Holds (Run.build m) := by
  rintro ⟨memo, ⟨g, log⟩⟩
  have h := hm g
  unfold Run.build
  cases he : m g <;> simp only [he] at h ⊢ <;> exact h

theorem identityGrid_intact (n : Nat) : (Graph.intact S).Holds (identityGrid n) :=
  (Graph.intact S).bind (Graph.constant_holds (Graph.intact S).builders 0) fun _ =>
    (Graph.intact S).bind (Graph.constant_holds (Graph.intact S).builders 1) fun _ =>
      (Graph.intact S).pure _

variable (hlib : library.Intact S) (depth : Nat)

include hlib

namespace Tableau

theorem evaluated_intact {m : Build NodeId} (hm : (Graph.intact S).Holds m) :
    (Run.intact S Journal).Holds (evaluated library depth m) :=
  (Run.intact S _).bind (Run.build_intact hm) fun y => evaluateIn_intact hlib depth y

theorem updateRow_intact {f : NodeId → NodeId → Build NodeId}
    (hf : ∀ x y, (Graph.intact S).Holds (f x y)) (i j : Fin n) (t : Tableau n) :
    (Run.intact S Journal).Holds (updateRow library depth f i j t) :=
  (Run.intact S _).foldlM (fun _ _ =>
    (Run.intact S _).bind (evaluated_intact hlib depth (hf _ _)) fun _ =>
      (Run.intact S _).bind (evaluated_intact hlib depth (hf _ _)) fun _ =>
        (Run.intact S _).pure _) _ t

theorem normalize_intact (j : Fin n) (t : Tableau n) :
    (Run.intact S Journal).Holds (normalize library depth j t) :=
  (Run.intact S _).bind
    (evaluated_intact hlib depth (Graph.powerOf_holds (Graph.intact S).builders _ _)) fun _ =>
    updateRow_intact hlib depth (fun _ _ => (Graph.intact S).builders.product _) j j t

theorem clear_intact (j : Fin n) (t : Tableau n) (i : Fin n) :
    (Run.intact S Journal).Holds (clear library depth j t i) := by
  apply (Run.intact S _).ite (fun _ => (Run.intact S _).pure t)
  intro _
  apply (Run.intact S _).bind Run.get_intact
  intro run
  apply (Run.intact S _).ite (fun _ => (Run.intact S _).pure t)
  intro _
  apply updateRow_intact hlib depth
  intro x y
  exact (Graph.intact S).bind ((Graph.intact S).builders.product _) fun _ =>
    Graph.subtract_holds (Graph.intact S).builders _ _

theorem reduceColumn_intact (t : Tableau n) (j : Fin n) :
    (Run.intact S Journal).Holds (reduceColumn library depth t j) := by
  apply (Run.intact S _).bind Run.get_intact
  intro run
  cases t.pivot? run.pass.graph j with
  | none => exact fun run => .refl S run.pass.graph
  | some i =>
    exact (Run.intact S _).bind (normalize_intact hlib depth j _) fun t =>
      (Run.intact S _).foldlM (clear_intact hlib depth j) _ t

end Tableau

theorem invertGrid_intact (a : Grid n n NodeId) :
    (Run.intact S Journal).Holds (invertGrid library depth a) :=
  (Run.intact S _).bind (Run.build_intact (identityGrid_intact n)) fun _ =>
    (Run.intact S _).bind ((Run.intact S _).foldlM (Tableau.reduceColumn_intact hlib depth) _ _)
      fun _ => (Run.intact S _).pure _

end Elimination

/-! ### Matrices -/

namespace Matrix

open Workspace (intact throw_intact constant_intact)

variable (S : Handle → Prop)

theorem needGraph_intact (k : Option Nat) : (intact S).Holds (needGraph k) := by
  cases k with
  | none => exact throw_intact S _
  | some k => exact (intact S).pure k

theorem zero_intact (k rows cols : Nat) : (intact S).Holds (zero k rows cols) :=
  (intact S).bind (constant_intact S k 0) fun _ => (intact S).pure _

theorem identity_intact (k n : Nat) : (intact S).Holds (identity k n) :=
  (intact S).bind (constant_intact S k 0) fun _ =>
    (intact S).bind (constant_intact S k 1) fun _ => (intact S).pure _

theorem checkRow_intact (k cols : Nat) (row : List Handle) :
    (intact S).Holds (checkRow k cols row) := by
  have hentries : (intact S).Holds (do
      for h in row do
        if h.graph? ≠ some k then throw .entryOutsideGraph) := by
    apply (intact S).bind ((intact S).forIn _ row _)
    · exact fun _ => (intact S).pure _
    · intro h _
      exact (intact S).ite (fun _ => (intact S).bind (throw_intact S _) fun _ => (intact S).pure _)
        fun _ => (intact S).pure _
  exact (intact S).ite (fun _ => throw_intact S _) fun _ => hentries

theorem ofRows_intact (k : Nat) (rows : List (List Handle)) : (intact S).Holds (ofRows k rows) :=
  (intact S).bind (constant_intact S k 0) fun _ =>
    (intact S).bind ((intact S).forM (checkRow_intact S k _) rows) fun _ => (intact S).pure _

theorem ofConstants_intact (k : Nat) (rows : List (List Rat)) :
    (intact S).Holds (ofConstants k rows) :=
  (intact S).bind ((intact S).mapM (fun row => (intact S).mapM (constant_intact S k) row) rows)
    fun rows => ofRows_intact S k rows

variable {S}

theorem mapEntries_intact {f : Handle → Work Handle} (hf : ∀ h, (intact S).Holds (f h))
    (m : Matrix) : (intact S).Holds (mapEntries f m) :=
  (intact S).bind ((intact S).generate fun _ _ => hf _) fun _ => (intact S).pure _

theorem zipEntries_intact (operation : String) {f : Handle → Handle → Work Handle}
    (hf : ∀ h h', (intact S).Holds (f h h')) (l r : Matrix) :
    (intact S).Holds (zipEntries operation f l r) := by
  unfold zipEntries
  split
  · exact (intact S).bind ((intact S).generate fun _ _ => hf _ _) fun _ => (intact S).pure _
  · exact throw_intact S _

theorem multiply_intact (l r : Matrix) : (intact S).Holds (multiply l r) := by
  have hdot : ∀ {rows inner cols : Nat} (l : Grid rows inner Handle) (r : Grid inner cols Handle)
      k i j, (intact S).Holds (dot k l r i j) := fun l r k i j =>
    (intact S).bind ((intact S).mapM (fun _ => Workspace.multiply_intact S _ _) _) fun _ =>
      Workspace.sum_intact S k _
  unfold multiply
  split
  · apply (intact S).bind (constant_intact S l.graph 0)
    intro zero
    apply (intact S).bind
    · apply (intact S).foldlM
      rintro m ⟨i, j⟩
      exact (intact S).bind (hdot _ _ _ i j) fun _ => (intact S).pure _
    · exact fun _ => (intact S).pure _
  · exact throw_intact S _

section Evaluation

variable (hlib : ∀ k, library.Intact fun x => S (.node k x)) (depth : Nat)

include hlib

theorem evaluate_intact (pairs : List (Handle × Handle)) (m : Matrix) :
    (intact S).Holds (evaluate library depth pairs m) := by
  have hentries : (Transforming.intact S (Array Fault)).Holds
      (Grid.generate fun i j => do
        let h ← Transforming.work (Workspace.substitute (m.entries.get i j) pairs)
        Transforming.evaluate library depth h) :=
    (Transforming.intact S _).generate fun i j =>
      (Transforming.intact S _).bind
        (Transforming.work_intact (Workspace.substitute_intact S _ pairs)) fun h =>
          Transforming.evaluate_intact hlib depth h
  exact (intact S).bind (Workspace.withFreshMemo_intact hentries m.graph) fun _ =>
    (intact S).pure _

theorem invertEntries_intact (k : Nat) (m : Grid n n Handle) :
    (Transforming.intact S (Array Fault)).Holds (invertEntries library depth k m) :=
  (Transforming.intact S _).bind ((Transforming.intact S _).generate fun _ _ =>
    Transforming.evaluate_intact hlib depth _) fun _ =>
      (Transforming.intact S _).bind
        (Transforming.runEvaluation_intact fun k => invertGrid_intact (hlib k) depth _) fun _ =>
          (Transforming.intact S _).pure _

theorem inverse_intact (m : Matrix) : (intact S).Holds (inverse library depth m) := by
  unfold inverse
  split
  · exact (intact S).bind
      (Workspace.withFreshMemo_intact (invertEntries_intact hlib depth _ _) m.graph) fun _ =>
        (intact S).pure _
  · exact throw_intact S _

theorem powerWithin_intact (rounds : Nat) (m : Matrix) (k : Int64) :
    (intact S).Holds (powerWithin library depth rounds m k) := by
  induction rounds generalizing m k with
  | zero => exact throw_intact S _
  | succ rounds ih =>
    apply (intact S).ite (fun _ => throw_intact S _)
    intro _
    apply (intact S).ite (fun _ => (intact S).pure m)
    intro _
    apply (intact S).ite (fun _ => ?_) fun _ => throw_intact S _
    exact (intact S).bind (inverse_intact hlib depth m) fun inverse => ih inverse (-k)

theorem power_intact (m : Matrix) (k : Int64) : (intact S).Holds (power library depth m k) :=
  powerWithin_intact hlib depth depth m k

end Evaluation

end Matrix

end ExactAlgebra
