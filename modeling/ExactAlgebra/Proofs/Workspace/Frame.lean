import ExactAlgebra.Workspace.Collect
import ExactAlgebra.Proofs.Evaluation.Frame
import ExactAlgebra.Proofs.Graph.Sharing
import ExactAlgebra.Proofs.Workspace.Evaluate

/-!
Operations on handles leave the nodes of all graphs as they are, apart from the placeholders that
they are asked to close.
-/

namespace ExactAlgebra

variable {α β τ : Type} {library : Library} {S S' : Handle → Prop} {ws ws' ws'' : Workspace}
variable {k : Nat}

namespace Workspace

/-- The graphs of `ws` are there in `ws'`, with their nodes as they were, apart from placeholders in
`S` that were closed. -/
structure Intact (S : Handle → Prop) (ws ws' : Workspace) : Prop where
  size_le : ws.graphs.size ≤ ws'.graphs.size
  graph : ∀ k, k < ws.graphs.size → (ws.graph k).Intact (fun x => S (.node k x)) (ws'.graph k)

theorem Intact.refl (S : Handle → Prop) (ws : Workspace) : ws.Intact S ws :=
  ⟨Nat.le_refl _, fun _ _ => .refl _ _⟩

theorem Intact.trans (h : ws.Intact S ws') (h' : ws'.Intact S ws'') : ws.Intact S ws'' :=
  ⟨h.size_le.trans h'.size_le,
    fun k hk => (h.graph k hk).trans (h'.graph k (hk.trans_le h.size_le))⟩

theorem Intact.mono (h : ws.Intact S ws') (hS : ∀ e, S e → S' e) : ws.Intact S' ws' :=
  ⟨h.size_le, fun k hk => (h.graph k hk).mono fun _ => hS _⟩

/-- Nothing else may be closed than what was added. -/
theorem Intact.trans_fresh (h : ws.Intact S ws')
    (h' : ws'.Intact (fun e => S e ∨ ∃ k x, e = .node k x ∧ (ws.graph k).size ≤ x) ws'') :
    ws.Intact S ws'' := by
  refine ⟨h.size_le.trans h'.size_le, fun k hk => (h.graph k hk).trans_fresh ?_⟩
  apply (h'.graph k (hk.trans_le h.size_le)).mono
  rintro x (hx | ⟨_, _, ⟨⟩, hx⟩)
  · exact .inl hx
  · exact .inr hx

/-- The computations that leave all nodes of a workspace as they are, apart from placeholders in `S`,
where the workspace is part of a state. -/
def intactIn {σ : Type} (view : σ → Workspace) (S : Handle → Prop) : Closure (EStateM Error σ) :=
  .along (fun s s' => (view s).Intact S (view s')) (fun s => .refl S (view s)) .trans

abbrev intact (S : Handle → Prop) : Closure Work := intactIn id S

theorem graph_setGraph_of_ne {k k' : Nat} (h : k' ≠ k) (g : Graph) :
    (ws.setGraph k g).graph k' = ws.graph k' := by
  simp only [graph, setGraph, Array.getElem?_setIfInBounds_ne h.symm]

theorem intact_setGraph {g : Graph}
    (h : k < ws.graphs.size → (ws.graph k).Intact (fun x => S (.node k x)) g) :
    ws.Intact S (ws.setGraph k g) := by
  refine ⟨(size_setGraph ws k g).ge, fun k' hk' => ?_⟩
  by_cases hk : k' = k
  · subst hk
    rw [graph_setGraph hk']
    exact h hk'
  · rw [graph_setGraph_of_ne hk]
    exact .refl _ _

theorem intact_afterRun {run : Run Journal}
    (h : (ws.graph k).Intact (fun x => S (.node k x)) run.pass.graph) :
    ws.Intact S (ws.afterRun k run) :=
  have hset := intact_setGraph (S := S) fun _ => h
  ⟨hset.size_le, hset.graph⟩

theorem within_intact {m : Build α} (hm : (Graph.intact fun x => S (.node k x)).Holds m) :
    (intact S).Holds (within k m) := by
  intro ws
  have h := hm (ws.graph k)
  rw [within_eq]
  cases he : m (ws.graph k) <;> rw [he] at h <;> exact intact_setGraph fun _ => h

theorem make_intact {m : Build NodeId} (hm : (Graph.intact fun x => S (.node k x)).Holds m) :
    (intact S).Holds (make k m) :=
  (intact S).bind (within_intact hm) fun _ => (intact S).pure _

variable (S)

theorem get_intact : (intact S).Holds get := .refl S

theorem throw_intact (e : Error) : (intact S).Holds (throw e : Work α) := .refl S

theorem construct_intact (k : Nat) (c : Graph.Construction) : (intact S).Holds (make k c.build) :=
  make_intact (c.build_holds (Graph.intact _).builders)

theorem newGraph_intact : (intact S).Holds newGraph := by
  intro ws
  refine ⟨?_, fun k hk => ?_⟩
  · change ws.graphs.size ≤ (ws.graphs.push .empty).size
    rw [Array.size_push]
    exact Nat.le_succ _
  · have hk : k < ws.graphs.size := hk
    have hgraph : graph { ws with graphs := ws.graphs.push .empty } k = ws.graph k := by
      simp only [graph, Array.getElem?_push_lt hk, Array.getElem?_eq_getElem hk]
    change (ws.graph k).Intact _ (graph { ws with graphs := ws.graphs.push .empty } k)
    rw [hgraph]
    exact .refl _ _

/-! ### Handles -/

theorem resolve_intact (h : Handle) : (intact S).Holds (resolve h) := by
  cases h with
  | empty => exact throw_intact S _
  | node k x => exact (intact S).pure _

theorem together_intact (l r : Handle) : (intact S).Holds (together l r) := by
  cases l with
  | empty => exact throw_intact S _
  | node k x =>
    cases r with
    | empty => exact throw_intact S _
    | node k' y => exact (intact S).ite (fun _ => (intact S).pure _) fun _ => throw_intact S _

theorem handle_intact (k : Nat) (x : NodeId) : (intact S).Holds (handle k x) :=
  (intact S).bind (get_intact S) fun _ =>
    (intact S).ite (fun _ => (intact S).pure _) fun _ => throw_intact S _

theorem nodesIn_intact (k : Nat) (hs : List Handle) : (intact S).Holds (nodesIn k hs) := by
  induction hs with
  | nil => exact (intact S).pure []
  | cons h hs ih =>
    cases h with
    | empty => exact throw_intact S _
    | node k' x =>
      exact (intact S).ite (fun _ => (intact S).bind ih fun _ => (intact S).pure _)
        fun _ => throw_intact S _

theorem graphOf_intact (operation : String) (hs : List Handle) :
    (intact S).Holds (graphOf operation hs) := by
  cases hs with
  | nil => exact throw_intact S _
  | cons h hs =>
    cases h with
    | empty => exact throw_intact S _
    | node k x => exact (intact S).pure k

theorem inspect_intact (read : Graph → NodeId → α) (h : Handle) :
    (intact S).Holds (inspect read h) :=
  (intact S).bind (resolve_intact S h) fun _ =>
    (intact S).bind (get_intact S) fun _ => (intact S).pure _

theorem demand_intact (read : Graph → NodeId → Except Error α) (h : Handle) :
    (intact S).Holds (demand read h) := by
  apply (intact S).bind (inspect_intact S read h)
  intro r
  cases r with
  | ok a => exact (intact S).pure a
  | error e => exact throw_intact S e

theorem operand_intact (h : Handle) (position : Nat) : (intact S).Holds (operand h position) :=
  (intact S).bind (resolve_intact S h) fun _ =>
    (intact S).bind (demand_intact S _ h) fun _ => (intact S).pure _

theorem terms_intact (h : Handle) : (intact S).Holds (terms h) :=
  (intact S).bind (resolve_intact S h) fun _ =>
    (intact S).bind (inspect_intact S _ h) fun _ => (intact S).pure _

theorem factors_intact (h : Handle) : (intact S).Holds (factors h) :=
  (intact S).bind (resolve_intact S h) fun _ =>
    (intact S).bind (inspect_intact S _ h) fun _ => (intact S).pure _

theorem order_intact (l r : Handle) : (intact S).Holds (order l r) :=
  (intact S).bind (together_intact S l r) fun _ =>
    (intact S).bind (get_intact S) fun _ => (intact S).pure _

theorem leaveScope_intact : (intact S).Holds leaveScope := by
  intro ws
  obtain ⟨graphs, scopes, invocations⟩ := ws
  cases scopes <;> exact ⟨Nat.le_refl _, fun _ _ => .refl _ _⟩

theorem currentGraph_intact : (intact S).Holds currentGraph := by
  apply (intact S).bind (get_intact S)
  intro ws
  cases ws.scopes with
  | nil => exact throw_intact S _
  | cons k _ => exact (intact S).pure k

/-! ### Building -/

theorem constant_intact (k : Nat) (q : Rat) : (intact S).Holds (constant k q) :=
  construct_intact S k (.constant q)

theorem symbol_intact (k : Nat) (name : String) : (intact S).Holds (symbol k name) :=
  construct_intact S k (.symbol name)

theorem constantNear_intact (h : Handle) (q : Rat) : (intact S).Holds (constantNear h q) :=
  (intact S).bind (resolve_intact S h) fun _ => constant_intact S _ q

theorem sum_intact (k : Nat) (terms : List Handle) : (intact S).Holds (sum k terms) :=
  (intact S).bind (nodesIn_intact S k terms) fun xs => construct_intact S k (.sum xs)

theorem product_intact (k : Nat) (factors : List Handle) : (intact S).Holds (product k factors) :=
  (intact S).bind (nodesIn_intact S k factors) fun xs => construct_intact S k (.product xs)

theorem sumOf_intact (terms : List Handle) : (intact S).Holds (sumOf terms) :=
  (intact S).bind (graphOf_intact S _ terms) fun k => sum_intact S k terms

theorem productOf_intact (factors : List Handle) : (intact S).Holds (productOf factors) :=
  (intact S).bind (graphOf_intact S _ factors) fun k => product_intact S k factors

theorem power_intact (base exponent : Handle) : (intact S).Holds (power base exponent) :=
  (intact S).bind (together_intact S base exponent) fun r =>
    construct_intact S r.1 (.power r.2.1 r.2.2)

theorem powerOf_intact (base : Handle) (q : Rat) : (intact S).Holds (powerOf base q) :=
  (intact S).bind (constantNear_intact S base q) fun e => power_intact S base e

theorem binary_intact (op : Operator) (l r : Handle) : (intact S).Holds (binary op l r) :=
  (intact S).bind (together_intact S l r) fun p => construct_intact S p.1 (.binary op p.2.1 p.2.2)

theorem unary_intact (op : Operator) (h : Handle) : (intact S).Holds (unary op h) :=
  (intact S).bind (resolve_intact S h) fun p => construct_intact S p.1 (.unary op p.2)

theorem call_intact (k : Nat) (f : Option Callee) (arguments : List Handle) :
    (intact S).Holds (call k f arguments) := by
  apply (intact S).bind (nodesIn_intact S k arguments)
  intro xs
  cases f with
  | none => exact throw_intact S _
  | some f => exact construct_intact S k (.call f xs)

theorem callOf_intact (f : Option Callee) (arguments : List Handle) :
    (intact S).Holds (callOf f arguments) :=
  (intact S).bind (graphOf_intact S _ arguments) fun k => call_intact S k f arguments

theorem set_intact (k : Nat) (members : List Handle) : (intact S).Holds (set k members) :=
  (intact S).bind (nodesIn_intact S k members) fun xs => construct_intact S k (.set xs)

theorem arrow_intact (l r : Handle) : (intact S).Holds (arrow l r) :=
  (intact S).bind (together_intact S l r) fun p => construct_intact S p.1 (.arrow p.2.1 p.2.2)

theorem add_intact (l r : Handle) : (intact S).Holds (add l r) :=
  (intact S).bind (together_intact S l r) fun p => construct_intact S p.1 (.sum [p.2.1, p.2.2])

theorem multiply_intact (l r : Handle) : (intact S).Holds (multiply l r) :=
  (intact S).bind (together_intact S l r) fun p => construct_intact S p.1 (.product [p.2.1, p.2.2])

theorem negate_intact (h : Handle) : (intact S).Holds (negate h) :=
  (intact S).bind (resolve_intact S h) fun p => construct_intact S p.1 (.negate p.2)

theorem subtract_intact (l r : Handle) : (intact S).Holds (subtract l r) :=
  (intact S).bind (together_intact S l r) fun p => construct_intact S p.1 (.subtract p.2.1 p.2.2)

theorem divide_intact (l r : Handle) : (intact S).Holds (divide l r) :=
  (intact S).bind (together_intact S l r) fun p => construct_intact S p.1 (.divide p.2.1 p.2.2)

theorem openLoop_intact (k : Nat) (label : String) : (intact S).Holds (openLoop k label) :=
  make_intact (Graph.openLoop_intact _ label)

variable {S}

/-- A placeholder is the only node that is changed when it is closed. -/
theorem closeLoop_intact {self : Handle} (hs : S self) (content : Handle) :
    (intact S).Holds (closeLoop self content) := by
  cases self with
  | empty => exact throw_intact S _
  | node k slot =>
    cases content with
    | empty => exact throw_intact S _
    | node k' x =>
      by_cases hk : k = k'
      · have heq : closeLoop (.node k slot) (.node k' x) = within k (Graph.closeLoop slot x) := by
          simp only [closeLoop, together, if_pos hk, pure_bind]
        rw [heq]
        exact within_intact (Graph.closeLoop_intact hs x)
      · have heq : closeLoop (.node k slot) (.node k' x) = throw .differentGraphs := by
          simp only [closeLoop, together, if_neg hk]
          rfl
        rw [heq]
        exact throw_intact S _

theorem openLoop_fresh {label : String} {self : Handle} (h : openLoop k label ws = .ok self ws') :
    ∃ k x, self = .node k x ∧ (ws.graph k).size ≤ x := by
  rw [openLoop, make_eq] at h
  cases he : Graph.openLoop label (ws.graph k) with
  | error e g =>
    rw [he] at h
    cases h
  | ok x g =>
    rw [he] at h
    cases h
    exact ⟨k, x, rfl, Graph.openLoop_fresh he⟩

/-- A self-referential node is new, whatever is built for its structure. -/
theorem loop_intact (k : Nat) (label : String) {body : Handle → Work Handle}
    (hbody : ∀ self, (intact S).Holds (body self)) : (intact S).Holds (loop k label body) := by
  have hloop : loop k label body = (do
      let self ← openLoop k label
      let content ← body self
      closeLoop self content
      return self) := rfl
  intro ws
  have hopen := openLoop_intact S k label ws
  rw [hloop]
  simp only [bind, EStateM.bind]
  cases he : openLoop k label ws with
  | error e ws' =>
    rw [he] at hopen
    exact hopen
  | ok self ws' =>
    rw [he] at hopen
    apply hopen.trans_fresh
    have hself := openLoop_fresh he
    have hrest : (intact fun e => S e ∨ ∃ k x, e = .node k x ∧ (ws.graph k).size ≤ x).Holds (do
        let content ← body self
        closeLoop self content
        return self) := by
      apply (intact _).bind fun ws => (hbody self ws).mono fun _ => .inl
      intro content
      exact (intact _).bind (closeLoop_intact (.inr hself) content) fun _ => (intact _).pure self
    exact hrest ws'

/-! ### Collecting -/

section Collect

variable (S)

theorem extractCoefficient_intact (k : Nat) (h : Handle) :
    (intact S).Holds (extractCoefficient k h) := by
  apply (intact S).bind (resolve_intact S h)
  intro p
  apply (intact S).bind (get_intact S)
  intro ws
  dsimp only
  cases (ws.graph p.1).splitFactors ((ws.graph p.1).factors p.2) with
  | none => exact (intact S).pure _
  | some r => exact (intact S).bind (product_intact S k _) fun _ => (intact S).pure _

theorem readTerm_intact (k : Nat) (ts : Graph.Terms) (h : Handle) :
    (intact S).Holds (readTerm k ts h) := by
  apply (intact S).bind (inspect_intact S _ h)
  intro r
  cases r with
  | some q => exact (intact S).pure _
  | none => exact (intact S).bind (extractCoefficient_intact S k h) fun _ => (intact S).pure _

theorem readAddend_intact (k : Nat) (ts : Graph.Terms) (h : Handle) :
    (intact S).Holds (readAddend k ts h) :=
  (intact S).bind (terms_intact S h) fun hs => (intact S).foldlM (readTerm_intact S k) hs ts

theorem combineTerms_intact (k : Nat) (addends : List Handle) :
    (intact S).Holds (combineTerms k addends) :=
  (intact S).bind ((intact S).foldlM (readAddend_intact S k) addends {}) fun ts =>
    make_intact (ts.emit_holds (Graph.intact _).builders)

theorem readFactor_intact (fs : Graph.Factors) (h : Handle) :
    (intact S).Holds (readFactor fs h) :=
  inspect_intact S _ h

theorem combineFactors_intact (k : Nat) (factors : List Handle) :
    (intact S).Holds (combineFactors k factors) :=
  (intact S).bind ((intact S).foldlM (readFactor_intact S) factors {}) fun fs =>
    make_intact (fs.emit_holds (Graph.intact _).builders)

theorem scaleTerm_intact (k : Nat) (c : Rat) (h : Handle) :
    (intact S).Holds (scaleTerm k c h) := by
  apply (intact S).bind (inspect_intact S _ h)
  intro r
  cases r with
  | some q => exact constant_intact S k _
  | none =>
    exact (intact S).bind (extractCoefficient_intact S k h) fun _ =>
      (intact S).bind (constant_intact S k _) fun _ => product_intact S k _

theorem scaleSum_intact (k : Nat) (c : Rat) (h : Handle) : (intact S).Holds (scaleSum k c h) :=
  (intact S).bind (terms_intact S h) fun hs =>
    (intact S).bind ((intact S).mapM (scaleTerm_intact S k c) hs) fun _ => sum_intact S k _

/-! ### Substitution -/

theorem substitutionIn_intact (k : Nat) (pairs : List (Handle × Handle)) :
    (intact S).Holds (substitutionIn k pairs) := by
  apply (intact S).mapM
  rintro ⟨key, value⟩
  exact (intact S).bind (together_intact S key value) fun _ =>
    (intact S).ite (fun _ => (intact S).pure _) fun _ => throw_intact S _

theorem substitute_intact (h : Handle) (pairs : List (Handle × Handle)) :
    (intact S).Holds (substitute h pairs) := by
  apply (intact S).ite (fun _ => (intact S).pure h)
  intro _
  cases h with
  | empty => exact throw_intact S _
  | node k x =>
    exact (intact S).bind (substitutionIn_intact S k pairs) fun s =>
      make_intact (Graph.substitute_intact _ s x)

theorem arrowPairs_intact (h : Handle) : (intact S).Holds (arrowPairs h) :=
  (intact S).bind (resolve_intact S h) fun p =>
    (intact S).bind (within_intact (Evaluation.arrowPairs_holds (Graph.intact _).builders p.2))
      fun _ => (intact S).pure _

theorem graphToTransform_intact (h : Handle) : (intact S).Holds (graphToTransform h) := by
  cases h with
  | empty => exact throw_intact S _
  | node k x => exact (intact S).pure k

theorem allConstant_intact (hs : List Handle) : (intact S).Holds (allConstant hs) := by
  induction hs with
  | nil => exact (intact S).pure true
  | cons h hs ih =>
    apply (intact S).bind (inspect_intact S _ h)
    intro r
    cases r with
    | some q => exact ih
    | none => exact (intact S).pure false

theorem accepts_intact (behaviour : Behaviour) (k : Nat) (arguments : List Handle) :
    (intact S).Holds (accepts behaviour k arguments) := by
  cases behaviour with
  | real arity apply =>
    exact (intact S).ite (fun _ => allConstant_intact S arguments) fun _ => (intact S).pure false
  | direct accepts invoke => exact (intact S).bind (get_intact S) fun _ => (intact S).pure _

end Collect

end Workspace

/-! ### Evaluation -/

namespace Transforming

abbrev intact (S : Handle → Prop) (τ : Type) : Closure (Transforming τ) :=
  Workspace.intactIn Prod.fst S

theorem work_intact {m : Work α} (hm : (Workspace.intact S).Holds m) :
    (intact S τ).Holds (work m) := by
  rintro ⟨ws, t⟩
  have h := hm ws
  unfold work
  cases he : m ws <;> simp only [he] at h ⊢ <;> exact h

theorem node_intact (h : Handle) : (intact S τ).Holds (node h) := by
  cases h with
  | empty => exact fun s => .refl S s.1
  | node k x =>
    exact (intact S τ).bind (fun s => .refl S s.1) fun _ =>
      (intact S τ).ite (fun _ => (intact S τ).pure _) fun _ s => .refl S s.1

theorem run_intact {m : EStateM Error (Run τ) α}
    (hm : ∀ k, (Run.intact (fun x => S (.node k x)) τ).Holds m) : (intact S τ).Holds (run m) := by
  rintro ⟨ws, t⟩
  have h := hm t.graph ⟨t.memo, ⟨ws.graph t.graph, t.log⟩⟩
  have hset : ∀ g, (ws.graphs.setIfInBounds t.graph .empty).setIfInBounds t.graph g =
      ws.graphs.setIfInBounds t.graph g := fun g => Array.setIfInBounds_setIfInBounds ..
  simp only [run]
  cases he : m ⟨t.memo, ⟨ws.graph t.graph, t.log⟩⟩ <;> rw [he] at h <;> rw [Workspace.graph] at he <;>
    simp only [he, hset] <;> exact Workspace.intact_setGraph fun _ => h

theorem runEvaluation_intact {m : EStateM Error (Run Journal) α}
    (hm : ∀ k, (Run.intact (fun x => S (.node k x)) Journal).Holds m) :
    (intact S (Array Fault)).Holds (runEvaluation m) := by
  rintro ⟨ws, t⟩
  have h := hm t.graph (start ws t)
  rw [runEvaluation_eq]
  cases he : m (start ws t) <;> rw [he] at h <;> exact Workspace.intact_afterRun h

theorem transform_intact {rules : Rules τ} (hr : ∀ k, rules.Intact fun x => S (.node k x))
    (depth : Nat) (h : Handle) : (intact S τ).Holds (transform rules depth h) :=
  (intact S τ).bind (node_intact h) fun x =>
    (intact S τ).bind (run_intact fun k => (hr k).apply depth x) fun _ =>
      (intact S τ).bind (fun s => .refl S s.1) fun _ => (intact S τ).pure _

theorem evaluate_intact (hlib : ∀ k, library.Intact fun x => S (.node k x)) (depth : Nat)
    (h : Handle) : (intact S (Array Fault)).Holds (evaluate library depth h) :=
  (intact S _).bind (node_intact h) fun x =>
    (intact S _).bind (runEvaluation_intact fun k => evaluateIn_intact (hlib k) depth x) fun _ =>
      (intact S _).bind (fun s => .refl S s.1) fun _ => (intact S _).pure _

end Transforming

namespace Workspace

theorem withFreshMemo_intact {m : Transforming (Array Fault) α}
    (hm : (Transforming.intact S (Array Fault)).Holds m) (k : Nat) :
    (intact S).Holds (withFreshMemo k m) := by
  intro ws
  have h := hm (ws, { graph := k, log := #[] })
  unfold withFreshMemo
  cases he : m (ws, ({ graph := k, log := #[] } : Transformer (Array Fault))) <;>
    simp only [he] at h ⊢ <;> exact h

variable (hlib : ∀ k, library.Intact fun x => S (.node k x)) (depth : Nat)

include hlib

theorem evaluateFaults_intact (h : Handle) : (intact S).Holds (evaluateFaults library depth h) :=
  (intact S).bind (graphToTransform_intact S h) fun k =>
    withFreshMemo_intact (Transforming.evaluate_intact hlib depth h) k

theorem evaluate_intact (h : Handle) : (intact S).Holds (evaluate library depth h) :=
  (intact S).bind (evaluateFaults_intact hlib depth h) fun _ => (intact S).pure _

theorem evaluateBound_intact (h : Handle) (pairs : List (Handle × Handle)) :
    (intact S).Holds (evaluateBound library depth h pairs) :=
  (intact S).bind (substitute_intact S h pairs) fun h' => evaluateFaults_intact hlib depth h'

theorem evaluateAtArrows_intact (h : Handle) (arrows : List Handle) :
    (intact S).Holds (evaluateAtArrows library depth h arrows) :=
  (intact S).bind ((intact S).mapM (arrowPairs_intact S) arrows) fun _ =>
    (intact S).bind (evaluateBound_intact hlib depth h _) fun _ => (intact S).pure _

theorem evaluateAll_intact (hs : List Handle) (pairs : List (Handle × Handle)) :
    (intact S).Holds (evaluateAll library depth hs pairs) := by
  cases hs with
  | nil => exact (intact S).pure _
  | cons first rest =>
    apply (intact S).bind (graphToTransform_intact S first)
    intro k
    apply withFreshMemo_intact
    apply (Transforming.intact S _).mapM
    intro h
    exact (Transforming.intact S _).bind (Transforming.work_intact (substitute_intact S h pairs))
      fun h' => Transforming.evaluate_intact hlib depth h'

omit hlib in
theorem modify_invocations_intact (f : Callee) : (intact S).Holds
    (modify fun ws => { ws with invocations := ws.invocations.push f } : Work Unit) :=
  fun _ => ⟨Nat.le_refl _, fun _ _ => .refl _ _⟩

theorem invoke_intact (f : Callee) (k : Nat) (arguments : List Handle) :
    (intact S).Holds (invoke library f k arguments) := by
  have hrun : ∀ {reply : Build Reply}, (Graph.intact fun x => S (.node k x)).Holds reply →
      (intact S).Holds (do
        modify fun ws => { ws with invocations := ws.invocations.push f }
        within k reply) := fun h =>
    (intact S).bind (modify_invocations_intact f) fun _ => within_intact h
  unfold invoke
  cases hf : library f with
  | real arity apply =>
    apply (intact S).bind ((intact S).mapM (demand_intact S _) arguments)
    intro qs
    exact hrun (Evaluation.ofReal_holds (Graph.intact _).builders _)
  | direct accepts run => exact hrun (hlib k f accepts run hf _)

end Workspace

end ExactAlgebra
