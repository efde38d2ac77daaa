import ExactAlgebra.Proofs.Evaluation.Exact
import ExactAlgebra.Proofs.Evaluation.Soundness
import ExactAlgebra.Proofs.Workspace.Collection

/-!
The outcome of evaluating an elementary expression is fixed by its graph: however much depth is
given, evaluation comes to it, or the depth does not suffice. So it is with what evaluates one
expression after another.
-/

namespace ExactAlgebra

open ExactAlgebra.Graph (Meets Vocabulary Overflow)

variable {α β : Type} {library : Library} {V : Vocabulary} {g : Graph} {x : NodeId} {k : Nat}
variable {P Q : NodeId → Graph → Prop}

/-- An outcome in what has grown from a graph: something with `R`, or no room for it. -/
def Graph.Arrived (g : Graph) (R : α → Graph → Prop) : EStateM.Result Error Graph α → Prop
  | .ok a g' => g'.WellFormed ∧ g.Extends g' ∧ R a g'
  | .error e g' => g'.WellFormed ∧ g.Extends g' ∧ Overflow e g'

/-- Evaluation by itself keeps values. -/
theorem Evaluation.denotes_of_evaluateIn {ρ : String → Option Rat} {v : Rat} {depth : Nat}
    {y : NodeId} {run : Run Journal} (hg : g.WellFormed)
    (hv : g.Denotes (.atPoint library ρ) [] x v)
    (he : evaluateIn library depth x (.start g) = .ok y run) :
    run.pass.graph.Denotes (.atPoint library ρ) [] y v := by
  have hrun := evaluateIn_keeps (M := .atPoint library ρ) rfl rfl depth x g {} {} hg
    (Memo.holds_empty _ _) ⟨v, hv⟩ (Memo.leads_empty _ _ _)
  change Outcome _ _ _ _ (evaluateIn library depth x (.start g)) at hrun
  rw [he] at hrun
  obtain ⟨-, hext, -, -, -, -, hy⟩ := hrun
  exact hy v (hv.extends hg hext)

namespace Workspace

/-- An operation in graph `k` has come to the outcome `r`, or it has failed because less depth than
`N` was given. -/
def Ends (k N depth : Nat) (r : EStateM.Result Error Graph α) :
    EStateM.Result Error Workspace α → Prop
  | .ok a ws => k < ws.graphs.size ∧ r = .ok a (ws.graph k)
  | .error e ws => r = .error e (ws.graph k) ∨ (e = .depthExhausted ∧ depth < N)

/-- An operation in graph `k` comes to one outcome, if it does not fail for the depth that it is
given, whatever else there is in a workspace. -/
def Converges (k : Nat) (m : Nat → Work α) (g : Graph) (R : α → Graph → Prop) : Prop :=
  ∃ N r, g.Arrived R r ∧ ∀ ws : Workspace, k < ws.graphs.size → ws.graph k = g →
    ∀ depth, Ends k N depth r (m depth ws)

namespace Converges

variable {m : Nat → Work α} {f : α → Nat → Work β} {R R' : α → Graph → Prop}
variable {S : β → Graph → Prop}

theorem pure {a : α} (hg : g.WellFormed) (h : R a g) : Converges k (fun _ => pure a) g R :=
  ⟨0, .ok a g, ⟨hg, .refl g, h⟩, fun ws hk hws _ => ⟨hk, by rw [hws]⟩⟩

theorem bind (hm : Converges k m g R)
    (hf : ∀ a g', g'.WellFormed → g.Extends g' → R a g' → Converges k (f a) g' S) :
    Converges k (fun depth => m depth >>= fun a => f a depth) g S := by
  obtain ⟨N, r, hr, hN⟩ := hm
  cases r with
  | error e g' =>
    refine ⟨N, .error e g', hr, fun ws hk hws depth => ?_⟩
    have hend := hN ws hk hws depth
    simp only [Bind.bind, EStateM.bind]
    cases he : m depth ws with
    | ok a ws' =>
      rw [he] at hend
      cases hend.2
    | error e' ws' =>
      rw [he] at hend
      exact hend.imp_left fun h => by cases h; rfl
  | ok a g' =>
    obtain ⟨hg', hext, ha⟩ := hr
    obtain ⟨N', r', hr', hN'⟩ := hf a g' hg' hext ha
    refine ⟨max N N', r', ?_, fun ws hk hws depth => ?_⟩
    · cases r' <;> exact ⟨hr'.1, hext.trans hr'.2.1, hr'.2.2⟩
    have hend := hN ws hk hws depth
    simp only [Bind.bind, EStateM.bind]
    cases he : m depth ws with
    | error e ws' =>
      rw [he] at hend
      rcases hend with h | ⟨rfl, h⟩
      · cases h
      · exact .inr ⟨rfl, lt_max_of_lt_left h⟩
    | ok a' ws' =>
      rw [he] at hend
      obtain ⟨hk', h⟩ := hend
      obtain ⟨rfl, hgraph⟩ := EStateM.Result.ok.inj h
      have hend' := hN' ws' hk' hgraph.symm depth
      simp only
      cases he' : f a depth ws' with
      | ok b ws'' =>
        rw [he'] at hend'
        exact hend'
      | error e ws'' =>
        rw [he'] at hend'
        exact hend'.imp_right fun h => ⟨h.1, lt_max_of_lt_right h.2⟩

theorem mono (hm : Converges k m g R)
    (h : ∀ a g', g'.WellFormed → g.Extends g' → R a g' → R' a g') : Converges k m g R' := by
  obtain ⟨N, r, hr, hN⟩ := hm
  refine ⟨N, r, ?_, hN⟩
  cases r with
  | ok a g' => exact ⟨hr.1, hr.2.1, h a g' hr.1 hr.2.1 hr.2.2⟩
  | error e g' => exact hr

theorem make {m : Build NodeId} (hm : Meets Overflow m g Q) :
    Converges k (fun _ => make k m) g fun h g' => ∃ y, h = .node k y ∧ Q y g' := by
  cases he : m g with
  | ok y g' =>
    rw [Meets, he] at hm
    refine ⟨0, .ok (.node k y) g', ⟨hm.1, hm.2.1.toExtends, y, rfl, hm.2.2⟩, ?_⟩
    intro ws hk hws depth
    simp only [make_eq, hws, he]
    exact ⟨(size_setGraph ws k g').symm ▸ hk, by rw [graph_setGraph hk]⟩
  | error e g' =>
    rw [Meets, he] at hm
    refine ⟨0, .error e g', ⟨hm.1, hm.2.1.toExtends, hm.2.2⟩, fun ws hk hws depth => ?_⟩
    simp only [make_eq, hws, he]
    exact .inl (by rw [graph_setGraph hk])

end Converges

/-- The outcome of an operation on graph `k`, without the log. -/
def named {τ : Type} (k : Nat) :
    EStateM.Result Error (Pass τ) NodeId → EStateM.Result Error Graph Handle
  | .ok y p => .ok (.node k y) p.graph
  | .error e p => .error e p.graph

/-- Evaluation comes to one outcome. What is known of every evaluation by itself is known of it. -/
theorem evaluate_converges (hlib : library.Changing Graph.Develops)
    (hreal : ∀ f, V.callees f → library.IsReal f) (hg : g.WellFormed) (hx : g.Elementary V x)
    (hhalts : Dialogue.Halts (Evaluation.rules library) Overflow (Dialogue.ask x) g Q)
    (hP : ∀ depth y run, evaluateIn library depth x (.start g) = .ok y run → P y run.pass.graph) :
    Converges k (fun depth => evaluate library depth (.node k x)) g fun h g' =>
      ∃ y, h = .node k y ∧ Q y g' ∧ P y g' := by
  have hdepth : ∀ g, ¬ Overflow .depthExhausted g := by
    rintro g ⟨h, -⟩
    cases h
  obtain ⟨N, q, hq, hN⟩ := Evaluation.exists_depth_of_halts hreal hx hhalts hdepth
  have hends : ∀ k (ws : Workspace), k < ws.graphs.size → ws.graph k = g → ∀ depth,
      Ends k N depth (named k q) (evaluate library depth (.node k x) ws) := by
    rintro k ws hk rfl depth
    have hready : Ready library ws { graph := k, log := #[] } := .fresh library hk hg
    have hrun := hN depth _ _ (hready.transforms hlib depth x)
    rw [evaluate_eq]
    rw [← startRun] at hrun
    cases he : evaluateIn library depth x (ws.startRun k) with
    | ok y run =>
      rw [he] at hrun
      obtain ⟨log, rfl⟩ := hrun
      exact ⟨(size_setGraph ..).symm ▸ hk, by rw [graph_afterRun hk]; rfl⟩
    | error e run =>
      rw [he] at hrun
      rcases hrun with h | ⟨log, rfl⟩
      · exact .inr h
      · exact .inl (by rw [graph_afterRun hk]; rfl)
  refine ⟨N, named k q, ?_, hends k⟩
  cases q with
  | error e p => exact hq
  | ok y p =>
    refine ⟨hq.1, hq.2.1, y, rfl, hq.2.2, ?_⟩
    -- With that much depth, evaluation ends well, for instance in a workspace of this graph only.
    have halone := hends 0 { graphs := #[g] } Nat.zero_lt_one rfl N
    have hstart : startRun { graphs := #[g] } 0 = .start g := rfl
    rw [evaluate_eq, hstart] at halone
    cases he : evaluateIn library N x (.start g) with
    | ok y' run =>
      rw [he] at halone
      obtain ⟨hy, hgraph⟩ := EStateM.Result.ok.inj halone.2
      rw [(Handle.node.inj hy).2, hgraph]
      exact hP N y' run he
    | error e run =>
      rw [he] at halone
      obtain h | ⟨-, h⟩ := halone
      · cases h
      · exact absurd h (Nat.lt_irrefl N)

/-- The value of an expression with expressions in it replaced, without the faults. -/
def evaluateAt (library : Library) (depth : Nat) (h : Handle) (pairs : List (Handle × Handle)) :
    Work Handle := do
  return (← evaluateBound library depth h pairs).1

end Workspace

end ExactAlgebra
