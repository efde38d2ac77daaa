import ExactAlgebra.Proofs.Graph.Closure
import ExactAlgebra.Transform.Rules

/-!
Transformations that may go on after a failure. Rules pass every failure of a question on; hooks are
told of it, and may ask again, ask for something else, or give a result all the same. Rules are the
hooks that never do so.

What is done for each node is written down as a history.
-/

namespace ExactAlgebra

variable {σ τ α β : Type}

/-- What is told of an outcome. -/
def reply : EStateM.Result Error σ α → Except Error α
  | .ok a _ => .ok a
  | .error e _ => .error e

/-- A step that has ended, or that asks for a node and goes on with the result or the failure. -/
inductive Attempt (σ α : Type) where
  | done (outcome : EStateM.Result Error σ α)
  | ask (x : NodeId) (state : σ) (resume : Except Error NodeId → σ → Attempt σ α)

/-- How a pass transforms nodes, if it may recover from failures. -/
structure Hooks (τ : Type) where
  /-- The transformation of a node; nothing when the result lies outside the graph. -/
  transform : NodeId → Pass τ → Attempt (Pass τ) (Option NodeId)
  /-- The answer for a node that is met inside its own transformation. -/
  onCycle : NodeId → Pass τ → Attempt (Pass τ) NodeId

/-- Carries on an attempt, with `answer` for its questions. -/
def Attempt.run (answer : NodeId → EStateM Error (Run τ) NodeId) :
    Attempt (Pass τ) α → Memo → EStateM.Result Error (Run τ) α
  | .done (.ok a pass), memo => .ok a ⟨memo, pass⟩
  | .done (.error e pass), memo => .error e ⟨memo, pass⟩
  | .ask x pass resume, memo =>
    let r := answer x ⟨memo, pass⟩
    (resume (reply r) (final r).pass).run answer (final r).memo

/-- The transformation of a node, with at most `depth` questions inside one another. -/
def Hooks.apply (hooks : Hooks τ) : Nat → NodeId → EStateM Error (Run τ) NodeId
  | 0, _, run => .error .depthExhausted run
  | depth + 1, x, ⟨memo, pass⟩ =>
    if !pass.graph.contains x then .error .askedOutsideGraph ⟨memo, pass⟩
    else match memo.mark? x with
      | some (.finished y) => .ok y ⟨memo, pass⟩
      | some .inProgress => (hooks.onCycle x pass).run (hooks.apply depth) memo
      | none => settle x ((hooks.transform x pass).run (hooks.apply depth) (memo.enter x))

/-! ### Rules as hooks -/

/-- A step as an attempt that gives up when a question fails. -/
def Step.attempt : Step σ α → Attempt σ α
  | .done outcome => .done outcome
  | .ask x s resume => .ask x s fun
    | .ok y, s' => (resume y s').attempt
    | .error e, s' => .done (.error e s')

def Rules.hooks (rules : Rules τ) : Hooks τ where
  transform x p := (rules.transform x p).attempt
  onCycle x p := (rules.onCycle x p).attempt

theorem Step.attempt_run (answer : NodeId → EStateM Error (Run τ) NodeId)
    (p : Step (Pass τ) α) (m : Memo) : p.attempt.run answer m = p.run answer m := by
  induction p generalizing m with
  | done outcome => cases outcome <;> rfl
  | ask x s resume ih =>
    simp only [attempt, Attempt.run, Step.run]
    cases answer x ⟨m, s⟩ with
    | ok y run => exact ih y run.pass run.memo
    | error e run => rfl

/-- Hooks that pass all failures on transform nodes as the rules do. -/
theorem Rules.hooks_apply (rules : Rules τ) (depth : Nat) :
    rules.hooks.apply depth = rules.apply depth := by
  induction depth with
  | zero => rfl
  | succ depth ih =>
    funext x run
    rw [Hooks.apply, Rules.apply, ih]
    cases run.pass.graph.contains x with
    | false => rfl
    | true =>
      cases run.memo.mark? x with
      | none => exact congrArg (settle x) (Step.attempt_run ..)
      | some mark =>
        cases mark with
        | finished y => rfl
        | inProgress => exact Step.attempt_run ..

/-! ### Histories -/

/-- What happens to a node when it is asked for. -/
inductive Event where
  /-- Its transformation begins. -/
  | entered (x : NodeId)
  /-- Its transformation ends with a result, which is remembered. -/
  | stored (x result : NodeId)
  /-- Its transformation ends with a failure, or with a result that is of no use. -/
  | failed (x : NodeId)
  /-- Its result is known from before. -/
  | recalled (x result : NodeId)
  /-- It is met inside its own transformation. -/
  | met (x : NodeId)
deriving DecidableEq, Repr

namespace Event

/-- The node to which it happens. -/
@[simp]
def node : Event → NodeId
  | entered x | stored x _ | failed x | recalled x _ | met x => x

/-- How the transformation of a node ended. -/
def ofOutcome (x : NodeId) : EStateM.Result Error (Run τ) NodeId → Event
  | .ok y _ => stored x y
  | .error _ _ => failed x

end Event

/-- What happens while an attempt is carried on, if `record` tells what happens in its questions. -/
def Attempt.events (answer : NodeId → EStateM Error (Run τ) NodeId)
    (record : NodeId → Run τ → List Event) : Attempt (Pass τ) α → Memo → List Event
  | .done _, _ => []
  | .ask x pass resume, memo =>
    let r := answer x ⟨memo, pass⟩
    record x ⟨memo, pass⟩ ++ (resume (reply r) (final r).pass).events answer record (final r).memo

/-- What happens when a node is asked for. Nothing does without depth, or outside the graph. -/
def Hooks.events (hooks : Hooks τ) : Nat → NodeId → Run τ → List Event
  | 0, _, _ => []
  | depth + 1, x, ⟨memo, pass⟩ =>
    if !pass.graph.contains x then []
    else match memo.mark? x with
      | some (.finished y) => [.recalled x y]
      | some .inProgress =>
        .met x :: (hooks.onCycle x pass).events (hooks.apply depth) (hooks.events depth) memo
      | none =>
        .entered x :: ((hooks.transform x pass).events (hooks.apply depth) (hooks.events depth)
          (memo.enter x) ++ [.ofOutcome x (hooks.apply (depth + 1) x ⟨memo, pass⟩)])

/-- The uses of one memo from its beginning, with what was replied and what happened. Any node may
be asked for again and again, whatever failed before, and in between the pass changes as `Leads`
says. -/
inductive Hooks.Session (hooks : Hooks τ) (Leads : Pass τ → Pass τ → Prop) (p₀ : Pass τ) :
    List (Except Error NodeId) → List Event → Run τ → Prop
  | fresh : Session hooks Leads p₀ [] [] ⟨{}, p₀⟩
  | meanwhile {replies : List (Except Error NodeId)} {es : List Event} {run : Run τ}
      (h : Session hooks Leads p₀ replies es run) {p : Pass τ} (hp : Leads run.pass p) :
      Session hooks Leads p₀ replies es ⟨run.memo, p⟩
  | visit {replies : List (Except Error NodeId)} {es : List Event} {run : Run τ}
      (h : Session hooks Leads p₀ replies es run) (depth : Nat) (x : NodeId) :
      Session hooks Leads p₀ (replies ++ [reply (hooks.apply depth x run)])
        (es ++ hooks.events depth x run) (final (hooks.apply depth x run))

end ExactAlgebra
