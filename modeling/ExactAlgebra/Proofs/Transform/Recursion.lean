import ExactAlgebra.Proofs.Graph.Replay
import ExactAlgebra.Transform.Rules

/-!
Transformation by plain recursion, and dialogues that two runs take through the same questions. The
second run may start from the same graph as the first, or from a later one, in which all that the
first run builds is there already.
-/

namespace ExactAlgebra

variable {σ τ α β : Type}

/-- Carries on a dialogue without a memo. -/
def Step.recurse (answer : NodeId → EStateM Error (Pass τ) NodeId) :
    Step (Pass τ) α → EStateM.Result Error (Pass τ) α
  | .done outcome => outcome
  | .ask x pass resume =>
    match answer x pass with
    | .ok y pass => (resume y pass).recurse answer
    | .error e pass => .error e pass

/-- The transformation of a node has to lead to a node of the graph. -/
def locate : EStateM.Result Error (Pass τ) (Option NodeId) →
    EStateM.Result Error (Pass τ) NodeId
  | .ok (some y) pass =>
    if pass.graph.contains y then .ok y pass else .error .transformedOutsideGraph pass
  | .ok none pass => .error .transformedOutsideGraph pass
  | .error e pass => .error e pass

/-- The transformation of a node without a memo: every node is transformed each time it is asked
for, also inside its own transformation. -/
def Rules.recurse (rules : Rules τ) : Nat → NodeId → EStateM Error (Pass τ) NodeId
  | 0, _, pass => .error .depthExhausted pass
  | depth + 1, x, pass =>
    if !pass.graph.contains x then .error .askedOutsideGraph pass
    else locate ((rules.transform x pass).recurse (rules.recurse depth))

/-- The depth that was given did not suffice. -/
def Exhausted (r : EStateM.Result Error σ α) : Prop := ∃ s, r = .error .depthExhausted s

/-! ### Two runs of one dialogue -/

open ExactAlgebra.Graph (Vocabulary Replays)

/-- The graph of a second run, if it is not that of the first, is a later one. -/
def Later (V : Vocabulary) (t? : Option Graph) (g : Graph) : Prop :=
  ∀ t, t? = some t → t.WellFormed ∧ g.Retains V t

variable {V : Vocabulary} {t? : Option Graph} {g g' : Graph}
variable {Q Q' : α → Graph → Prop} {R : β → Graph → Prop}

theorem later_none : Later V none g := fun _ h => nomatch h

theorem Later.of_retains (h : Later V t? g') (hx : g.Retains V g') : Later V t? g := fun t ht =>
  ⟨(h t ht).1, hx.trans (h t ht).2⟩

theorem Later.of_extends (h : Later V t? g') (hx : g.Extends g') : Later V t? g :=
  h.of_retains hx.retains

/--
The second step goes through the questions of the first, and ends as it does, as long as the answers
are the same. If its graph is a later one, it only has to do so when it lies behind all that the
first step builds, and when that step does not fail.
-/
def Step.Follows (V : Vocabulary) (t? : Option Graph) (g : Graph) (Q : α → Graph → Prop) :
    Step (Pass τ) α → Step (Pass τ) α → Prop
  | .done (.ok a p), q => p.graph.WellFormed ∧ g.Extends p.graph ∧ Q a p.graph ∧
      (Later V t? p.graph → ∃ log, q = .done (.ok a ⟨t?.getD p.graph, log⟩))
  | .done (.error e p), q => p.graph.WellFormed ∧ g.Extends p.graph ∧
      (t? = none → ∃ log, q = .done (.error e ⟨p.graph, log⟩))
  | .ask x p resume, q => p.graph.WellFormed ∧ g.Extends p.graph ∧ p.graph.Elementary V x ∧
      ∃ resume', (Later V t? p.graph → ∃ log, q = .ask x ⟨t?.getD p.graph, log⟩ resume') ∧
        ∀ y h log log', h.WellFormed → p.graph.Retains V h → h.Elementary V y →
          (resume y ⟨h, log⟩).Follows V t? h Q (resume' y ⟨t?.getD h, log'⟩)

namespace Step.Follows

theorem frame {p q : Step (Pass τ) α} (h : p.Follows V t? g' Q q) (hx : g.Extends g') :
    p.Follows V t? g Q q := by
  cases p with
  | done outcome =>
    cases outcome with
    | ok a p => exact ⟨h.1, hx.trans h.2.1, h.2.2⟩
    | error e p => exact ⟨h.1, hx.trans h.2.1, h.2.2⟩
  | ask x p resume => exact ⟨h.1, hx.trans h.2.1, h.2.2⟩

/-- A second run in a graph that is no later one may do anything. -/
theorem of_not_later {p q : Step (Pass τ) α} (h : p.Follows V t? g Q q) (hl : ¬ Later V t? g)
    (q' : Step (Pass τ) α) : p.Follows V t? g Q q' := by
  cases p with
  | done outcome =>
    cases outcome with
    | ok a p => exact ⟨h.1, h.2.1, h.2.2.1, fun hl' => absurd (hl'.of_extends h.2.1) hl⟩
    | error e p =>
      refine ⟨h.1, h.2.1, ?_⟩
      rintro rfl
      exact absurd later_none hl
  | ask x p resume =>
    obtain ⟨hw, hx, hc, resume', -, hr⟩ := h
    exact ⟨hw, hx, hc, resume', fun hl' => absurd (hl'.of_extends hx) hl, hr⟩

theorem bind {p q : Step (Pass τ) α} {k k' : α → Pass τ → Step (Pass τ) β}
    (h : p.Follows V t? g Q q)
    (hk : ∀ a g' log log', g'.WellFormed → g.Retains V g' → Q a g' →
      (k a ⟨g', log⟩).Follows V t? g' R (k' a ⟨t?.getD g', log'⟩)) :
    (p.bind k).Follows V t? g R (q.bind k') := by
  induction p generalizing g q with
  | done outcome =>
    cases outcome with
    | ok a p =>
      obtain ⟨hw, hx, hQ, hq⟩ := h
      by_cases hl : Later V t? p.graph
      · obtain ⟨log, rfl⟩ := hq hl
        exact (hk a p.graph p.log log hw hx.retains hQ).frame hx
      · have hstep := hk a p.graph p.log p.log hw hx.retains hQ
        exact (hstep.of_not_later hl (q.bind k')).frame hx
    | error e p =>
      refine ⟨h.1, h.2.1, fun ht => ?_⟩
      obtain ⟨log, rfl⟩ := h.2.2 ht
      exact ⟨log, rfl⟩
  | ask x p resume ih =>
    obtain ⟨hw, hx, hc, resume', hq, hr⟩ := h
    refine ⟨hw, hx, hc, fun y s => (resume' y s).bind k', fun hl => ?_, ?_⟩
    · obtain ⟨log, rfl⟩ := hq hl
      exact ⟨log, rfl⟩
    · intro y h log log' hw' hx' hy
      apply ih y ⟨h, log⟩ (hr y h log log' hw' hx' hy)
      intro a g' log₁ log₂ hg' hx''
      exact hk a g' log₁ log₂ hg' ((hx.retains.trans hx').trans hx'')

end Step.Follows

namespace Dialogue

/-- Two runs of a computation go through the same questions, whatever was logged before them. -/
def Follows (V : Vocabulary) (t? : Option Graph) (m : Dialogue (Pass τ) α) (g : Graph)
    (Q : α → Graph → Prop) : Prop :=
  ∀ log log', (m ⟨g, log⟩).Follows V t? g Q (m ⟨t?.getD g, log'⟩)

namespace Follows

theorem pure {a : α} (hg : g.WellFormed) (h : Q a g) :
    Follows V t? (Pure.pure a : Dialogue (Pass τ) α) g Q :=
  fun _ log' => ⟨hg, .refl g, h, fun _ => ⟨log', rfl⟩⟩

theorem bind {m : Dialogue (Pass τ) α} {f : α → Dialogue (Pass τ) β}
    (hm : Follows V t? m g Q)
    (hf : ∀ a g', g'.WellFormed → g.Retains V g' → Q a g' → Follows V t? (f a) g' R) :
    Follows V t? (m >>= f) g R :=
  fun log log' => (hm log log').bind fun a g' log₁ log₂ hw hx hQ => hf a g' hw hx hQ log₁ log₂

theorem ite {c : Prop} [Decidable c] {m m' : Dialogue (Pass τ) α} (h : c → Follows V t? m g Q)
    (h' : ¬ c → Follows V t? m' g Q) : Follows V t? (if c then m else m') g Q := by
  split
  · exact h ‹_›
  · exact h' ‹_›

theorem ask {x : NodeId} (hg : g.WellFormed) (hx : g.Elementary V x) :
    Follows V t? (ask x : Dialogue (Pass τ) NodeId) g fun y g' => g'.Elementary V y :=
  fun _ log' => ⟨hg, .refl g, hx, fun y s => .done (.ok y s), fun _ => ⟨log', rfl⟩,
    fun _ h _ log₂ hw _ hy => ⟨hw, .refl h, hy, fun _ => ⟨log₂, rfl⟩⟩⟩

theorem build {m : Build α} (hm : Replays V m g Q) :
    Follows V t? (build m : Dialogue (Pass τ) α) g Q := by
  intro log log'
  unfold Replays Graph.Meets at hm
  unfold Dialogue.build
  cases he : m g with
  | ok a g' =>
    simp only [he] at hm ⊢
    obtain ⟨hw, hx, hQ, hfound⟩ := hm
    refine ⟨hw, hx.toExtends, hQ, fun hl => ⟨log', ?_⟩⟩
    cases t? with
    | none => simp only [Option.getD_none, he]
    | some t =>
      obtain ⟨ht, hr⟩ := hl t rfl
      simp only [Option.getD_some, hfound t ht hr]
  | error e g' =>
    simp only [he] at hm ⊢
    refine ⟨hm.1, hm.2.1.toExtends, ?_⟩
    rintro rfl
    exact ⟨log', by simp only [Option.getD_none, he]⟩

/-- What is read of a graph has to be the same in every later one. -/
theorem graph {f : Graph → Dialogue (Pass τ) β}
    (hf : ∀ t, t.WellFormed → g.Retains V t → f t = f g) (h : Follows V t? (f g) g R) :
    Follows V t? (Dialogue.graph >>= f) g R := by
  intro log log'
  have hstep := h log log'
  cases t? with
  | none => exact hstep
  | some t =>
    by_cases hl : Later V (some t) g
    · obtain ⟨ht, hr⟩ := hl t rfl
      have heq : (Dialogue.graph >>= f) ⟨t, log'⟩ = f g ⟨t, log'⟩ :=
        congrFun (hf t ht hr) ⟨t, log'⟩
      rw [Option.getD_some, heq]
      exact hstep
    · exact hstep.of_not_later hl _

theorem updateLog {u : τ → τ} {f : Unit → Dialogue (Pass τ) β} (h : Follows V t? (f ()) g R) :
    Follows V t? (Dialogue.updateLog u >>= f) g R :=
  fun log log' => h (u log) (u log')

theorem fail {e : Error} (hg : g.WellFormed) :
    Follows V t? (fail e : Dialogue (Pass τ) α) g Q := by
  refine fun _ log' => ⟨hg, .refl g, ?_⟩
  rintro rfl
  exact ⟨log', rfl⟩

/-- The nodes of a list are asked for one after another. -/
theorem askAll {xs : List NodeId} (hg : g.WellFormed) (hxs : ∀ x ∈ xs, g.Elementary V x) :
    Follows V t? (askAll xs : Dialogue (Pass τ) (List NodeId)) g fun ys g' =>
      ∀ y ∈ ys, g'.Elementary V y := by
  induction xs generalizing g with
  | nil => exact .pure hg fun _ hy => absurd hy List.not_mem_nil
  | cons x xs ih =>
    apply (ask hg (hxs x (List.mem_cons_self ..))).bind
    intro y g' hg' hx hy
    apply (ih hg' fun x' hx' => hx.elementary (hxs x' (List.mem_cons_of_mem _ hx'))).bind
    intro ys g'' hg'' hx' hys
    exact .pure hg'' (List.forall_mem_cons.2 ⟨hx'.elementary hy, hys⟩)

/-- A node is built anew from its transformed operands, unless they are what they were. -/
theorem operands {x : NodeId} (hg : g.WellFormed) (hx : g.Elementary V x) :
    Follows V t? (Dialogue.operands x : Dialogue (Pass τ) NodeId) g fun y g' =>
      g'.Elementary V y := by
  apply Follows.graph
  · intro t _ hr
    rw [(hr.agree hg).operands_eq hx]
  apply (askAll hg hx.operands).bind
  intro ys g' hg' hr hys
  apply Follows.ite
  · exact fun _ => .pure hg' (hr.elementary hx)
  · exact fun _ => .build (Graph.withOperands_replays hg' (hr.elementary hx) hys)

end Follows

end Dialogue

end ExactAlgebra
