import ExactAlgebra.Proofs.Graph.Frame
import ExactAlgebra.Proofs.Graph.Meaning
import ExactAlgebra.Proofs.Reachable.Basic
import ExactAlgebra.Proofs.Transform.Depth
import ExactAlgebra.Proofs.Transform.History

/-!
Transformations that go by the structure of nodes: constants and symbols are transformed by a rule
that asks for nothing, all others through their operands, and some nodes in a way of their own, as
substitution does. They end on every graph. Only nodes are entered that were there when the visit
began, and each of them once.
-/

namespace ExactAlgebra

open ExactAlgebra.Graph (acting)

variable {τ α β : Type} {C : Conduct τ} {own : NodeId → Option NodeId}
variable {leaf : NodeId → EStateM Error (Pass τ) (Option NodeId)} {g g' g₀ : Graph}
variable {depth : Nat} {x : NodeId} {run : Run τ} {es : List Event}

/-- Rules that transform the nodes that have one to their `own` result, constants and symbols by
`leaf`, and all other nodes through their operands. -/
def Rules.structural (own : NodeId → Option NodeId)
    (leaf : NodeId → EStateM Error (Pass τ) (Option NodeId)) : Rules τ where
  transform x :=
    match own x with
    | some y => pure (some y)
    | none => Dialogue.structural leaf x

theorem Substitution.rules_eq_structural (s : Substitution) :
    s.rules = Rules.structural s.value? fun x => pure (some x) := rfl

/-- A rule for constants and symbols that changes graphs by adding to them only. -/
structure Adds (leaf : NodeId → EStateM Error (Pass τ) (Option NodeId)) : Prop where
  becomes : ∀ x (p : Pass τ), p.graph.Becomes (final (leaf x p)).graph
  extends_final : ∀ x (p : Pass τ), p.graph.WellFormed →
    p.graph.Extends (final (leaf x p)).graph
  ends : ∀ x p p', leaf x p ≠ .error .depthExhausted p'

/-! ### What is asked -/

/-- A step that starts from a pass behaves, and goes on to do so after each answer. -/
def Step.Obeys (C : Conduct τ) : Step (Pass τ) α → Pass τ → Prop
  | .done outcome, p => C.Leads p (final outcome)
  | .ask x p' resume, p =>
    C.Leads p p' ∧ C.Asks x p' ∧ ∀ y p'', C.Leads p' p'' → (resume y p'').Obeys C p''

namespace Step.Obeys

variable {p : Pass τ}

theorem of_leads {q : Step (Pass τ) α} {p' : Pass τ} (h : q.Obeys C p') (hp : C.Leads p p') :
    q.Obeys C p := by
  cases q with
  | done outcome => exact C.trans hp h
  | ask x p'' resume => exact ⟨C.trans hp h.1, h.2⟩

theorem bind {q : Step (Pass τ) α} {f : α → Pass τ → Step (Pass τ) β} (hq : q.Obeys C p)
    (hf : ∀ a p', C.Leads p p' → (f a p').Obeys C p') : (q.bind f).Obeys C p := by
  induction q generalizing p with
  | done outcome =>
    cases outcome with
    | ok a p' => exact (hf a p' hq).of_leads hq
    | error e p' => exact hq
  | ask x p' resume ih =>
    obtain ⟨hp, hx, hr⟩ := hq
    refine ⟨hp, hx, fun y p'' hp' => ih y p'' (hr y p'' hp') fun a p''' hp'' => ?_⟩
    exact hf a p''' (C.trans (C.trans hp hp') hp'')

theorem attempt {q : Step (Pass τ) α} (hq : q.Obeys C p) : q.attempt.Obeys C p := by
  induction q generalizing p with
  | done outcome => exact hq
  | ask x p' resume ih =>
    obtain ⟨hp, hx, hr⟩ := hq
    rw [Step.attempt]
    refine ⟨hp, hx, fun r p'' hp' => ?_⟩
    cases r with
    | ok y => exact ih y p'' (hr y p'' hp')
    | error e => exact C.refl p''

end Step.Obeys

namespace Dialogue

/-- A computation behaves from a pass on. -/
def Obeys (C : Conduct τ) (m : Dialogue (Pass τ) α) (p : Pass τ) : Prop := (m p).Obeys C p

namespace Obeys

variable {p : Pass τ}

theorem pure (a : α) : Obeys C (Pure.pure a : Dialogue (Pass τ) α) p := C.refl p

theorem bind {m : Dialogue (Pass τ) α} {f : α → Dialogue (Pass τ) β} (hm : m.Obeys C p)
    (hf : ∀ a p', C.Leads p p' → (f a).Obeys C p') : (m >>= f).Obeys C p :=
  Step.Obeys.bind hm hf

theorem ite {c : Prop} [Decidable c] {m m' : Dialogue (Pass τ) α} (h : m.Obeys C p)
    (h' : m'.Obeys C p) : (if c then m else m').Obeys C p := by
  split
  · exact h
  · exact h'

theorem graph {f : Graph → Dialogue (Pass τ) α} (h : (f p.graph).Obeys C p) :
    (Dialogue.graph >>= f).Obeys C p := h

theorem ask (hx : C.Asks x p) : (ask x : Dialogue (Pass τ) NodeId).Obeys C p :=
  ⟨C.refl p, hx, fun _ p' _ => C.refl p'⟩

theorem askAll {xs : List NodeId} (hxs : ∀ x ∈ xs, ∀ p', C.Leads p p' → C.Asks x p') :
    (askAll xs : Dialogue (Pass τ) (List NodeId)).Obeys C p := by
  induction xs generalizing p with
  | nil => exact .pure []
  | cons x xs ih =>
    refine .bind (.ask (hxs x (List.mem_cons_self ..) p (C.refl p))) fun y p' hp => ?_
    refine .bind (ih fun z hz p'' hp' => ?_) fun ys _ _ => .pure (y :: ys)
    exact hxs z (List.mem_cons_of_mem _ hz) p'' (C.trans hp hp')

theorem build {m : Build α} (hm : C.Leads p ⟨final (m p.graph), p.log⟩) :
    (build m : Dialogue (Pass τ) α).Obeys C p := by
  unfold Obeys Dialogue.build
  cases he : m p.graph <;> simp only [he] at hm ⊢ <;> exact hm

theorem operands (hask : ∀ y ∈ p.graph.operands x, ∀ p', C.Leads p p' → C.Asks y p')
    (hbuild : ∀ ys p', C.Leads p' ⟨final (Graph.withOperands x ys p'.graph), p'.log⟩) :
    (operands x : Dialogue (Pass τ) NodeId).Obeys C p :=
  graph (bind (askAll hask) fun ys p' _ => ite (pure x) (build (hbuild ys p')))

end Obeys

end Dialogue

/-- Only operands are asked for, so that the rules behave if operands may be asked for. -/
theorem Rules.structural_obeys (hleaf : ∀ x p, C.Leads p (final (leaf x p)))
    (hbuild : ∀ x ys p, C.Leads p ⟨final (Graph.withOperands x ys p.graph), p.log⟩)
    (hask : ∀ x p, C.Asks x p → ∀ y ∈ p.graph.operands x, ∀ p', C.Leads p p' → C.Asks y p') :
    (Rules.structural own leaf).hooks.Obey C where
  onCycle x p _ := C.refl p
  transform x p hx := by
    apply Step.Obeys.attempt
    have hoperands : (do return some (← Dialogue.operands x) : Dialogue (Pass τ) _).Obeys C p :=
      .bind (.operands (hask x p hx) (hbuild x)) fun y _ _ => .pure (some y)
    simp only [structural]
    cases own x with
    | some y => exact C.refl p
    | none =>
      apply Dialogue.Obeys.graph
      cases p.graph.shape x with
      | constant | symbol => exact hleaf x p
      | _ => exact hoperands

/-! ### Conduct -/

/-- Passes whose graphs change as programs change them. -/
def becoming (τ : Type) : Conduct τ where
  Leads p p' := p.graph.Becomes p'.graph
  Asks _ _ := True
  refl _ := .refl
  trans := .trans

/-- Passes that only add to the graph, and ask for nodes of `g₀` only. -/
def adding (g₀ : Graph) (τ : Type) : Conduct τ where
  Leads p p' := p.graph.WellFormed → p'.graph.WellFormed ∧ p.graph.Extends p'.graph
  Asks x p := p.graph.WellFormed ∧ g₀.Extends p.graph ∧ x < g₀.size
  refl p h := ⟨h, .refl p.graph⟩
  trans h h' hp :=
    have ⟨hp', hx⟩ := h hp
    have ⟨hp'', hx'⟩ := h' hp'
    ⟨hp'', hx.trans hx'⟩

theorem Adds.obeys_becoming (h : Adds leaf) :
    (Rules.structural own leaf).hooks.Obey (becoming τ) :=
  Rules.structural_obeys h.becomes
    (fun x ys p => (Graph.Action.construct (.withOperands x ys)).becomes p.graph)
    fun _ _ _ _ _ _ _ => trivial

theorem Adds.obeys_adding (h : Adds leaf) (hg₀ : g₀.WellFormed) :
    (Rules.structural own leaf).hooks.Obey (adding g₀ τ) := by
  apply Rules.structural_obeys
  · exact fun x p hp => ⟨((h.becomes x p).develops hp).1, h.extends_final x p hp⟩
  · intro x ys p hp
    have hgrown := (Graph.withOperands_grows x ys).changing.final hp
    exact ⟨hgrown.1, hgrown.2.toExtends⟩
  · rintro x p ⟨hp, hext, hx⟩ y hy p' hp'
    obtain ⟨hw, hext'⟩ := hp' hp
    rw [hext.operands_eq hx] at hy
    exact ⟨hw, hext.trans hext', hg₀.operands_lt_size x y hy⟩

/-! ### Depth -/

/-- Nodes of `g₀` are asked for, and the depth is never exhausted. -/
def ending (g₀ : Graph) : Contract where
  Frame := Graph.Extends
  Asks depth g x := depth ≠ 0 ∧ g₀.Extends g ∧ x < g₀.size
  Answers _ _ _ := True
  Below _ _ _ := True
  Fails e _ := e ≠ .depthExhausted
  frame_refl := .refl
  frame_of_growsTo _ h := h.toExtends
  frame_trans h h' := h.trans h'
  frame_lt_size h hx := h.lt_size hx
  answers_frame _ _ _ _ _ := trivial
  below_frame _ _ _ _ _ := trivial
  below_trans _ _ := trivial
  answers_self _ _ := trivial
  fails_outside _ _ := nofun
  fails_exhausted h := absurd rfl h.1

theorem ending_settles (x : NodeId) (r : Option NodeId) (g : Graph) :
    (ending g₀).Settles x r g :=
  ⟨fun _ _ _ => trivial, fun _ => nofun⟩

theorem Adds.quiet_meets (h : Adds leaf) (hg : g.WellFormed) :
    (Dialogue.quiet (leaf x)).Meets (ending g₀) depth x g ((ending g₀).Settles x) := by
  intro log
  have hbecomes := h.becomes x ⟨g, log⟩
  have hextends := h.extends_final x ⟨g, log⟩ hg
  have hends := h.ends x ⟨g, log⟩
  unfold Dialogue.quiet
  cases he : leaf x ⟨g, log⟩ with
  | ok r p =>
    rw [he] at hbecomes hextends
    exact ⟨(hbecomes.develops hg).1, hextends, ending_settles x r p.graph⟩
  | error e p =>
    rw [he] at hbecomes hextends hends
    exact ⟨(hbecomes.develops hg).1, hextends, fun hd => hends p (hd ▸ rfl)⟩

theorem Adds.transform_ends (h : Adds leaf) (hg₀ : g₀.WellFormed) (hg : g.WellFormed)
    (hd : depth ≠ 0) (hext : g₀.Extends g) (hx : x < g₀.size) :
    ((Rules.structural own leaf).transform x).Meets (ending g₀) depth x g
      ((ending g₀).Settles x) := by
  have hoperands : (do return some (← Dialogue.operands x) : Dialogue (Pass τ) _).Meets
      (ending g₀) depth x g ((ending g₀).Settles x) := by
    have hq : (Dialogue.operands x : Dialogue (Pass τ) NodeId).Meets (ending g₀) depth x g
        fun _ _ => True := by
      apply Dialogue.Meets.operands hg
      · intro g' _ hf y hy
        rw [hext.operands_eq hx] at hy
        exact ⟨⟨hd, hext.trans hf, hg₀.operands_lt_size x y hy⟩, fun _ => trivial⟩
      · intro ys g' hg' hf hys
        apply Graph.Meets.ite fun _ => .pure hg' trivial
        intro _
        have harity : (g'.shape x).Allows ys.length := by
          rw [← hys.length_eq, ← hf.operands_eq (hext.lt_size hx)]
          exact hg'.arity x
        have hall : ∀ y ∈ ys, y < g'.size := by
          intro y hy
          obtain ⟨x, -, h⟩ := Graph.exists_of_forall₂ hys hy
          exact h.2.1
        apply (Graph.withOperands_meets hg' hall harity).mono_error
        rintro e g'' ⟨rfl, -⟩
        exact nofun
    exact hq.bind fun y g' hg' _ _ => .pure hg' (ending_settles x (some y) g')
  simp only [Rules.structural]
  cases own x with
  | some y => exact .pure hg (ending_settles x (some y) g)
  | none =>
    apply Dialogue.Meets.graph
    cases g.shape x with
    | constant | symbol => exact h.quiet_meets hg
    | _ => exact hoperands

/-- With more depth than there are nodes a visit comes to an end. -/
theorem Adds.apply_ends (h : Adds leaf) (hg : run.pass.graph.WellFormed)
    (hidle : ∀ i, run.memo.mark? i ≠ some .inProgress)
    (hheld : run.memo.Holds (ending run.pass.graph) run.pass.graph)
    (hdepth : run.pass.graph.size < depth) (x : NodeId) (run' : Run τ) :
    (Rules.structural own leaf).apply depth x run ≠ .error .depthExhausted run' := by
  intro he
  by_cases hx : x < run.pass.graph.size
  · have hreplies := (Rules.structural own leaf).replies_deep (fun _ => rfl)
      (c := ending run.pass.graph) (n := run.pass.graph.size) (fun _ _ _ hx => hx.2.2)
      (fun _ _ _ hg' hd hx _ => h.transform_ends hg hg' hd hx.2.1 hx.2.2) depth run.memo
      (hdepth.trans_le (Nat.le_add_right ..))
    have hout := hreplies x run.pass.graph run.memo run.pass.log hg hheld (fun _ => Iff.rfl)
      ⟨Nat.ne_of_gt (Nat.zero_lt_of_lt hdepth), .refl _, hx⟩ fun i hi => absurd hi (hidle i)
    rw [show (Rules.structural own leaf).apply depth x ⟨run.memo, ⟨run.pass.graph, run.pass.log⟩⟩ =
      .error .depthExhausted run' from he] at hout
    exact hout.2.2.2.2 rfl
  · obtain ⟨depth, rfl⟩ := Nat.exists_eq_succ_of_ne_zero (Nat.ne_of_gt (Nat.zero_lt_of_lt hdepth))
    simp only [Rules.apply, Graph.contains, hx, decide_false, Bool.not_false, if_true] at he
    cases he

/-! ### Failures -/

theorem Step.failed_notMem {answer : NodeId → EStateM Error (Run τ) NodeId}
    {record : NodeId → Run τ → List Event} {z : NodeId}
    (hrecord : ∀ x run y run', answer x run = .ok y run' → .failed z ∉ record x run)
    (p : Step (Pass τ) α) (m : Memo) {a : α} {run' : Run τ} (hp : p.run answer m = .ok a run') :
    .failed z ∉ p.attempt.events answer record m := by
  induction p generalizing m with
  | done outcome => exact List.not_mem_nil
  | ask x state resume ih =>
    rw [Step.run] at hp
    cases he : answer x ⟨m, state⟩ with
    | error e run => simp only [he] at hp; cases hp
    | ok y run =>
      simp only [he] at hp
      simp only [attempt, Attempt.events, he, reply, final, List.mem_append, not_or]
      exact ⟨hrecord x _ y run he, ih y run.pass run.memo hp⟩

theorem exists_of_settle_eq_ok {r : EStateM.Result Error (Run τ) (Option NodeId)} {y : NodeId}
    {run' : Run τ} (h : settle x r = .ok y run') : ∃ o run, r = .ok o run := by
  cases r with
  | ok o run => exact ⟨o, run, rfl⟩
  | error e run => cases h

/-- Rules do not recover: where a visit gives a result, nothing has failed in it. -/
theorem Rules.failed_notMem (rules : Rules τ) {y z : NodeId} {run' : Run τ}
    (h : rules.hooks.apply depth x run = .ok y run') :
    .failed z ∉ rules.hooks.events depth x run := by
  induction depth generalizing x run y run' with
  | zero => exact List.not_mem_nil
  | succ depth ih =>
    have hquestions : ∀ x run y run', rules.hooks.apply depth x run = .ok y run' →
        .failed z ∉ rules.hooks.events depth x run := fun _ _ _ _ => ih
    have hlast : Event.ofOutcome x (rules.hooks.apply (depth + 1) x run) = .stored x y := by
      rw [h]
      rfl
    rw [Hooks.apply] at h
    rw [Hooks.events]
    cases hin : run.pass.graph.contains x with
    | false => exact List.not_mem_nil
    | true =>
      simp only [hin, Bool.not_true, Bool.false_eq_true, if_false] at h ⊢
      cases hm : run.memo.mark? x with
      | none =>
        simp only [hm, Rules.hooks, Step.attempt_run] at h
        obtain ⟨o, run₀, hr⟩ := exists_of_settle_eq_ok h
        have hrest := Step.failed_notMem hquestions _ _ hr
        simp only [List.mem_cons, List.mem_append, List.not_mem_nil, hlast, reduceCtorEq, or_false,
          false_or]
        exact hrest
      | some mark =>
        cases mark with
        | finished w => simp
        | inProgress =>
          simp only [hm, Rules.hooks, Step.attempt_run] at h
          have hrest := Step.failed_notMem hquestions _ _ h
          simp only [List.mem_cons, reduceCtorEq, false_or]
          exact hrest

theorem Hooks.Session.failed_notMem {rules : Rules τ} {R : Pass τ → Pass τ → Prop} {p₀ : Pass τ}
    {replies : List (Except Error NodeId)} (h : rules.hooks.Session R p₀ replies es run)
    (hreplies : ∀ r ∈ replies, ∃ y, r = .ok y) (z : NodeId) : .failed z ∉ es := by
  induction h with
  | fresh => exact List.not_mem_nil
  | meanwhile _ _ ih => exact ih hreplies
  | @visit replies es run _ depth x ih =>
    rw [List.mem_append, not_or]
    refine ⟨ih fun r hr => hreplies r (List.mem_append_left _ hr), ?_⟩
    obtain ⟨y, hy⟩ := hreplies (reply (rules.hooks.apply depth x run)) (by simp)
    cases he : rules.hooks.apply depth x run with
    | ok w run' => exact rules.failed_notMem he
    | error e run' =>
      rw [he] at hy
      cases hy

/-! ### Sessions -/

theorem Graph.Becomes.size_le (h : g.Becomes g') : g.size ≤ g'.size := by
  induction h with
  | refl => exact Nat.le_refl _
  | @act g' _ a ih =>
    apply ih.trans
    cases a with
    | construct c => exact (c.build_holds (Graph.intact fun _ => True).builders g').size_le
    | openLoop label => exact (Graph.openLoop_intact (fun _ => True) label g').size_le
    | closeLoop x y => exact (Graph.closeLoop_intact (S := fun _ => True) trivial y g').size_le
    | recordForm x y => exact (Graph.recordForm_intact (fun _ => True) x y g').size_le

/-- What a session by rules that go by the structure of nodes leaves behind. -/
theorem Adds.visited (h : Adds leaf) {p₀ : Pass τ} {replies : List (Except Error NodeId)}
    (hs : (Rules.structural own leaf).hooks.Session (becoming τ).Leads p₀ replies es run) :
    Visited (becoming τ) ⟨{}, p₀⟩ es run :=
  hs.visited h.obeys_becoming (fun _ _ h => h) fun _ _ => trivial

theorem Visited.holds {p₀ : Pass τ} (h : Visited (becoming τ) ⟨{}, p₀⟩ es run) :
    run.memo.Holds (ending g₀) run.pass.graph := by
  have hlt : ∀ (p : Pass τ) x, p.graph.contains x → (becoming τ).Leads p run.pass →
      x < run.pass.graph.size := by
    intro p x hx hp
    rw [Graph.contains, decide_eq_true_eq] at hx
    exact hx.trans_le (Graph.Becomes.size_le hp)
  intro x y hxy
  have hstored := h.finished_iff.1 hxy
  obtain ⟨p, hx, -, hp⟩ := h.asked _ hstored
  obtain ⟨p', hy, hp'⟩ := h.stored x y hstored
  exact ⟨hlt p x hx hp, hlt p' y hy hp', trivial⟩

theorem Graph.Reachable.of_becomes (hg : g.Reachable) (h : g.Becomes g') : g'.Reachable := by
  induction h with
  | refl => exact hg
  | act _ a ih => exact ih.act a

theorem Adds.session_ends (h : Adds leaf) {p₀ : Pass τ} (hg : p₀.graph.Reachable)
    {replies : List (Except Error NodeId)}
    (hs : (Rules.structural own leaf).hooks.Session (becoming τ).Leads p₀ replies es run)
    (hdepth : run.pass.graph.size < depth) (x : NodeId) (run' : Run τ) :
    (Rules.structural own leaf).apply depth x run ≠ .error .depthExhausted run' := by
  have hv := h.visited hs
  exact h.apply_ends (hg.of_becomes hv.leads).regular.toWellFormed hv.idle hv.holds hdepth x run'

/-- A visit enters nodes only that were there when it began. -/
theorem Adds.contains_of_entered (h : Adds leaf) (hg : run.pass.graph.WellFormed) {y : NodeId}
    (hy : .entered y ∈ (Rules.structural own leaf).hooks.events depth x run) :
    run.pass.graph.contains y := by
  by_cases hx : x < run.pass.graph.size
  · have hobey : (Rules.structural own leaf).hooks.Obey (adding run.pass.graph τ) :=
      h.obeys_adding hg
    have hv := hobey.visited depth x run ⟨hg, .refl _, hx⟩
    obtain ⟨p, -, ⟨-, -, hlt⟩, -⟩ := hv.asked _ hy
    exact decide_eq_true hlt
  · cases depth with
    | zero => exact absurd hy List.not_mem_nil
    | succ depth =>
      simp only [Hooks.events, Graph.contains, hx, decide_false, Bool.not_false, if_true,
        List.not_mem_nil] at hy

theorem Substitution.adds : Adds fun x : NodeId => (pure (some x) : EStateM Error (Pass τ) _) :=
  ⟨fun _ _ => .refl, fun _ p _ => .refl p.graph, fun _ _ _ => nofun⟩

theorem Graph.Reachable.substitute_ends (hg : g.Reachable) (s : Substitution) (x : NodeId)
    (g' : Graph) : Graph.substitute s x g ≠ .error .depthExhausted g' := by
  have hfresh : s.rules.hooks.Session (becoming Unit).Leads ⟨g, ()⟩ [] [] ⟨{}, ⟨g, ()⟩⟩ := .fresh
  rw [Substitution.rules_eq_structural] at hfresh
  have hends := Substitution.adds.session_ends hg hfresh (Nat.lt_succ_self g.size) x
  intro hsub
  rw [Graph.substitute] at hsub
  split at hsub
  · cases hsub
  · cases he : s.rules.apply g.substitutionDepth x ⟨{}, ⟨g, ()⟩⟩ with
    | ok y run =>
      rw [he] at hsub
      cases hsub
    | error e run =>
      rw [he] at hsub
      cases hsub
      exact hends run he

/-- What transforms nodes by their structure ends on every graph that programs reach, cyclic as it
may be, and whatever was visited before. A visit enters nodes only that were there when it began,
and no node is entered twice unless a visit fails. -/
theorem structural_ends :
    (∀ g : Graph, g.Reachable → ∀ s x g', Graph.substitute s x g ≠ .error .depthExhausted g') ∧
    ∀ {τ : Type} (own : NodeId → Option NodeId)
      (leaf : NodeId → EStateM Error (Pass τ) (Option NodeId)), Adds leaf →
      ∀ (p₀ : Pass τ), p₀.graph.Reachable → ∀ replies es run,
        (Rules.structural own leaf).hooks.Session (becoming τ).Leads p₀ replies es run →
          ((∀ r ∈ replies, ∃ y, r = .ok y) → ∀ x, es.count (.entered x) ≤ 1) ∧
          ∀ depth x,
            (∀ y, .entered y ∈ (Rules.structural own leaf).hooks.events depth x run →
              run.pass.graph.contains y) ∧
            (run.pass.graph.size < depth → ∀ run',
              (Rules.structural own leaf).apply depth x run ≠ .error .depthExhausted run') := by
  refine ⟨fun g hg s x g' => hg.substitute_ends s x g', ?_⟩
  intro τ own leaf hleaf p₀ hp₀ replies es run hs
  have hv := hleaf.visited hs
  have hg := (hp₀.of_becomes hv.leads).regular.toWellFormed
  refine ⟨fun hreplies x => ?_, fun depth x => ⟨fun y hy => ?_, fun hdepth run' => ?_⟩⟩
  · exact hv.passes.count_entered_le (hs.failed_notMem hreplies x)
  · exact hleaf.contains_of_entered hg hy
  · exact hleaf.session_ends hp₀ hs hdepth x run'

/-- The symbol `a` of `Graph.entwined` becomes `1`. -/
def settingOne (x : NodeId) : EStateM Error (Pass Unit) (Option NodeId) :=
  pure (some (if x = 4 then 1 else x))

theorem settingOne_adds : Adds settingOne :=
  ⟨fun _ _ => .refl, fun _ p _ => .refl p.graph, fun _ _ _ => nofun⟩

theorem structural_ends_entwined :
    let rules := Rules.structural (fun _ => none) settingOne
    ∃ es run, rules.hooks.Session (becoming Unit).Leads ⟨Graph.entwined, ()⟩ [.ok 7, .ok 3] es run ∧
      es = [.entered 2, .entered 3, .met 2, .stored 3 3, .entered 4, .stored 4 1, .stored 2 7,
        .recalled 3 3] ∧
      (∀ x, es.count (.entered x) ≤ 1) ∧
      ∀ run', rules.apply 9 7 run ≠ .error .depthExhausted run' := by
  intro rules
  have hfresh : rules.hooks.Session (becoming Unit).Leads ⟨Graph.entwined, ()⟩ [] []
    ⟨{}, ⟨Graph.entwined, ()⟩⟩ := .fresh
  have h := (hfresh.visit 8 2).visit 8 3
  obtain ⟨hcount, hvisits⟩ := structural_ends.2 _ _ settingOne_adds ⟨Graph.entwined, ()⟩
    Graph.entwined_reachable _ _ _ h
  have hreplies : [] ++ [reply (rules.hooks.apply 8 2 ⟨{}, ⟨Graph.entwined, ()⟩⟩)] ++
      [reply (rules.hooks.apply 8 3 (final (rules.hooks.apply 8 2 ⟨{}, ⟨Graph.entwined, ()⟩⟩)))] =
      [.ok 7, .ok 3] := by cbv
  have hes : [] ++ rules.hooks.events 8 2 ⟨{}, ⟨Graph.entwined, ()⟩⟩ ++
      rules.hooks.events 8 3 (final (rules.hooks.apply 8 2 ⟨{}, ⟨Graph.entwined, ()⟩⟩)) =
      [.entered 2, .entered 3, .met 2, .stored 3 3, .entered 4, .stored 4 1, .stored 2 7,
        .recalled 3 3] := by cbv
  rw [hreplies] at h hcount
  refine ⟨_, _, h, hes, hcount ?_, (hvisits 9 7).2 ?_⟩
  · simp
  · cbv

end ExactAlgebra
