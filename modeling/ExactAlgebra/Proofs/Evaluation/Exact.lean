import ExactAlgebra.Proofs.Collection.Constants
import ExactAlgebra.Proofs.Evaluation.Power
import ExactAlgebra.Proofs.Transform.Substitution
import ExactAlgebra.Proofs.Workspace.Evaluate

/-!
Evaluation without symbols is exact arithmetic: an expression that has an exact value is evaluated
to the constant with that value.
-/

namespace ExactAlgebra.Evaluation

open ExactAlgebra.Graph (Overflow)

variable {library : Library} {strict : Prop} {g g' : Graph} {depth : Nat} {x y z : NodeId}
variable {v w : Rat} {xs ys : List NodeId} {vs : List Rat}

/--
Nodes with exact values are answered by constants. If the contract is strict, only such nodes are
asked for, and nothing fails but for want of room.
-/
def computes (library : Library) (strict : Prop) : Contract where
  Frame := Graph.Evolves
  Asks depth g x := strict → ∃ v, g.valueWithin? (.exact library) [] depth x = some v
  Answers g x y := ∀ v, g.Denotes (.exact library) [] x v → g.plainValue? y = some v
  Below g z x := ∀ v, g.Denotes (.exact library) [] z v →
    x < z ∧ ∃ w, g.Denotes (.exact library) [] x w
  Fails e g := strict → Overflow e g
  frame_refl := .refl
  frame_of_growsTo _ h := h.evolves
  frame_trans h h' := h.trans h'
  frame_lt_size h hx := h.lt_size hx
  answers_frame hg hf hx _ h v hv :=
    Graph.plainValue?_evolves (h v ((hf.denotes_iff (fun _ => rfl) hg hx).1 hv)) hf
  below_frame hg hf hz hx h v hv := by
    obtain ⟨hlt, w, hw⟩ := h v ((hf.denotes_iff (fun _ => rfl) hg hz).1 hv)
    exact ⟨hlt, w, (hf.denotes_iff (fun _ => rfl) hg hx).2 hw⟩
  below_trans h h' v hv := by
    obtain ⟨hlt, w, hw⟩ := h v hv
    obtain ⟨hlt', hw'⟩ := h' w hw
    exact ⟨hlt'.trans hlt, hw'⟩
  answers_self _ h v hv := absurd (h v hv).1 (Nat.lt_irrefl _)
  fails_outside h hx hs := absurd (Graph.lt_size_of_valueWithin? (h hs).choose_spec) hx
  fails_exhausted h hs := by cases (h hs).choose_spec

abbrev Computes (library : Library) (strict : Prop) (depth : Nat) (z : NodeId) {α : Type}
    (m : Evaluating α) (g : Graph) (Q : α → Graph → Prop) : Prop :=
  m.Meets (computes library strict) depth z g Q

/-- What has to be known of an operand of `z` to ask for it. -/
structure Ready (library : Library) (strict : Prop) (depth : Nat) (z : NodeId) (g : Graph)
    (x : NodeId) (v : Rat) : Prop where
  denotes : g.Denotes (.exact library) [] x v
  depth_suffices : strict → g.valueWithin? (.exact library) [] depth x = some v
  lt : x < z

theorem Ready.evolves (h : Ready library strict depth z g x v) (hg : g.WellFormed)
    (hx : g.Evolves g') : Ready library strict depth z g' x v := by
  have hlt := h.denotes.lt_size
  refine ⟨(hx.denotes_iff (fun _ => rfl) hg hlt).2 h.denotes, fun hs => ?_, h.lt⟩
  rw [hx.valueWithin?_eq (fun _ => rfl) hg hlt]
  exact h.depth_suffices hs

theorem build_computes {α : Type} {m : Build α} {Q : α → Graph → Prop}
    (h : Graph.Meets Overflow m g Q) : Computes library strict depth z (Dialogue.build m) g Q :=
  .build (h.mono_error fun _ _ he _ => he)

theorem ask_computes (hg : g.WellFormed) (h : Ready library strict depth z g x v) :
    Computes library strict depth z (Dialogue.ask x) g fun y g' => g'.plainValue? y = some v := by
  have hask : Computes library strict depth z (Dialogue.ask x) g _ :=
    Dialogue.Meets.ask hg (fun hs => ⟨v, h.depth_suffices hs⟩)
      fun _ _ _ => ⟨h.lt, v, h.denotes⟩
  apply hask.mono
  intro y g' _ hx hy
  exact hy.2.2 v ((Graph.Evolves.denotes_iff hx (fun _ => rfl) hg h.denotes.lt_size).2 h.denotes)

theorem askAll_computes (hg : g.WellFormed)
    (h : List.Forall₂ (Ready library strict depth z g) xs vs) :
    Computes library strict depth z (Dialogue.askAll xs) g fun ys g' => g'.Constants ys vs := by
  induction xs generalizing g vs with
  | nil =>
    obtain rfl := List.forall₂_nil_left_iff.1 h
    exact .pure hg .nil
  | cons x xs ih =>
    obtain ⟨v, vs, hv, hvs, rfl⟩ := List.forall₂_cons_left_iff.1 h
    apply (ask_computes hg hv).bind
    intro y g' hg' hx hy
    apply (ih hg' (hvs.imp fun _ _ hw => hw.evolves hg hx)).bind
    intro ys g'' hg'' hx' hys
    exact .pure hg'' (.cons (Graph.plainValue?_evolves hy hx') hys)

/-! ### Operators -/

theorem boolean_plainValue? (hg : g.WellFormed) (b : Bool) :
    g.plainValue? (Graph.boolean b) = some (truth b) := by
  cases b with
  | false => exact hg.plainValue?_zero
  | true => exact hg.plainValue?_one

/-- Between constants, every operator with a value has an outcome. -/
theorem binaryOutcome?_constants {op : Operator} {p : Rat} (hp : op.value? [v, w] = some p)
    (x y : NodeId) : ∃ b, binaryOutcome? op x y (some v) (some w) = some b ∧ p = truth b := by
  cases op with
  | conjunction =>
    refine ⟨decide (v ≠ 0 ∧ w ≠ 0), ?_, (Option.some.inj hp).symm⟩
    by_cases hv : v = 0 <;> by_cases hw : w = 0 <;>
      simp [binaryOutcome?, compareValues?, decide?, isFalse, isTrue, hv, hw]
  | disjunction =>
    refine ⟨decide (v ≠ 0 ∨ w ≠ 0), ?_, (Option.some.inj hp).symm⟩
    by_cases hv : v = 0 <;> by_cases hw : w = 0 <;>
      simp [binaryOutcome?, compareValues?, decide?, isFalse, isTrue, hv, hw]
  | equal | notEqual | less | lessEqual | greater | greaterEqual =>
    exact ⟨_, rfl, (Option.some.inj hp).symm⟩
  | _ => cases hp

theorem binary_computes {op : Operator} {p : Rat} (hg : g.WellFormed)
    (hx : Ready library strict depth z g x v) (hy : Ready library strict depth z g y w)
    (hp : op.value? [v, w] = some p) :
    Computes library strict depth z (binary op x y) g fun r g' => g'.plainValue? r = some p := by
  apply (ask_computes hg hx).bind
  intro l g₁ hg₁ hext₁ hl
  apply (ask_computes hg₁ (hy.evolves hg hext₁)).bind
  intro r g₂ hg₂ hext₂ hr
  have hl := Graph.plainValue?_evolves hl hext₂
  have hop : op ≠ .substitution := by
    rintro rfl
    cases hp
  obtain ⟨b, hb, rfl⟩ := binaryOutcome?_constants hp l r
  rw [if_neg hop]
  apply Dialogue.Meets.graph
  rw [Graph.value?_of_plainValue? hl, Graph.value?_of_plainValue? hr, hb]
  exact .pure hg₂ (boolean_plainValue? hg₂ b)

theorem unary_computes {op : Operator} {p : Rat} (hg : g.WellFormed)
    (hx : Ready library strict depth z g x v) (hp : op.value? [v] = some p) :
    Computes library strict depth z (unary op x) g fun r g' => g'.plainValue? r = some p := by
  apply (ask_computes hg hx).bind
  intro l g₁ hg₁ _ hl
  have hv := Graph.value?_of_plainValue? hl
  cases op with
  | negation =>
    cases hp
    apply Dialogue.Meets.graph
    rw [hv]
    exact .pure hg₁ (boolean_plainValue? hg₁ _)
  | _ => cases hp

/-! ### Powers -/

theorem foldPower_plain (hg : g.WellFormed) (hx : g.plainValue? x = some v)
    (hy : g.plainValue? y = some w) {p : Rat} (hp : exactPower? v w = some p) :
    Graph.Meets Overflow (foldPower x y) g fun r g' => g'.plainValue? r = some p := by
  have hv := Graph.value?_of_plainValue? hx
  have hw := Graph.value?_of_plainValue? hy
  unfold exactPower? at hp
  rw [foldPower_eq]
  apply Graph.Meets.get
  simp only [hv, hw, Option.some.injEq]
  apply Graph.Meets.ite
  · intro h0
    rw [if_pos h0] at hp
    cases hp
    exact .pure hg hg.plainValue?_zero
  intro h0
  rw [if_neg h0] at hp
  apply Graph.Meets.ite
  · intro h1
    rw [if_pos h1] at hp
    cases hp
    exact .pure hg hg.plainValue?_one
  intro h1
  rw [if_neg h1] at hp
  apply Graph.Meets.ite
  · intro h2
    rw [if_pos h2] at hp
    cases hp
    exact .pure hg hg.plainValue?_one
  intro h2
  rw [if_neg h2] at hp
  apply Graph.Meets.ite
  · intro h3
    rw [if_pos h3] at hp
    cases hp
    exact .pure hg hx
  intro h3
  rw [if_neg h3] at hp
  have hq : foldedPower? (some v) (some w) = some p := hp
  rw [hq]
  exact Graph.constant_plainValue? hg p

theorem power_computes (hg : g.WellFormed) (hx : Ready library strict depth z g x v)
    (hy : Ready library strict depth z g y w) {p : Rat} (hp : exactPower? v w = some p) :
    Computes library strict depth z (power x y) g fun r g' => g'.plainValue? r = some p := by
  apply (ask_computes hg hx).bind
  intro l g₁ hg₁ hext₁ hl
  apply Dialogue.Meets.graph
  rw [if_neg (by rw [Graph.isOpenProduct_of_plainValue? hl]; decide)]
  apply (ask_computes hg₁ (hy.evolves hg hext₁)).bind
  intro r g₂ hg₂ hext₂ hr
  have hopen : (g₁.node l).isOpenPower = false := Bool.eq_false_iff.2 fun ho =>
    Graph.shape_ne_of_plainValue? hl rfl (Graph.isOpenPower_iff.1 ho).1
  rw [hopen]
  exact build_computes (foldPower_plain hg₂ (Graph.plainValue?_evolves hl hext₂) hr hp)

/-! ### Calls -/

theorem values?_constants (h : g.Constants xs vs) : values? g xs = some vs :=
  Graph.mapM_eq_some.2 (h.imp fun _ _ hv => Graph.value?_of_plainValue? hv)

theorem lt_size_of_constants (h : g.Constants xs vs) : ∀ x ∈ xs, x < g.size := by
  intro x hx
  obtain ⟨i, hi, rfl⟩ := List.getElem_of_mem hx
  exact (Graph.plainValue?_eq_some.1 (h.get hi (h.length_eq ▸ hi))).1

theorem call_computes {f : Callee} {p : Rat} (hg : g.WellFormed)
    (hxs : List.Forall₂ (Ready library strict depth z g) xs vs)
    (hp : library.result? f vs = some p) :
    Computes library strict depth z (call library f xs) g fun r g' =>
      g'.plainValue? r = some p := by
  obtain ⟨fn, hf, ha⟩ := Library.result?_eq_some hp
  apply (askAll_computes hg hxs).bind
  intro ys g₁ hg₁ _ hys
  apply (build_computes (Graph.call_meets hg₁ f (lt_size_of_constants hys))).bind
  intro u g₂ hg₂ hext₂ _
  have hinvoke : Computes library strict depth z (invoke f (library f) ys) g₂ fun reply g' =>
      ∃ r, reply = .value r ∧ g'.plainValue? r = some p := by
    apply Dialogue.Meets.graph
    rw [hf]
    simp only [values?_constants (hys.evolves hext₂), if_true, ha]
    apply Dialogue.Meets.updateLog
    apply build_computes
    apply (Graph.constant_plainValue? hg₂ p).bind
    intro r g' hg' _ hr
    exact .pure hg' ⟨r, rfl, hr⟩
  apply hinvoke.bind
  rintro reply g₃ hg₃ - ⟨r, rfl, hr⟩
  exact .pure hg₃ hr

/-! ### All rules -/

theorem ready_operands (hg : g.WellFormed) (hx : g.Denotes (.exact library) [] x v)
    (hd : strict → g.valueWithin? (.exact library) [] (depth + 1) x = some v) :
    g.isLoop x = false ∧
      ∃ vs, List.Forall₂ (Ready library strict depth x g) (g.operands x) vs ∧
        Semantics.combine (.exact library) (g.shape x) vs = some v := by
  obtain ⟨hl, vs, hvs, hv⟩ := hx.operands
  have hlt := hg.operands_lt x hl
  refine ⟨hl, vs, ?_, hv⟩
  apply List.forall₂_iff_get.2
  refine ⟨hvs.length_eq, fun i hi hi' =>
    ⟨hvs.get hi hi', fun hs => ?_, hlt _ (List.getElem_mem hi)⟩⟩
  obtain ⟨-, ws, hws, -⟩ := Graph.valueWithin?_operands (hd hs)
  have hw := hws.get hi (hws.length_eq ▸ hi)
  rw [(hvs.get hi hi').unique ⟨_, hw⟩]
  exact hw

theorem byShape_computes (hg : g.WellFormed) (hx : g.Denotes (.exact library) [] x v)
    (hd : strict → g.valueWithin? (.exact library) [] (depth + 1) x = some v) :
    Computes library strict depth x (byShape library x) g fun r g' =>
      g'.plainValue? r = some v := by
  obtain ⟨hl, vs, hvs, hv⟩ := ready_operands hg hx hd
  apply Dialogue.Meets.graph
  cases hs : g.shape x with
  | constant q =>
    rw [hs] at hv
    cases hv
    exact .pure hg (Graph.plainValue?_eq_some.2 ⟨hx.lt_size, hl, Graph.value?_eq_some.2 hs⟩)
  | symbol name =>
    rw [hs] at hv
    cases hv
  | sum =>
    rw [hs] at hv
    cases hv
    apply (askAll_computes hg hvs).bind
    intro ys g' hg' _ hys
    exact build_computes (Graph.combineTerms_plain hg' hys)
  | product =>
    rw [hs] at hv
    cases hv
    apply (askAll_computes hg hvs).bind
    intro ys g' hg' _ hys
    exact build_computes (Graph.combineFactors_plain hg' hys)
  | power =>
    rw [hs] at hv
    obtain ⟨b, e, rfl, hp⟩ := Semantics.combine_power_eq_some.1 hv
    obtain ⟨l, r, hops, hl, hr⟩ := Graph.forall₂_pair_right hvs
    rw [hops]
    exact power_computes hg hl hr hp
  | binary op =>
    rw [hs] at hv
    obtain ⟨b, e, rfl, hp⟩ := Semantics.combine_binary_eq_some.1 hv
    obtain ⟨l, r, hops, hl, hr⟩ := Graph.forall₂_pair_right hvs
    rw [hops]
    exact binary_computes hg hl hr hp
  | unary op =>
    rw [hs] at hv
    obtain ⟨b, rfl, hp⟩ := Semantics.combine_unary_eq_some.1 hv
    obtain ⟨l, hops, hl⟩ := Graph.forall₂_singleton_right hvs
    rw [hops]
    exact unary_computes hg hl hp
  | call f =>
    rw [hs] at hv
    exact call_computes hg hvs hv
  | set | arrow =>
    rw [hs] at hv
    cases hv

theorem rules_compute (hg : g.WellFormed) (hx : g.Denotes (.exact library) [] x v)
    (hd : strict → g.valueWithin? (.exact library) [] (depth + 1) x = some v) :
    Computes library strict depth x ((rules library).transform x) g
      ((computes library strict).Settles x) := by
  apply Dialogue.Meets.graph
  apply Dialogue.Meets.ite
  · intro hl
    rw [hx.operands.1] at hl
    cases hl
  · intro _
    apply (byShape_computes hg hx hd).bind
    intro y g' hg' hext hy
    apply Dialogue.Meets.pure hg'
    apply (computes library strict).settles_of_answers (Graph.plainValue?_eq_some.1 hy).1
    intro w hw
    rwa [((Graph.Evolves.denotes_iff hext (fun _ => rfl) hg hx.lt_size).1 hw).unique hx]

/-- A node with an exact value is evaluated to the constant with that value. -/
theorem evaluateIn_computes (library : Library) (depth : Nat) :
    Replies (computes library True) depth (evaluateIn library depth) := by
  apply Rules.replies (rules library) (fun _ => rfl)
  intro depth x g hg hx _
  obtain ⟨v, hv⟩ := hx trivial
  exact rules_compute hg ⟨_, hv⟩ fun _ => hv

theorem byShape_constant (hx : g.plainValue? x = some v) (log : Journal) :
    byShape library x ⟨g, log⟩ = .done (.ok x ⟨g, log⟩) := by
  have hs := Graph.value?_eq_some.1 (Graph.value?_of_plainValue? hx)
  simp only [byShape, bind, Dialogue.graph, Step.bind, hs]
  rfl

theorem transform_constant (hx : g.plainValue? x = some v) (log : Journal) :
    (rules library).transform x ⟨g, log⟩ = .done (.ok (some x) ⟨g, log⟩) := by
  have hl : ¬ g.isLoop x = true := by
    rw [(Graph.plainValue?_eq_some.1 hx).2.1]
    decide
  have hrule : (rules library).transform x ⟨g, log⟩ =
      (if g.isLoop x = true then do return some (← selfReferential library x)
        else do return some (← byShape library x) : Evaluating (Option NodeId)) ⟨g, log⟩ := rfl
  rw [hrule, if_neg hl]
  exact congrArg (Step.bind · _) (byShape_constant hx log)

/-- Constants are left as they are. -/
theorem evaluateIn_constant (library : Library) (depth : Nat) (hx : g.plainValue? x = some v)
    {m : Memo} (log : Journal) (hm : ∀ j, m.mark? x = some j → j = .finished x) :
    ∃ m', evaluateIn library (depth + 1) x ⟨m, ⟨g, log⟩⟩ = .ok x ⟨m', ⟨g, log⟩⟩ ∧
      (m' = m ∨ m' = (m.enter x).store x x) := by
  have hc : g.contains x = true := decide_eq_true (Graph.plainValue?_eq_some.1 hx).1
  simp only [evaluateIn, Rules.apply, hc, Bool.not_true, Bool.false_eq_true, if_false]
  cases hx' : m.mark? x with
  | none =>
    simp only [transform_constant hx, Step.run, settle, hc, if_true]
    exact ⟨_, rfl, .inr rfl⟩
  | some j =>
    obtain rfl := hm j hx'
    exact ⟨m, rfl, .inl rfl⟩

end ExactAlgebra.Evaluation

namespace ExactAlgebra.Workspace

variable {library : Library} {ws : Workspace} {k depth : Nat} {s : Substitution} {x : NodeId}
variable {v : Rat}

/-- Pairs of nodes of graph `k`, as pairs of expressions. -/
def bindings (k : Nat) (s : Substitution) : List (Handle × Handle) :=
  s.map fun r => (.node k r.1, .node k r.2)

theorem substitutionIn_bindings (k : Nat) (s : Substitution) (ws : Workspace) :
    substitutionIn k (bindings k s) ws = .ok s ws := by
  rw [substitutionIn, bindings, List.mapM_map]
  refine (mapM_eq_ok (h := fun r => r) s fun r _ => ?_).trans (by rw [List.map_id'])
  have hr : together (.node k r.1) (.node k r.2) ws = .ok (k, r.1, r.2) ws := by
    rw [together, if_pos rfl]
    rfl
  simp only [Function.comp_apply, bind, EStateM.bind, hr, if_true]
  rfl

theorem substitute_bindings (k : Nat) (s : Substitution) (x : NodeId) (ws : Workspace) :
    substitute (.node k x) (bindings k s) ws =
      match Graph.substitute s x (ws.graph k) with
      | .ok y g => .ok (.node k y) (ws.setGraph k g)
      | .error e g => .error e (ws.setGraph k g) := by
  cases s with
  | nil =>
    have hself : Graph.substitute [] x (ws.graph k) = .ok x (ws.graph k) := rfl
    rw [hself]
    simp only [setGraph_self]
    rfl
  | cons r s =>
    have hmake : substitute (.node k x) (bindings k (r :: s)) ws =
        (substitutionIn k (bindings k (r :: s)) >>= fun s => make k (Graph.substitute s x)) ws :=
      rfl
    rw [hmake]
    simp only [bind, EStateM.bind, substitutionIn_bindings, make, within_eq]
    cases Graph.substitute (r :: s) x (ws.graph k) <;> rfl

/--
At a point that gives each symbol of an expression a constant, an expression with an exact value
evaluates to the constant with that value, if there is room for the nodes that are built.
-/
theorem evaluateBound_exact (hk : k < ws.graphs.size) (hg : (ws.graph k).WellFormed)
    (hv : (ws.graph k).Denotes (.exact library) s x v) (hd : x < depth) :
    match evaluateBound library depth (.node k x) (bindings k s) ws with
    | .ok (h, _) ws' => ∃ y, h = .node k y ∧ (ws'.graph k).plainValue? y = some v
    | .error e ws' => e = .graphFull ∧ Graph.capacity ≤ (ws'.graph k).size := by
  have hsubst := Graph.substitute_valueWithin? exactPower?_one (fun _ => rfl) hg hv
  rw [Graph.Meets] at hsubst
  simp only [evaluateBound, bind, EStateM.bind, substitute_bindings]
  cases he : Graph.substitute s x (ws.graph k) with
  | error e g =>
    rw [he] at hsubst
    simp only [graph_setGraph hk]
    exact hsubst.2.2
  | ok y g =>
    rw [he] at hsubst
    obtain ⟨hg', -, hy⟩ := hsubst
    have hrun := Evaluation.evaluateIn_computes library depth y g {}
      ⟨#[], ws.invocations⟩ hg' (Memo.holds_empty _ _)
      (fun _ => ⟨v, Graph.valueWithin?_mono hy hd⟩) (Memo.leads_empty _ _ _)
    have hstart : (ws.setGraph k g).startRun k = ⟨{}, ⟨g, ⟨#[], ws.invocations⟩⟩⟩ := by
      rw [startRun, Transforming.start, graph_setGraph hk]
      rfl
    have hk' : k < (ws.setGraph k g).graphs.size := by rwa [size_setGraph]
    simp only [evaluateFaults_eq]
    rw [← hstart] at hrun
    cases hr : evaluateIn library depth y ((ws.setGraph k g).startRun k) with
    | error e run =>
      rw [hr] at hrun
      simp only [graph_afterRun hk']
      exact hrun.2.2.2.2 trivial
    | ok r run =>
      rw [hr] at hrun
      obtain ⟨-, hext, -, -, -, -, hr⟩ := hrun
      refine ⟨r, rfl, ?_⟩
      rw [graph_afterRun hk']
      have hlt := Graph.lt_size_of_valueWithin? hy
      exact hr v ((Graph.Evolves.denotes_iff hext (fun _ => rfl) hg' hlt).2 ⟨_, hy⟩)

/-- With `x` bound to `1`, the value of `x + x` is `2`. -/
theorem evaluateBound_doubled :
    match evaluateBound .silent 9 (.node 0 3) (bindings 0 [(2, 1)])
      { graphs := #[Graph.doubled] } with
    | .ok (h, _) ws' => ∃ y, h = .node 0 y ∧ (ws'.graph 0).plainValue? y = some (2 * 1)
    | .error e ws' => e = .graphFull ∧ Graph.capacity ≤ (ws'.graph 0).size := by
  have hg : (Workspace.graph { graphs := #[Graph.doubled] } 0).WellFormed :=
    Graph.doubled_wellFormed
  exact evaluateBound_exact (by decide) hg (Graph.doubled_denotes rfl rfl) (by decide)

end ExactAlgebra.Workspace
