import ExactAlgebra.Proofs.Transform.Freedom
import ExactAlgebra.Proofs.Transform.Recursion

/-!
A memo makes no difference to the transformation of elementary expressions: whatever was transformed
before, the outcome is that of plain recursion, if that comes to an end.

What a memo remembers of an elementary expression is what plain recursion leads to in every later
graph. A node that is being transformed needs the nodes that are asked for; so an expression that is
met inside its own transformation needs itself, and plain recursion on it has no end.
-/

namespace ExactAlgebra

open ExactAlgebra.Graph (Vocabulary)

variable {τ α : Type}

/-- Rules that let graphs develop, and that two runs follow alike on expressions whose calls go to
functions in `C`. -/
structure Rules.Uniform (C : Callee → Prop) (rules : Rules τ) : Prop where
  onCycle : ∀ x, rules.onCycle x = pure x
  wanders : ∀ x, Wanders developing (rules.transform x)
  follows : ∀ (V : Vocabulary) (t? : Option Graph) (g : Graph) (x : NodeId),
    (∀ f, V.callees f → C f) → g.WellFormed → g.Elementary V x →
      (rules.transform x).Follows V t? g fun o g' => ∃ y, o = some y ∧ g'.Elementary V y

/-- `y` is elementary where `x` is, and `K` holds of every graph in which `x` is elementary. -/
def Persists (C : Callee → Prop) (g : Graph) (x y : NodeId) (K : Graph → Prop) : Prop :=
  ∀ (V : Vocabulary) (t : Graph), (∀ f, V.callees f → C f) → t.WellFormed → g.Retains V t →
    g.Elementary V x → g.Elementary V y ∧ K t

variable {C : Callee → Prop} {g g' g₀ : Graph} {x y z : NodeId} {K : Graph → Prop}
variable {rules : Rules τ} {m m' : Memo} {depth : Nat} {Q : α → Graph → Prop}

/-- Between two graphs some symbols may be closed; the others are a vocabulary that is retained. -/
theorem Persists.develops (h : Persists C g x y K) (hg : g.WellFormed) (hx : x < g.size)
    (hd : g.Develops g') : Persists C g' x y K := by
  intro V t hV ht hr hxe
  have hopen : g.Retains (V.openIn g') g' := hd.retains_openIn V
  have hx' : g.Elementary (V.openIn g') x := hd.elementary_of hg hxe.openIn hx
  obtain ⟨hy, hK⟩ := h (V.openIn g') t hV ht (hopen.trans (hr.openIn g')) hx'
  exact ⟨(hopen.elementary hy).of_openIn, hK⟩

/-- `y` is what plain recursion leads to from `x`, if it comes to an end. -/
def Faithful (rules : Rules τ) (C : Callee → Prop) (g : Graph) (x y : NodeId) : Prop :=
  Persists C g x y fun t => ∀ n log, Exhausted (rules.recurse n x ⟨t, log⟩) ∨
    ∃ log', rules.recurse n x ⟨t, log⟩ = .ok y ⟨t, log'⟩

/-- Plain recursion on `z` comes to an end only where plain recursion on `x` does so earlier. -/
def Needs (rules : Rules τ) (C : Callee → Prop) (g : Graph) (z x : NodeId) : Prop :=
  Persists C g z x fun t => ∀ n log, ¬ Exhausted (rules.recurse n z ⟨t, log⟩) →
    ∃ k < n, ∃ log', ¬ Exhausted (rules.recurse k x ⟨t, log'⟩)

theorem Needs.trans (h : Needs rules C g x y) (h' : Needs rules C g y z) :
    Needs rules C g x z := by
  intro V t hV ht hr hx
  obtain ⟨hy, hxy⟩ := h V t hV ht hr hx
  obtain ⟨hz, hyz⟩ := h' V t hV ht hr hy
  refine ⟨hz, fun n log hn => ?_⟩
  obtain ⟨k, hk, log', hfin⟩ := hxy n log hn
  obtain ⟨j, hj, hfin'⟩ := hyz k log' hfin
  exact ⟨j, hj.trans hk, hfin'⟩

/-- There is no end to what needs itself. -/
theorem Needs.faithful (h : Needs rules C g x x) : Faithful rules C g x x := by
  intro V t hV ht hr hx
  have hneeds := (h V t hV ht hr hx).2
  refine ⟨hx, fun n log => .inl ?_⟩
  induction n using Nat.strong_induction_on generalizing log with
  | _ n ih =>
    by_contra hn
    obtain ⟨k, hk, log', hfin⟩ := hneeds n log hn
    exact hfin (ih k hk log')

/-- What a memo remembers is faithful, and what is being transformed needs what is asked for. -/
def remembering (rules : Rules τ) (C : Callee → Prop) : Contract where
  Frame := Graph.Develops
  Asks _ _ _ := True
  Answers := Faithful rules C
  Below := Needs rules C
  Fails _ _ := True
  frame_refl := .refl
  frame_of_growsTo _ h := h.develops
  frame_trans h h' := h.trans h'
  frame_lt_size h hx := h.lt_size hx
  answers_frame hg hd hx _ h := Persists.develops h hg hx hd
  below_frame hg hd hx _ h := Persists.develops h hg hx hd
  below_trans h h' := h.trans h'
  answers_self _ h := h.faithful
  fails_outside _ _ := trivial
  fails_exhausted _ := trivial

/-! ### Runs -/

/-- What every run leaves behind. -/
structure Leaves (rules : Rules τ) (C : Callee → Prop) (g : Graph) (m : Memo) (run : Run τ) :
    Prop where
  wellFormed : run.pass.graph.WellFormed
  develops : g.Develops run.pass.graph
  holds : run.memo.Holds (remembering rules C) run.pass.graph
  marks : ∀ i, run.memo.mark? i = some .inProgress ↔ m.mark? i = some .inProgress

theorem Leaves.frame {run : Run τ} (h : Leaves rules C g' m' run) (hd : g.Develops g')
    (hm : ∀ i, m'.mark? i = some .inProgress ↔ m.mark? i = some .inProgress) :
    Leaves rules C g m run :=
  ⟨h.wellFormed, hd.trans h.develops, h.holds, fun i => (h.marks i).trans (hm i)⟩

/-- Plain recursion comes to the same as a run that went `depth` deep, or goes deeper. -/
def SameOutcome (depth n : Nat) (r : EStateM.Result Error (Run τ) α)
    (q : EStateM.Result Error (Pass τ) α) : Prop :=
  Exhausted q ∨
    match r with
    | .ok a run => ∃ log, q = .ok a ⟨run.pass.graph, log⟩
    | .error e run => (e = .depthExhausted ∧ depth < n) ∨ ∃ log, q = .error e ⟨run.pass.graph, log⟩

/-- What a run does for one node, at most `depth` deep. -/
structure Transforms (rules : Rules τ) (C : Callee → Prop) (depth : Nat) (x : NodeId) (g : Graph)
    (m : Memo) (r : EStateM.Result Error (Run τ) NodeId) : Prop where
  leaves : Leaves rules C g m (final r)
  faithful : ∀ y run, r = .ok y run →
    x < run.pass.graph.size ∧ y < run.pass.graph.size ∧ Faithful rules C run.pass.graph x y
  extends_of : ∀ V : Vocabulary, (∀ f, V.callees f → C f) → g.Elementary V x →
    g.Extends (final r).pass.graph
  same : ∀ V : Vocabulary, (∀ f, V.callees f → C f) → g.Elementary V x → ∀ n log,
    SameOutcome depth n r (rules.recurse n x ⟨g, log⟩)

/-- What a memo may be asked for. -/
def Answering (rules : Rules τ) (C : Callee → Prop) (depth : Nat)
    (answer : NodeId → EStateM Error (Run τ) NodeId) : Prop :=
  ∀ x g m log, g.WellFormed → m.Holds (remembering rules C) g →
    m.Leads (remembering rules C) g x →
    Transforms rules C depth x g m (answer x ⟨m, ⟨g, log⟩⟩)

/-- Plain recursion on `z`, from `g₀` or from a later graph, has come to a step that goes on like
`p`. -/
def Traces (rules : Rules τ) (C : Callee → Prop) (z : NodeId) (g₀ g : Graph)
    (p : Step (Pass τ) (Option NodeId)) : Prop :=
  ∀ (V : Vocabulary) (t? : Option Graph), (∀ f, V.callees f → C f) → g.Elementary V z →
    Later V t? g → ∀ n log, ∃ q,
      p.Follows V t? g (fun o g' => ∃ y, o = some y ∧ g'.Elementary V y) q ∧
        (Exhausted (rules.recurse (n + 1) z ⟨t?.getD g₀, log⟩) ∨
          rules.recurse (n + 1) z ⟨t?.getD g₀, log⟩ = locate (q.recurse (rules.recurse n)))

theorem Exhausted.locate {r : EStateM.Result Error (Pass τ) (Option NodeId)} (h : Exhausted r) :
    Exhausted (locate r) := by
  obtain ⟨s, rfl⟩ := h
  exact ⟨s, rfl⟩

theorem Step.recurse_ask {answer : NodeId → EStateM Error (Pass τ) NodeId} {p p' : Pass τ}
    {resume : NodeId → Pass τ → Step (Pass τ) α} (h : answer x p = .ok y p') :
    (Step.ask x p resume).recurse answer = (resume y p').recurse answer := by
  rw [Step.recurse, h]

theorem Exhausted.recurse_ask {answer : NodeId → EStateM Error (Pass τ) NodeId} {p : Pass τ}
    (h : Exhausted (answer x p)) (resume : NodeId → Pass τ → Step (Pass τ) α) :
    Exhausted ((Step.ask x p resume).recurse answer) := by
  obtain ⟨s, hs⟩ := h
  exact ⟨s, by rw [Step.recurse, hs]⟩

namespace Traces

variable {p : Pass τ} {resume : NodeId → Pass τ → Step (Pass τ) (Option NodeId)} {V : Vocabulary}

theorem asks (h : Traces rules C z g₀ g (.ask x p resume)) (hV : ∀ f, V.callees f → C f)
    (hz : g.Elementary V z) : g.Extends p.graph ∧ p.graph.Elementary V x := by
  obtain ⟨q, hq, -⟩ := h V none hV hz later_none 0 p.log
  exact ⟨hq.2.1, hq.2.2.1⟩

theorem needs (h : Traces rules C z g₀ g (.ask x p resume)) (hg : g.WellFormed) (hz : z < g.size)
    (hd : g.Develops p.graph) : Needs rules C p.graph z x := by
  intro V t hV ht hr hze
  have hze' := hd.elementary_of hg hze hz
  obtain ⟨hx, hxe⟩ := h.asks hV hze'
  refine ⟨hxe, fun n log hfin => ?_⟩
  cases n with
  | zero => exact absurd ⟨_, rfl⟩ hfin
  | succ n =>
    have hlater : Later V (some t) p.graph := by
      rintro _ ⟨⟩
      exact ⟨ht, hr⟩
    obtain ⟨q, ⟨-, -, -, resume', hq, -⟩, hR⟩ :=
      h V (some t) hV hze' (hlater.of_extends hx) n log
    obtain ⟨log', rfl⟩ := hq hlater
    refine ⟨n, Nat.lt_succ_self n, log', fun hx' => hfin ?_⟩
    rcases hR with hR | hR
    · exact hR
    · rw [Option.getD_some] at hR
      rw [hR]
      exact (hx'.recurse_ask resume').locate

theorem resumes {run : Run τ} (h : Traces rules C z g₀ g (.ask x p resume)) (hg : g.WellFormed)
    (hz : z < g.size) (hd : g.Develops p.graph)
    (hans : Transforms rules C depth x p.graph m (.ok y run)) :
    Traces rules C z g₀ run.pass.graph (resume y run.pass) := by
  intro V t? hV hze hl n log
  have hze' := (hd.trans hans.leaves.develops).elementary_of hg hze hz
  obtain ⟨hx, hxe⟩ := h.asks hV hze'
  have hx' : p.graph.Extends run.pass.graph := hans.extends_of V hV hxe
  have hl' : Later V t? p.graph := hl.of_extends hx'
  have hye : run.pass.graph.Elementary V y :=
    ((hans.faithful y run rfl).2.2 V run.pass.graph hV hans.leaves.wellFormed (.refl V _)
      (hx'.elementary hxe)).1
  obtain ⟨q, ⟨-, -, -, resume', hq, hfol⟩, hR⟩ := h V t? hV hze' (hl'.of_extends hx) n log
  obtain ⟨log₁, rfl⟩ := hq hl'
  have hgoes : ∀ log₂, (resume y run.pass).Follows V t? run.pass.graph
      (fun o g' => ∃ y, o = some y ∧ g'.Elementary V y)
      (resume' y ⟨t?.getD run.pass.graph, log₂⟩) := fun log₂ =>
    hfol y run.pass.graph run.pass.log log₂ hans.leaves.wellFormed hx'.retains hye
  -- Plain recursion on `x` leads to the answer too, unless it has no end.
  have hanswer : Exhausted (rules.recurse n x ⟨t?.getD p.graph, log₁⟩) ∨
      ∃ log₂, rules.recurse n x ⟨t?.getD p.graph, log₁⟩ =
        .ok y ⟨t?.getD run.pass.graph, log₂⟩ := by
    cases t? with
    | none => exact hans.same V hV hxe n log₁
    | some t =>
      obtain ⟨ht, hr⟩ := hl t rfl
      exact ((hans.faithful y run rfl).2.2 V t hV ht hr (hx'.elementary hxe)).2 n log₁
  rcases hR with hR | hR
  · exact ⟨_, hgoes log₁, .inl hR⟩
  rcases hanswer with hexh | ⟨log₂, hok⟩
  · refine ⟨_, hgoes log₁, .inl ?_⟩
    rw [hR]
    exact (hexh.recurse_ask resume').locate
  · refine ⟨_, hgoes log₂, .inr ?_⟩
    rw [hR, Step.recurse_ask hok]

/-- A failure to answer is what plain recursion comes to as well. -/
theorem fails {e : Error} {run : Run τ} (h : Traces rules C z g₀ g (.ask x p resume))
    (hV : ∀ f, V.callees f → C f) (hze : g.Elementary V z)
    (hans : Transforms rules C depth x p.graph m (.error e run)) (n : Nat) (log : τ) :
    SameOutcome (depth + 1) (n + 1) (.error e run : EStateM.Result Error (Run τ) NodeId)
      (rules.recurse (n + 1) z ⟨g₀, log⟩) := by
  obtain ⟨hx, hxe⟩ := h.asks hV hze
  obtain ⟨q, ⟨-, -, -, resume', hq, -⟩, hR⟩ := h V none hV hze later_none n log
  obtain ⟨log₁, rfl⟩ := hq later_none
  rw [Option.getD_none] at hR
  rcases hR with hR | hR
  · exact .inl hR
  rcases hans.same V hV hxe n log₁ with hexh | ⟨he, hlt⟩ | ⟨log₂, herr⟩
  · left
    rw [hR]
    exact (hexh.recurse_ask resume').locate
  · exact .inr (.inl ⟨he, Nat.succ_lt_succ hlt⟩)
  · right
    right
    refine ⟨log₂, ?_⟩
    rw [hR, Step.recurse, Option.getD_none, herr]
    rfl

theorem done {o : Option NodeId} (h : Traces rules C z g₀ g (.done (.ok o p))) (hg : g.WellFormed)
    (hz : z < g.size) (hd : g.Develops p.graph) :
    Traces rules C z g₀ p.graph (.done (.ok o p)) := by
  intro V t? hV hze hl n log
  have hze' := hd.elementary_of hg hze hz
  obtain ⟨-, ⟨-, hx, -⟩, -⟩ := h V none hV hze' later_none n log
  obtain ⟨q, ⟨hw, -, hq⟩, hR⟩ := h V t? hV hze' (hl.of_extends hx) n log
  exact ⟨q, ⟨hw, .refl _, hq⟩, hR⟩

theorem error {e : Error} (h : Traces rules C z g₀ g (.done (.error e p)))
    (hV : ∀ f, V.callees f → C f) (hze : g.Elementary V z) (n : Nat) (log : τ) (m : Memo) :
    SameOutcome (depth + 1) (n + 1) (.error e ⟨m, p⟩ : EStateM.Result Error (Run τ) NodeId)
      (rules.recurse (n + 1) z ⟨g₀, log⟩) := by
  obtain ⟨q, ⟨-, -, hq⟩, hR⟩ := h V none hV hze later_none n log
  obtain ⟨log', rfl⟩ := hq rfl
  rcases hR with hR | hR
  · exact .inl hR
  · exact .inr (.inr ⟨log', hR⟩)

end Traces

/-- The outcome of the rule for `z`, which is still to be recorded. -/
structure Concludes (rules : Rules τ) (C : Callee → Prop) (depth : Nat) (z : NodeId) (g₀ g : Graph)
    (m : Memo) (r : EStateM.Result Error (Run τ) (Option NodeId)) : Prop where
  leaves : Leaves rules C g m (final r)
  extends_of : ∀ V : Vocabulary, (∀ f, V.callees f → C f) → g.Elementary V z →
    g.Extends (final r).pass.graph
  traces : ∀ o run, r = .ok o run →
    Traces rules C z g₀ run.pass.graph (.done (.ok o run.pass))
  fails : ∀ e run, r = .error e run → ∀ V : Vocabulary, (∀ f, V.callees f → C f) →
    g.Elementary V z → ∀ n log,
      SameOutcome (depth + 1) (n + 1) (.error e run : EStateM.Result Error (Run τ) NodeId)
        (rules.recurse (n + 1) z ⟨g₀, log⟩)

theorem Step.Meets.concludes {p : Step (Pass τ) (Option NodeId)} {d : Nat}
    {answer : NodeId → EStateM Error (Run τ) NodeId}
    (h : p.Meets developing.contract d z g fun _ _ => True) (ht : Traces rules C z g₀ g p)
    (hg : g.WellFormed) (ha : Answering rules C depth answer)
    (hm : m.Holds (remembering rules C) g) (hz : m.Around (remembering rules C) g z) :
    Concludes rules C depth z g₀ g m (p.run answer m) := by
  induction p generalizing g m with
  | done outcome =>
    cases outcome with
    | ok o p =>
      obtain ⟨hw, hd, -⟩ := h
      refine ⟨⟨hw, hd, hm.frame hg hd, fun _ => Iff.rfl⟩, fun V hV hze => ?_, ?_, fun _ _ h => ?_⟩
      · obtain ⟨-, ⟨-, hx, -⟩, -⟩ := ht V none hV hze later_none 0 p.log
        exact hx
      · rintro _ _ ⟨⟩
        exact ht.done hg hz.1 hd
      · cases h
    | error e p =>
      obtain ⟨hw, hd, -⟩ := h
      refine ⟨⟨hw, hd, hm.frame hg hd, fun _ => Iff.rfl⟩, fun V hV hze => ?_, fun _ _ h => ?_, ?_⟩
      · obtain ⟨-, ⟨-, hx, -⟩, -⟩ := ht V none hV hze later_none 0 p.log
        exact hx
      · cases h
      · rintro _ _ ⟨⟩ V hV hze n log
        exact ht.error hV hze n log m
  | ask x p resume ih =>
    obtain ⟨hw, hd, -, -, hr⟩ := h
    have hz' := hz.frame hg hd fun _ => Iff.rfl
    have hans := ha x p.graph m p.log hw (hm.frame hg hd)
      (hz'.leads fun _ => ht.needs hg hz.1 hd)
    have hx : ∀ V : Vocabulary, (∀ f, V.callees f → C f) → g.Elementary V z →
        g.Extends (final (answer x ⟨m, p⟩)).pass.graph := fun V hV hze =>
      (ht.asks hV hze).1.trans (hans.extends_of V hV (ht.asks hV hze).2)
    simp only [Step.run]
    cases he : answer x ⟨m, p⟩ with
    | error e run =>
      rw [show answer x ⟨m, ⟨p.graph, p.log⟩⟩ = _ from he] at hans
      rw [he] at hx
      refine ⟨hans.leaves.frame hd fun _ => Iff.rfl, hx, fun _ _ h => ?_, ?_⟩
      · cases h
      · rintro _ _ ⟨⟩ V hV hze n log
        exact ht.fails hV hze hans n log
    | ok y run =>
      rw [show answer x ⟨m, ⟨p.graph, p.log⟩⟩ = _ from he] at hans
      rw [he] at hx
      have hl := hans.leaves
      obtain ⟨hxs, hys, -⟩ := hans.faithful y run rfl
      have hall := hd.trans hl.develops
      have hstep := hr y run.pass hl.wellFormed hl.develops hxs hys trivial
      have hz'' := hz.frame hg hall hl.marks
      have hrest := ih y run.pass hstep (ht.resumes hg hz.1 hd hans) hl.wellFormed hl.holds hz''
      refine ⟨hrest.leaves.frame hall hl.marks, fun V hV hze => ?_, hrest.traces, ?_⟩
      · exact (hx V hV hze).trans (hrest.extends_of V hV ((hx V hV hze).elementary hze))
      · intro e run' herr V hV hze
        exact hrest.fails e run' herr V hV ((hx V hV hze).elementary hze)

/-! ### Recording outcomes -/

theorem Leaves.release {run : Run τ} (h : Leaves rules C g (m.enter z) run)
    (hm : m.mark? z = none) : Leaves rules C g m ⟨run.memo.release z, run.pass⟩ := by
  refine ⟨h.wellFormed, h.develops, h.holds.release z, fun i => marks_of_enter hm ?_ fun hi => ?_⟩
  · rw [Memo.mark?_release, if_pos rfl]
    exact fun h => nomatch h
  · rw [Memo.mark?_release, if_neg hi]
    exact h.marks i

theorem Leaves.store {run : Run τ} (h : Leaves rules C g (m.enter z) run)
    (hm : m.mark? z = none) (hz : z < run.pass.graph.size) (hy : y < run.pass.graph.size)
    (hf : Faithful rules C run.pass.graph z y) :
    Leaves rules C g m ⟨run.memo.store z y, run.pass⟩ := by
  refine ⟨h.wellFormed, h.develops, h.holds.store hz hy hf, fun i =>
    marks_of_enter hm ?_ fun hi => ?_⟩
  · rw [Memo.mark?_store, if_pos rfl]
    exact fun h => nomatch h
  · rw [Memo.mark?_store, if_neg hi]
    exact h.marks i

theorem locate_some {p : Pass τ} (hy : y < p.graph.size) :
    locate (.ok (some y) p) = .ok y p := by
  have hc : p.graph.contains y = true := decide_eq_true hy
  rw [locate, if_pos hc]

/-- A finished trace: the node is elementary, and plain recursion leads to it. -/
theorem Traces.located {p : Pass τ} {V : Vocabulary} {t? : Option Graph} {o : Option NodeId}
    (h : Traces rules C z g₀ p.graph (.done (.ok o p))) (hV : ∀ f, V.callees f → C f)
    (hze : p.graph.Elementary V z) (hl : Later V t? p.graph) :
    ∃ y, o = some y ∧ p.graph.Elementary V y ∧ ∀ n log,
      Exhausted (rules.recurse n z ⟨t?.getD g₀, log⟩) ∨
        ∃ log', rules.recurse n z ⟨t?.getD g₀, log⟩ = .ok y ⟨t?.getD p.graph, log'⟩ := by
  obtain ⟨-, ⟨-, -, ⟨y, rfl, hy⟩, -⟩, -⟩ := h V none hV hze later_none 0 p.log
  refine ⟨y, rfl, hy, fun n log => ?_⟩
  cases n with
  | zero => exact .inl ⟨_, rfl⟩
  | succ n =>
    obtain ⟨q, ⟨-, -, -, hq⟩, hR⟩ := h V t? hV hze hl n log
    obtain ⟨log', rfl⟩ := hq hl
    rcases hR with hR | hR
    · exact .inl hR
    · refine .inr ⟨log', hR.trans (locate_some ?_)⟩
      cases t? with
      | none => exact hy.lt_size
      | some t => exact (hl t rfl).2.lt_size hy.lt_size

theorem Concludes.settle {r : EStateM.Result Error (Run τ) (Option NodeId)}
    (h : Concludes rules C depth z g g (m.enter z) r) (hz : z < g.size)
    (hm : m.mark? z = none) : Transforms rules C (depth + 1) z g m (settle z r) := by
  cases r with
  | error e run =>
    refine ⟨h.leaves.release hm, (fun _ _ h => nomatch h), h.extends_of, fun V hV hze n log => ?_⟩
    cases n with
    | zero => exact .inl ⟨_, rfl⟩
    | succ n => exact h.fails e run rfl V hV hze n log
  | ok o run =>
    have hd := h.leaves.develops
    have htraces := h.traces o run rfl
    -- A result outside the graph never comes of an elementary expression.
    have houtside : (∀ y, o = some y → ¬ y < run.pass.graph.size) →
        Transforms rules C (depth + 1) z g m
          (.error .transformedOutsideGraph ⟨run.memo.release z, run.pass⟩) := by
      intro hout
      refine ⟨h.leaves.release hm, (fun _ _ h => nomatch h), h.extends_of, fun V hV hze => ?_⟩
      have hze' := (h.extends_of V hV hze).elementary hze
      obtain ⟨y, rfl, hy, -⟩ := htraces.located hV hze' later_none
      exact absurd hy.lt_size (hout y rfl)
    cases o with
    | none => exact houtside fun _ h => nomatch h
    | some y =>
      by_cases hy : y < run.pass.graph.size
      swap
      · have hc : run.pass.graph.contains y = false := decide_eq_false hy
        simp only [ExactAlgebra.settle, hc, Bool.false_eq_true, if_false]
        refine houtside ?_
        rintro _ ⟨⟩
        exact hy
      have hc : run.pass.graph.contains y = true := decide_eq_true hy
      simp only [ExactAlgebra.settle, hc, if_true]
      have hf : Faithful rules C run.pass.graph z y := by
        intro V t hV ht hr hze
        have hl : Later V (some t) run.pass.graph := by
          rintro _ ⟨⟩
          exact ⟨ht, hr⟩
        obtain ⟨_, ⟨⟩, hye, hrec⟩ := htraces.located hV hze hl
        exact ⟨hye, hrec⟩
      refine ⟨h.leaves.store hm (hd.lt_size hz) hy hf, ?_, h.extends_of, fun V hV hze n log => ?_⟩
      · rintro _ _ ⟨⟩
        exact ⟨hd.lt_size hz, hy, hf⟩
      · have hze' := (h.extends_of V hV hze).elementary hze
        obtain ⟨_, ⟨⟩, -, hrec⟩ := htraces.located hV hze' later_none
        exact hrec n log

/-- The rule for a node goes on like itself. -/
theorem Rules.Uniform.traces (hr : rules.Uniform C) (hg : g.WellFormed) (x : NodeId) (log : τ) :
    Traces rules C x g g (rules.transform x ⟨g, log⟩) := by
  intro V t? hV hx hl n log'
  refine ⟨_, hr.follows V t? g x hV hg hx log log', .inr ?_⟩
  have hc : (t?.getD g).contains x = true := by
    apply decide_eq_true
    cases t? with
    | none => exact hx.lt_size
    | some t => exact (hl t rfl).2.lt_size hx.lt_size
  simp only [Rules.recurse, hc, Bool.not_true, Bool.false_eq_true, if_false]

/-- Every run with a memo does for elementary expressions what plain recursion does. The induction
is on the depth of the run. -/
theorem Rules.Uniform.answering (hr : rules.Uniform C) (depth : Nat) :
    Answering rules C depth (rules.apply depth) := by
  induction depth with
  | zero =>
    intro x g m log hg hm hl
    have hleaves : Leaves rules C g m ⟨m, ⟨g, log⟩⟩ := ⟨hg, .refl g, hm, fun _ => Iff.rfl⟩
    refine ⟨hleaves, ?_, fun _ _ _ => .refl g, fun V hV hx n log' => ?_⟩
    · rintro _ _ ⟨⟩
    cases n with
    | zero => exact .inl ⟨_, rfl⟩
    | succ n => exact .inr (.inl ⟨rfl, Nat.succ_pos n⟩)
  | succ depth ih =>
    intro x g m log hg hm hl
    have hleaves : Leaves rules C g m ⟨m, ⟨g, log⟩⟩ := ⟨hg, .refl g, hm, fun _ => Iff.rfl⟩
    by_cases hlt : x < g.size
    swap
    · have hc : g.contains x = false := decide_eq_false hlt
      simp only [Rules.apply, hc, Bool.not_false, if_true]
      refine ⟨hleaves, ?_, fun _ _ _ => .refl g, fun _ _ hx => absurd hx.lt_size hlt⟩
      rintro _ _ ⟨⟩
    have hc : g.contains x = true := decide_eq_true hlt
    simp only [Rules.apply, hc, Bool.not_true, Bool.false_eq_true, if_false]
    have hfound : ∀ y, y < g.size → Faithful rules C g x y →
        Transforms rules C (depth + 1) x g m (.ok y ⟨m, ⟨g, log⟩⟩) := by
      intro y hy hf
      refine ⟨hleaves, ?_, fun _ _ _ => .refl g, fun V hV hx => ?_⟩
      · rintro _ _ ⟨⟩
        exact ⟨hlt, hy, hf⟩
      · exact (hf V g hV hg (.refl V g) hx).2
    cases hmark : m.mark? x with
    | none =>
      have hmeets : (rules.transform x ⟨g, log⟩).Meets developing.contract depth x g _ :=
        hr.wanders x hg hlt trivial log
      have hend := hmeets.concludes (hr.traces hg x log) hg ih (hm.enter x) (hl.around_enter hlt)
      exact hend.settle hlt hmark
    | some mark =>
      cases mark with
      | finished y =>
        obtain ⟨-, hy, hf⟩ := hm x y hmark
        exact hfound y hy hf
      | inProgress =>
        simp only [hr.onCycle, pure, Step.run]
        exact hfound x hlt ((hl x hmark).2 hlt).faithful

end ExactAlgebra
