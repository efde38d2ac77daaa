import ExactAlgebra.Proofs.Graph.Construction
import ExactAlgebra.Transform.Rules

/-!
Contracts between the transformation of a node and the transformations that it asks for. If the rule
for each node keeps its side, given answers that keep theirs, then so does a whole run, with its
memo and on cycles.
-/

namespace ExactAlgebra

variable {τ α β : Type}

/--
What may be asked, what the answers are like, and which failures there may be. The first node of
`Below` is being transformed when the second is asked for.
-/
structure Contract where
  /-- What a graph has become. -/
  Frame : Graph → Graph → Prop
  Asks : Nat → Graph → NodeId → Prop
  Answers : Graph → NodeId → NodeId → Prop
  Below : Graph → NodeId → NodeId → Prop
  Fails : Error → Graph → Prop
  frame_refl : ∀ g : Graph, Frame g g
  frame_of_growsTo : ∀ {g g' : Graph}, g'.WellFormed → g.GrowsTo g' → Frame g g'
  frame_trans : ∀ {g g' g'' : Graph}, Frame g g' → Frame g' g'' → Frame g g''
  frame_lt_size : ∀ {g g' : Graph} {x}, Frame g g' → x < g.size → x < g'.size
  answers_frame : ∀ {g g' : Graph} {x y}, g.WellFormed → Frame g g' → x < g.size → y < g.size →
    Answers g x y → Answers g' x y
  below_frame : ∀ {g g' : Graph} {x y}, g.WellFormed → Frame g g' → x < g.size → y < g.size →
    Below g x y → Below g' x y
  below_trans : ∀ {g : Graph} {x y z}, Below g x y → Below g y z → Below g x z
  answers_self : ∀ {g : Graph} {x}, x < g.size → Below g x x → Answers g x x
  fails_outside : ∀ {depth} {g : Graph} {x}, Asks depth g x → ¬ x < g.size →
    Fails .askedOutsideGraph g
  fails_exhausted : ∀ {g : Graph} {x}, Asks 0 g x → Fails .depthExhausted g

variable {c : Contract} {depth : Nat} {z : NodeId} {g g' : Graph}
variable {Q Q' : α → Graph → Prop} {R : β → Graph → Prop}

/-- A step keeps its side of a contract, with `depth` left for its questions, from `g` on. -/
def Step.Meets (c : Contract) (depth : Nat) (z : NodeId) (g : Graph) (Q : α → Graph → Prop) :
    Step (Pass τ) α → Prop
  | .done (.ok a p) => p.graph.WellFormed ∧ c.Frame g p.graph ∧ Q a p.graph
  | .done (.error e p) => p.graph.WellFormed ∧ c.Frame g p.graph ∧ c.Fails e p.graph
  | .ask x p resume =>
    p.graph.WellFormed ∧ c.Frame g p.graph ∧ c.Asks depth p.graph x ∧
      (x < p.graph.size → c.Below p.graph z x) ∧
      ∀ y p', p'.graph.WellFormed → c.Frame p.graph p'.graph → x < p'.graph.size →
        y < p'.graph.size → c.Answers p'.graph x y → (resume y p').Meets c depth z p'.graph Q

namespace Step.Meets

theorem frame {p : Step (Pass τ) α} (h : p.Meets c depth z g' Q) (hx : c.Frame g g') :
    p.Meets c depth z g Q := by
  cases p with
  | done outcome =>
    cases outcome with
    | ok a p => exact ⟨h.1, c.frame_trans hx h.2.1, h.2.2⟩
    | error e p => exact ⟨h.1, c.frame_trans hx h.2.1, h.2.2⟩
  | ask x p resume => exact ⟨h.1, c.frame_trans hx h.2.1, h.2.2⟩

theorem bind {p : Step (Pass τ) α} {k : α → Pass τ → Step (Pass τ) β}
    (h : p.Meets c depth z g Q)
    (hk : ∀ a p', p'.graph.WellFormed → c.Frame g p'.graph → Q a p'.graph →
      (k a p').Meets c depth z p'.graph R) : (p.bind k).Meets c depth z g R := by
  induction p generalizing g with
  | done outcome =>
    cases outcome with
    | ok a p => exact (hk a p h.1 h.2.1 h.2.2).frame h.2.1
    | error e p => exact h
  | ask x p resume ih =>
    obtain ⟨hw, hx, ha, hb, hr⟩ := h
    refine ⟨hw, hx, ha, hb, fun y p' hw' hx' hxs hy hans => ?_⟩
    exact ih y p' (hr y p' hw' hx' hxs hy hans) fun a p'' hw'' hx'' =>
      hk a p'' hw'' (c.frame_trans (c.frame_trans hx hx') hx'')

end Step.Meets

namespace Dialogue

/-- A computation keeps its side of a contract, whatever was logged before it. -/
def Meets (c : Contract) (depth : Nat) (z : NodeId) (m : Dialogue (Pass τ) α) (g : Graph)
    (Q : α → Graph → Prop) : Prop :=
  ∀ log, (m ⟨g, log⟩).Meets c depth z g Q

namespace Meets

theorem pure {a : α} (hg : g.WellFormed) (h : Q a g) :
    Meets c depth z (Pure.pure a : Dialogue (Pass τ) α) g Q :=
  fun _ => ⟨hg, c.frame_refl g, h⟩

theorem bind {m : Dialogue (Pass τ) α} {f : α → Dialogue (Pass τ) β}
    (hm : Meets c depth z m g Q)
    (hf : ∀ a g', g'.WellFormed → c.Frame g g' → Q a g' → Meets c depth z (f a) g' R) :
    Meets c depth z (m >>= f) g R :=
  fun log => (hm log).bind fun a p hw hx hQ => hf a p.graph hw hx hQ p.log

theorem mono {m : Dialogue (Pass τ) α} (hm : Meets c depth z m g Q)
    (hQ : ∀ a g', g'.WellFormed → c.Frame g g' → Q a g' → Q' a g') :
    Meets c depth z m g Q' := by
  rw [← bind_pure m]
  exact hm.bind fun a g' hw hx hQa => .pure hw (hQ a g' hw hx hQa)

theorem ite {p : Prop} [Decidable p] {m m' : Dialogue (Pass τ) α} (h : p → Meets c depth z m g Q)
    (h' : ¬ p → Meets c depth z m' g Q) : Meets c depth z (if p then m else m') g Q := by
  split
  · exact h ‹_›
  · exact h' ‹_›

theorem ask {x : NodeId} (hg : g.WellFormed) (hx : c.Asks depth g x)
    (hb : x < g.size → c.Below g z x) :
    Meets c depth z (ask x : Dialogue (Pass τ) NodeId) g fun y g' =>
      x < g'.size ∧ y < g'.size ∧ c.Answers g' x y :=
  fun _ => ⟨hg, c.frame_refl g, hx, hb, fun _ p hw _ hxs hy hans =>
    ⟨hw, c.frame_refl p.graph, hxs, hy, hans⟩⟩

theorem build {m : Build α} (hm : Graph.Meets c.Fails m g Q) :
    Meets c depth z (build m : Dialogue (Pass τ) α) g Q := by
  intro log
  unfold Graph.Meets at hm
  unfold Dialogue.build
  cases he : m g with
  | ok a g' =>
    simp only [he] at hm ⊢
    exact ⟨hm.1, c.frame_of_growsTo hm.1 hm.2.1, hm.2.2⟩
  | error e g' =>
    simp only [he] at hm ⊢
    exact ⟨hm.1, c.frame_of_growsTo hm.1 hm.2.1, hm.2.2⟩

theorem graph {f : Graph → Dialogue (Pass τ) β} (h : Meets c depth z (f g) g R) :
    Meets c depth z (Dialogue.graph >>= f) g R := h

theorem updateLog {u : τ → τ} {f : Unit → Dialogue (Pass τ) β} (h : Meets c depth z (f ()) g R) :
    Meets c depth z (Dialogue.updateLog u >>= f) g R :=
  fun log => h (u log)

theorem fail {e : Error} (hg : g.WellFormed) (h : c.Fails e g) :
    Meets c depth z (fail e : Dialogue (Pass τ) α) g Q :=
  fun _ => ⟨hg, c.frame_refl g, h⟩

/-- The nodes of a list are asked for one after another. -/
theorem askAll {xs : List NodeId} (hg : g.WellFormed)
    (hx : ∀ g', g'.WellFormed → c.Frame g g' → ∀ x ∈ xs,
      c.Asks depth g' x ∧ (x < g'.size → c.Below g' z x)) :
    Meets c depth z (askAll xs : Dialogue (Pass τ) (List NodeId)) g fun ys g' =>
      List.Forall₂ (fun x y => x < g'.size ∧ y < g'.size ∧ c.Answers g' x y) xs ys := by
  induction xs generalizing g with
  | nil => exact .pure hg .nil
  | cons x xs ih =>
    obtain ⟨ha, hb⟩ := hx g hg (c.frame_refl g) x (by simp)
    refine (Meets.ask hg ha hb).bind fun y g' hg' hf hy => ?_
    have hxs := fun g'' (hg'' : g''.WellFormed) (hf' : c.Frame g' g'') x hx' =>
      hx g'' hg'' (c.frame_trans hf hf') x (List.mem_cons_of_mem _ hx')
    refine (ih hg' hxs).bind fun ys g'' hg'' hf' hys => .pure hg'' (.cons ?_ hys)
    exact ⟨c.frame_lt_size hf' hy.1, c.frame_lt_size hf' hy.2.1,
      c.answers_frame hg' hf' hy.1 hy.2.1 hy.2.2⟩

/-- A node is built anew from its transformed operands, unless they are what they were. -/
theorem operands {x : NodeId} {Q : NodeId → Graph → Prop} (hg : g.WellFormed)
    (hask : ∀ g', g'.WellFormed → c.Frame g g' → ∀ y ∈ g.operands x,
      c.Asks depth g' y ∧ (y < g'.size → c.Below g' z y))
    (hbuild : ∀ ys g', g'.WellFormed → c.Frame g g' →
      List.Forall₂ (fun y y' => y < g'.size ∧ y' < g'.size ∧ c.Answers g' y y')
        (g.operands x) ys →
      Graph.Meets c.Fails
        (if ys = g.operands x then Pure.pure x else Graph.withOperands x ys) g' Q) :
    Meets c depth z (Dialogue.operands x : Dialogue (Pass τ) NodeId) g Q := by
  apply Meets.graph
  apply (Meets.askAll hg hask).bind
  intro ys g' hg' hf hys
  have hm : Meets c depth z (Dialogue.build _ : Dialogue (Pass τ) NodeId) g' Q :=
    .build (hbuild ys g' hg' hf hys)
  by_cases he : ys = g.operands x
  · rw [if_pos he] at hm ⊢
    exact hm
  · rw [if_neg he] at hm ⊢
    exact hm

end Meets

end Dialogue

/-! ### Runs -/

/-- The results of a memo keep the contract in a graph. -/
def Memo.Holds (c : Contract) (g : Graph) (m : Memo) : Prop :=
  ∀ x y, m.mark? x = some (.finished y) → x < g.size ∧ y < g.size ∧ c.Answers g x y

/-- The nodes that are being transformed when `x` is asked for. -/
def Memo.Leads (c : Contract) (g : Graph) (m : Memo) (x : NodeId) : Prop :=
  ∀ i, m.mark? i = some .inProgress → i < g.size ∧ (x < g.size → c.Below g i x)

/-- The outcome of a run from a graph and a memo. -/
def Outcome (c : Contract) (g : Graph) (m : Memo) (Q : α → Graph → Prop) :
    EStateM.Result Error (Run τ) α → Prop
  | .ok a run =>
    run.pass.graph.WellFormed ∧ c.Frame g run.pass.graph ∧ run.memo.Holds c run.pass.graph ∧
      (∀ i, run.memo.mark? i = some .inProgress ↔ m.mark? i = some .inProgress) ∧
      Q a run.pass.graph
  | .error e run =>
    run.pass.graph.WellFormed ∧ c.Frame g run.pass.graph ∧ run.memo.Holds c run.pass.graph ∧
      (∀ i, run.memo.mark? i = some .inProgress ↔ m.mark? i = some .inProgress) ∧
      c.Fails e run.pass.graph

theorem Memo.holds_empty (c : Contract) (g : Graph) : Memo.Holds c g {} := by
  intro x y h
  simp [Memo.mark?] at h

theorem Memo.leads_empty (c : Contract) (g : Graph) (x : NodeId) : Memo.Leads c g {} x := by
  intro i h
  simp [Memo.mark?] at h

theorem Memo.Holds.frame {m : Memo} (h : m.Holds c g) (hg : g.WellFormed) (hf : c.Frame g g') :
    m.Holds c g' := by
  intro x y hxy
  obtain ⟨hx, hy, ha⟩ := h x y hxy
  exact ⟨c.frame_lt_size hf hx, c.frame_lt_size hf hy, c.answers_frame hg hf hx hy ha⟩

theorem Memo.mark?_enter (m : Memo) (x i : NodeId) :
    (m.enter x).mark? i = if x = i then some .inProgress else m.mark? i := by
  simp only [mark?, enter, Std.HashMap.getElem?_insert, beq_iff_eq]

theorem Memo.mark?_store (m : Memo) (x y i : NodeId) :
    (m.store x y).mark? i = if x = i then some (.finished y) else m.mark? i := by
  simp only [mark?, store, Std.HashMap.getElem?_insert, beq_iff_eq]

theorem Memo.mark?_release (m : Memo) (x i : NodeId) :
    (m.release x).mark? i = if x = i then none else m.mark? i := by
  simp only [mark?, release, Std.HashMap.getElem?_erase, beq_iff_eq]

theorem Memo.Holds.enter {m : Memo} (h : m.Holds c g) (x : NodeId) : (m.enter x).Holds c g := by
  intro i y hi
  rw [mark?_enter] at hi
  split at hi
  · cases hi
  · exact h i y hi

theorem Memo.Holds.store {m : Memo} (h : m.Holds c g) {x y : NodeId} (hx : x < g.size)
    (hy : y < g.size) (ha : c.Answers g x y) : (m.store x y).Holds c g := by
  intro i w hi
  rw [mark?_store] at hi
  split at hi
  · cases hi
    subst i
    exact ⟨hx, hy, ha⟩
  · exact h i w hi

theorem Memo.Holds.release {m : Memo} (h : m.Holds c g) (x : NodeId) :
    (m.release x).Holds c g := by
  intro i y hi
  rw [mark?_release] at hi
  split at hi
  · cases hi
  · exact h i y hi

/-- Entering a node and leaving it again keeps what was marked around it. -/
theorem marks_of_enter {m m' : Memo} {i : NodeId} (hm : m.mark? z = none) (hz : m'.mark? z ≠ some .inProgress)
    (h : z ≠ i → (m'.mark? i = some .inProgress ↔ (m.enter z).mark? i = some .inProgress)) :
    m'.mark? i = some .inProgress ↔ m.mark? i = some .inProgress := by
  by_cases he : z = i
  · subst he
    rw [hm]
    exact ⟨fun h => absurd h hz, fun h => nomatch h⟩
  · rw [h he, Memo.mark?_enter, if_neg he]

/-- The nodes being transformed around the transformation of `z`, and `z` itself. -/
def Memo.Around (c : Contract) (g : Graph) (m : Memo) (z : NodeId) : Prop :=
  z < g.size ∧ ∀ i, m.mark? i = some .inProgress → i < g.size ∧ (i = z ∨ c.Below g i z)

theorem Memo.Around.leads {m : Memo} {x : NodeId} (h : m.Around c g z)
    (hb : x < g.size → c.Below g z x) : m.Leads c g x := by
  intro i hi
  obtain ⟨hlt, rfl | hz⟩ := h.2 i hi
  · exact ⟨hlt, hb⟩
  · exact ⟨hlt, fun hx => c.below_trans hz (hb hx)⟩

theorem Memo.Around.frame {m m' : Memo} (h : m.Around c g z) (hg : g.WellFormed)
    (hf : c.Frame g g') (hm : ∀ i, m'.mark? i = some .inProgress ↔ m.mark? i = some .inProgress) :
    m'.Around c g' z := by
  refine ⟨c.frame_lt_size hf h.1, fun i hi => ?_⟩
  obtain ⟨hlt, hz⟩ := h.2 i ((hm i).1 hi)
  exact ⟨c.frame_lt_size hf hlt, hz.imp_right (c.below_frame hg hf hlt h.1)⟩

theorem Memo.Leads.around_enter {m : Memo} (h : m.Leads c g z) (hz : z < g.size) :
    (m.enter z).Around c g z := by
  refine ⟨hz, fun i hi => ?_⟩
  rw [mark?_enter] at hi
  split at hi
  · next he => exact ⟨he ▸ hz, .inl he.symm⟩
  · exact ⟨(h i hi).1, .inr ((h i hi).2 hz)⟩

/-- What is asked of the answers to the questions of a step, while the nodes that a memo marks are
being transformed. -/
def RepliesWithin (c : Contract) (depth : Nat) (m₀ : Memo)
    (answer : NodeId → EStateM Error (Run τ) NodeId) : Prop :=
  ∀ x g m log, g.WellFormed → m.Holds c g →
    (∀ i, m.mark? i = some .inProgress ↔ m₀.mark? i = some .inProgress) →
    c.Asks depth g x → m.Leads c g x →
      Outcome c g m (fun y g' => x < g'.size ∧ y < g'.size ∧ c.Answers g' x y)
        (answer x ⟨m, ⟨g, log⟩⟩)

/-- What is asked of answers, whatever is being transformed. -/
def Replies (c : Contract) (depth : Nat) (answer : NodeId → EStateM Error (Run τ) NodeId) : Prop :=
  ∀ x g m log, g.WellFormed → m.Holds c g → c.Asks depth g x → m.Leads c g x →
    Outcome c g m (fun y g' => x < g'.size ∧ y < g'.size ∧ c.Answers g' x y)
      (answer x ⟨m, ⟨g, log⟩⟩)

theorem Replies.within {answer : NodeId → EStateM Error (Run τ) NodeId}
    (h : Replies c depth answer) (m₀ : Memo) : RepliesWithin c depth m₀ answer :=
  fun x g m log hg hm _ hx hl => h x g m log hg hm hx hl

theorem Outcome.frame {m m' : Memo} {r : EStateM.Result Error (Run τ) α}
    (h : Outcome c g' m' Q r) (hf : c.Frame g g')
    (hm : ∀ i, m'.mark? i = some .inProgress ↔ m.mark? i = some .inProgress) :
    Outcome c g m Q r := by
  cases r with
  | ok a run =>
    obtain ⟨hw, hx, hh, hp, hQ⟩ := h
    exact ⟨hw, c.frame_trans hf hx, hh, fun i => (hp i).trans (hm i), hQ⟩
  | error e run =>
    obtain ⟨hw, hx, hh, hp, he⟩ := h
    exact ⟨hw, c.frame_trans hf hx, hh, fun i => (hp i).trans (hm i), he⟩

theorem Step.Meets.run {p : Step (Pass τ) α} {answer : NodeId → EStateM Error (Run τ) NodeId}
    {m m₀ : Memo} (h : p.Meets c depth z g Q) (hg : g.WellFormed)
    (ha : RepliesWithin c depth m₀ answer) (hm : m.Holds c g) (hz : m.Around c g z)
    (hmarks : ∀ i, m.mark? i = some .inProgress ↔ m₀.mark? i = some .inProgress) :
    Outcome c g m Q (p.run answer m) := by
  induction p generalizing g m with
  | done outcome =>
    cases outcome with
    | ok a p => exact ⟨h.1, h.2.1, hm.frame hg h.2.1, fun _ => Iff.rfl, h.2.2⟩
    | error e p => exact ⟨h.1, h.2.1, hm.frame hg h.2.1, fun _ => Iff.rfl, h.2.2⟩
  | ask x p resume ih =>
    obtain ⟨hw, hf, hx, hb, hr⟩ := h
    have hz' := hz.frame hg hf fun _ => Iff.rfl
    have hout := ha x p.graph m p.log hw (hm.frame hg hf) hmarks hx (hz'.leads hb)
    simp only [Step.run]
    cases he : answer x ⟨m, p⟩ with
    | error e run =>
      rw [he] at hout
      exact Outcome.frame (r := .error e run) hout hf fun _ => Iff.rfl
    | ok y run =>
      rw [he] at hout
      obtain ⟨hw', hf', hm', hp, hxs, hys, hy⟩ := hout
      have hstep := hr y run.pass hw' hf' hxs hys hy
      have hall := c.frame_trans hf hf'
      have hz'' := hz.frame hg hall hp
      have hrest := ih y run.pass hstep hw' hm' hz'' fun i => (hp i).trans (hmarks i)
      exact hrest.frame hall hp

/-- What the rule for a node has to give. -/
def Contract.Settles (c : Contract) (x : NodeId) (r : Option NodeId) (g : Graph) : Prop :=
  (∀ y, r = some y → y < g.size → c.Answers g x y) ∧
    ((∀ y, r = some y → ¬ y < g.size) → c.Fails .transformedOutsideGraph g)

theorem Contract.settles_of_answers {x y : NodeId} (hy : y < g.size) (h : c.Answers g x y) :
    c.Settles x (some y) g := by
  constructor
  · rintro _ ⟨⟩ _
    exact h
  · intro hn
    exact absurd hy (hn y rfl)

theorem Outcome.settle {m : Memo} {x : NodeId} {r : EStateM.Result Error (Run τ) (Option NodeId)}
    (h : Outcome c g (m.enter x) (fun r g' => c.Settles x r g') r) (hx : x < g.size)
    (hm : m.mark? x = none) :
    Outcome c g m (fun y g' => x < g'.size ∧ y < g'.size ∧ c.Answers g' x y) (settle x r) := by
  have hreleased : ∀ {m' : Memo}, (∀ i, m'.mark? i = some .inProgress ↔
      (m.enter x).mark? i = some .inProgress) → ∀ i, (m'.release x).mark? i = some .inProgress ↔
      m.mark? i = some .inProgress := by
    intro m' hp i
    apply marks_of_enter hm
    · rw [Memo.mark?_release, if_pos rfl]
      exact fun h => nomatch h
    · intro hi
      rw [Memo.mark?_release, if_neg hi]
      exact hp i
  cases r with
  | error e run =>
    obtain ⟨hw, hf, hh, hp, he⟩ := h
    exact ⟨hw, hf, hh.release x, hreleased hp, he⟩
  | ok r run =>
    obtain ⟨hw, hf, hh, hp, hin, hout⟩ := h
    have hx' := c.frame_lt_size hf hx
    cases r with
    | none => exact ⟨hw, hf, hh.release x, hreleased hp, hout fun _ h => nomatch h⟩
    | some y =>
    by_cases hy : y < run.pass.graph.size
    · simp only [ExactAlgebra.settle, Graph.contains, hy, decide_true, if_true]
      have ha := hin y rfl hy
      refine ⟨hw, hf, hh.store hx' hy ha, fun i => ?_, hx', hy, ha⟩
      rw [Memo.mark?_store]
      split
      · next he =>
        subst i
        rw [hm]
        exact ⟨fun h => (nomatch h), fun h => (nomatch h)⟩
      · next he => rw [hp i, Memo.mark?_enter, if_neg he]
    · simp only [ExactAlgebra.settle, Graph.contains, hy, decide_false, Bool.false_eq_true,
        if_false]
      refine ⟨hw, hf, hh.release x, hreleased hp, hout ?_⟩
      rintro _ ⟨⟩
      exact hy

/-- A transformation with one question more inside one another: the rule for the node is all that
matters. -/
theorem Rules.outcome_apply (rules : Rules τ) (hcycle : ∀ x, rules.onCycle x = pure x) {x : NodeId}
    {m : Memo} {log : τ} (hg : g.WellFormed) (hm : m.Holds c g) (hx : c.Asks (depth + 1) g x)
    (hl : m.Leads c g x)
    (hrule : m.mark? x = none → x < g.size →
      Outcome c g (m.enter x) (fun r g' => c.Settles x r g')
        ((rules.transform x ⟨g, log⟩).run (rules.apply depth) (m.enter x))) :
    Outcome c g m (fun y g' => x < g'.size ∧ y < g'.size ∧ c.Answers g' x y)
      (rules.apply (depth + 1) x ⟨m, ⟨g, log⟩⟩) := by
  by_cases hlt : x < g.size
  swap
  · simp only [Rules.apply, Graph.contains, hlt, decide_false, Bool.not_false, if_true]
    exact ⟨hg, c.frame_refl g, hm, fun _ => Iff.rfl, c.fails_outside hx hlt⟩
  simp only [Rules.apply, Graph.contains, hlt, decide_true, Bool.not_true, Bool.false_eq_true,
    if_false]
  cases hmark : m.mark? x with
  | none => exact (hrule hmark hlt).settle hlt hmark
  | some mark =>
    cases mark with
    | finished y =>
      obtain ⟨-, hy, ha⟩ := hm x y hmark
      exact ⟨hg, c.frame_refl g, hm, fun _ => Iff.rfl, hlt, hy, ha⟩
    | inProgress =>
      simp only [hcycle, pure, Step.run]
      have hb := (hl x hmark).2 hlt
      exact ⟨hg, c.frame_refl g, hm, fun _ => Iff.rfl, hlt, hlt, c.answers_self hlt hb⟩

/--
If each rule keeps its side of a contract, so does every transformation. The induction is on the
depth; what is being transformed when a node is asked for lies above that node.
-/
theorem Rules.replies (rules : Rules τ) (hcycle : ∀ x, rules.onCycle x = pure x)
    (hrules : ∀ depth x g, g.WellFormed → c.Asks (depth + 1) g x → x < g.size →
      (rules.transform x).Meets c depth x g (c.Settles x)) (depth : Nat) :
    Replies c depth (rules.apply depth) := by
  induction depth with
  | zero =>
    intro x g m log hg hm hx hl
    exact ⟨hg, c.frame_refl g, hm, fun _ => Iff.rfl, c.fails_exhausted hx⟩
  | succ depth ih =>
    intro x g m log hg hm hx hl
    apply rules.outcome_apply hcycle hg hm hx hl
    intro hmark hlt
    exact (hrules depth x g hg hx hlt log).run hg (ih.within (m.enter x)) (hm.enter x)
      (hl.around_enter hlt) fun _ => Iff.rfl

end ExactAlgebra
