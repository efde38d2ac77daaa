import ExactAlgebra.Proofs.Transform.Recursion
import ExactAlgebra.Proofs.Transform.Substitution

/-!
Substitution into elementary expressions can be repeated: in every later graph the same memo is
filled by the same steps.
-/

namespace ExactAlgebra

open ExactAlgebra.Graph (Vocabulary Replays)

variable {α : Type} {V : Vocabulary} {g g' g₀ t : Graph} {m m' : Memo} {x y : NodeId}
variable {depth depth' : Nat} {Q : α → Graph → Prop} {s : Substitution}

/-- The results of a memo are elementary. -/
def Memo.Elementary (V : Vocabulary) (g : Graph) (m : Memo) : Prop :=
  ∀ x y, m.mark? x = some (.finished y) → g.Elementary V y

theorem Memo.Elementary.retains (h : m.Elementary V g) (hx : g.Retains V g') :
    m.Elementary V g' :=
  fun x y hxy => hx.elementary (h x y hxy)

theorem Memo.Elementary.enter (h : m.Elementary V g) (x : NodeId) :
    (m.enter x).Elementary V g := by
  intro i y hi
  rw [Memo.mark?_enter] at hi
  split at hi
  · cases hi
  · exact h i y hi

theorem Memo.Elementary.store (h : m.Elementary V g) (x : NodeId) (hy : g.Elementary V y) :
    (m.store x y).Elementary V g := by
  intro i w hi
  rw [Memo.mark?_store] at hi
  split at hi
  · cases hi
    exact hy
  · exact h i w hi

/-- A run ended well, and the other run ended in the same way in the later graph `t`. -/
def Repeats (V : Vocabulary) (t g : Graph) (Q : α → Graph → Prop)
    (r again : EStateM.Result Error (Run Unit) α) : Prop :=
  match r with
  | .ok a run => run.pass.graph.WellFormed ∧ g.Extends run.pass.graph ∧
      run.memo.Elementary V run.pass.graph ∧ Q a run.pass.graph ∧
      (run.pass.graph.Retains V t → again = .ok a ⟨run.memo, ⟨t, ()⟩⟩)
  | .error _ run => run.pass.graph.WellFormed ∧ g.Extends run.pass.graph

theorem Repeats.frame {r again : EStateM.Result Error (Run Unit) α}
    (h : Repeats V t g' Q r again) (hx : g.Extends g') : Repeats V t g Q r again := by
  cases r with
  | ok a run => exact ⟨h.1, hx.trans h.2.1, h.2.2⟩
  | error e run => exact ⟨h.1, hx.trans h.2⟩

theorem Repeats.congr {r again again' : EStateM.Result Error (Run Unit) α}
    (h : Repeats V t g Q r again) (he : g.Retains V t → again' = again) :
    Repeats V t g Q r again' := by
  cases r with
  | ok a run =>
    obtain ⟨hw, hx, hm, hQ, hr⟩ := h
    exact ⟨hw, hx, hm, hQ, fun ht => (he (hx.retains.trans ht)).trans (hr ht)⟩
  | error e run => exact h

/-- Answers that are repeated in a later graph, maybe with more depth. -/
def Repeating (g₀ : Graph) (V : Vocabulary) (t : Graph)
    (answer answer' : NodeId → EStateM Error (Run Unit) NodeId) : Prop :=
  ∀ x g m, g.WellFormed → g₀.Extends g → m.Elementary V g → g.Elementary V x →
    Repeats V t g (fun y g' => g'.Elementary V y) (answer x ⟨m, ⟨g, ()⟩⟩) (answer' x ⟨m, ⟨t, ()⟩⟩)

theorem Step.Follows.repeats {p q : Step (Pass Unit) α}
    {answer answer' : NodeId → EStateM Error (Run Unit) NodeId}
    (h : p.Follows V (some t) g Q q) (ht : t.WellFormed) (hg₀ : g₀.Extends g)
    (ha : Repeating g₀ V t answer answer') (hm : m.Elementary V g) :
    Repeats V t g Q (p.run answer m) (q.run answer' m) := by
  have hlater : ∀ {g : Graph}, g.Retains V t → Later V (some t) g := by
    rintro g hr _ ⟨⟩
    exact ⟨ht, hr⟩
  induction p generalizing g m q with
  | done outcome =>
    cases outcome with
    | ok a p =>
      obtain ⟨hw, hx, hQ, hq⟩ := h
      refine ⟨hw, hx, hm.retains hx.retains, hQ, fun hr => ?_⟩
      obtain ⟨log, rfl⟩ := hq (hlater hr)
      rfl
    | error e p => exact ⟨h.1, h.2.1⟩
  | ask x p resume ih =>
    obtain ⟨hw, hx, hc, resume', hq, hr⟩ := h
    have hout := ha x p.graph m hw (hg₀.trans hx) (hm.retains hx.retains) hc
    simp only [Step.run]
    cases he : answer x ⟨m, p⟩ with
    | error e run =>
      rw [he] at hout
      exact ⟨hout.1, hx.trans hout.2⟩
    | ok y run =>
      rw [he] at hout
      obtain ⟨hw', hx', hm', hy, hagain⟩ := hout
      have hstep := hr y run.pass.graph () () hw' hx'.retains hy
      have hrest := ih y run.pass hstep ((hg₀.trans hx).trans hx') hm'
      refine (hrest.congr fun ht' => ?_).frame (hx.trans hx')
      obtain ⟨log, rfl⟩ := hq (hlater (hx'.retains.trans ht'))
      have hans : answer' x ⟨m, ⟨t, log⟩⟩ = .ok y ⟨run.memo, ⟨t, ()⟩⟩ := hagain ht'
      simp only [Step.run, Option.getD_some, hans]

theorem Repeats.settle {r again : EStateM.Result Error (Run Unit) (Option NodeId)}
    (h : Repeats V t g (fun r g' => ∃ y, r = some y ∧ g'.Elementary V y) r again) :
    Repeats V t g (fun y g' => g'.Elementary V y) (settle x r) (settle x again) := by
  cases r with
  | error e run => exact h
  | ok r run =>
    obtain ⟨hw, hx, hm, ⟨y, rfl, hy⟩, hagain⟩ := h
    have hc : ∀ {g : Graph}, y < g.size → g.contains y = true := fun h => decide_eq_true h
    rw [ExactAlgebra.settle, if_pos (hc hy.lt_size)]
    refine ⟨hw, hx, hm.store x hy, hy, fun hr => ?_⟩
    rw [hagain hr, ExactAlgebra.settle, if_pos (hc (hr.lt_size hy.lt_size))]

/-- A run in a later graph repeats a run, if each of its rules does; more depth does no harm. -/
theorem Rules.repeating {rules : Rules Unit} (hcycle : ∀ x, rules.onCycle x = pure x)
    (hrules : ∀ x g, g.WellFormed → g₀.Extends g → g.Elementary V x →
      (rules.transform x).Follows V (some t) g fun r g' => ∃ y, r = some y ∧ g'.Elementary V y)
    (ht : t.WellFormed) (hd : depth ≤ depth') :
    Repeating g₀ V t (rules.apply depth) (rules.apply depth') := by
  induction depth generalizing depth' with
  | zero => exact fun x g m hg _ _ _ => ⟨hg, .refl g⟩
  | succ depth ih =>
    intro x g m hg hg₀ hm hx
    obtain ⟨depth', rfl⟩ := Nat.exists_eq_add_of_lt hd
    have hc : ∀ {g : Graph}, x < g.size → g.contains x = true := fun h => decide_eq_true h
    simp only [Rules.apply, hc hx.lt_size, Bool.not_true, Bool.false_eq_true, if_false]
    refine Repeats.congr ?_ fun hr => if_neg (by simp [hc (hr.lt_size hx.lt_size)])
    cases hmark : m.mark? x with
    | none =>
      have hstep := (hrules x g hg hg₀ hx () ()).repeats ht hg₀
        (ih (Nat.le_add_right depth depth')) (hm.enter x)
      exact hstep.settle
    | some mark =>
      cases mark with
      | finished y => exact ⟨hg, .refl g, hm, hm x y hmark, fun _ => rfl⟩
      | inProgress =>
        simp only [hcycle]
        exact ⟨hg, .refl g, hm, hx, fun _ => rfl⟩

/-! ### Substitutions -/

namespace Substitution

/-- The replacements of a substitution are elementary. -/
def Elementary (V : Vocabulary) (g : Graph) (s : Substitution) : Prop :=
  ∀ p ∈ s, g.Elementary V p.2

theorem Elementary.value? (h : s.Elementary V g) (hy : s.value? x = some y) :
    g.Elementary V y :=
  h (x, y) (mem_of_value? hy)

theorem transform_follows {t? : Option Graph} (hg : g.WellFormed) (hs : s.Elementary V g)
    (hx : g.Elementary V x) :
    (s.rules.transform x).Follows V t? g fun r g' => ∃ y, r = some y ∧ g'.Elementary V y := by
  have hoperands : (do return some (← Dialogue.operands x) : Dialogue (Pass Unit) _).Follows V t? g
      fun r g' => ∃ y, r = some y ∧ g'.Elementary V y :=
    (Dialogue.Follows.operands hg hx).bind fun y g' hg' _ hy => .pure hg' ⟨y, rfl, hy⟩
  simp only [rules]
  cases hv : s.value? x with
  | some y => exact .pure hg ⟨y, rfl, hs.value? hv⟩
  | none =>
    apply Dialogue.Follows.graph
    · intro t _ hr
      rw [(hr.agree hg).shape_eq hx]
    · cases g.shape x with
      | constant | symbol => exact .pure hg ⟨x, rfl, hx⟩
      | _ => exact hoperands

/-- Elementary nodes of `g₀` are taken to elementary nodes, if there is room for them. -/
def confining (V : Vocabulary) (g₀ : Graph) : Contract where
  Frame := Graph.GrowsTo
  Asks depth g x := g₀.Extends g ∧ g₀.Elementary V x ∧ x < depth
  Answers g _ y := g.Elementary V y
  Below _ z x := x < z
  Fails := Graph.Overflow
  frame_refl := .refl
  frame_of_growsTo _ h := h
  frame_trans h h' := h.trans h'
  frame_lt_size h hx := h.lt_size hx
  answers_frame _ hf _ _ h := hf.elementary h
  below_frame _ _ _ _ h := h
  below_trans h h' := h'.trans h
  answers_self _ h := absurd h (Nat.lt_irrefl _)
  fails_outside h hx := absurd (h.1.lt_size h.2.1.lt_size) hx
  fails_exhausted h := absurd h.2.2 (Nat.not_lt_zero _)

theorem confining_settles (hy : g.Elementary V y) : (confining V g₀).Settles x (some y) g :=
  (confining V g₀).settles_of_answers hy.lt_size hy

theorem transform_confined (hg₀ : g₀.WellFormed) (hg : g.WellFormed) (hs : s.Elementary V g₀)
    (hx : (confining V g₀).Asks (depth + 1) g x) :
    (s.rules.transform x).Meets (confining V g₀) depth x g ((confining V g₀).Settles x) := by
  obtain ⟨hext, hx, hlt⟩ := hx
  have hxg : g.Elementary V x := hext.elementary hx
  have hops : g.operands x = g₀.operands x := hext.operands_eq hx.lt_size
  have hoperands : (do return some (← Dialogue.operands x) : Dialogue (Pass Unit) _).Meets
      (confining V g₀) depth x g ((confining V g₀).Settles x) := by
    have hq : (Dialogue.operands x : Dialogue (Pass Unit) NodeId).Meets (confining V g₀) depth x g
        fun y g' => g'.Elementary V y := by
      apply Dialogue.Meets.operands hg
      · intro g' _ hf y hy
        rw [hops] at hy
        have hyx := hg₀.operands_lt x hx.isLoop_eq y hy
        have hyd := hyx.trans_le (Nat.le_of_lt_succ hlt)
        exact ⟨⟨hext.trans hf.toExtends, hx.operands y hy, hyd⟩, fun _ => hyx⟩
      · intro ys g' hg' hf hys
        have hxg' := hf.elementary hxg
        have hall : ∀ y ∈ ys, g'.Elementary V y := by
          intro y hy
          obtain ⟨x, -, h⟩ := Graph.exists_of_forall₂ hys hy
          exact h.2.2
        apply Graph.Meets.ite
        · exact fun _ => .pure hg' hxg'
        intro _
        have harity : (g'.shape x).Allows ys.length := by
          rw [← hys.length_eq, ← hf.operands_eq hxg.lt_size]
          exact hg'.arity x
        have hroom := Graph.withOperands_meets hg' (fun y hy => (hall y hy).lt_size) harity
        exact (hroom.and (Graph.withOperands_replays hg' hxg' hall)).mono fun _ _ _ _ h => h.2.1
    exact hq.bind fun y g' hg' _ hy => .pure hg' (confining_settles hy)
  simp only [rules]
  cases hv : s.value? x with
  | some y => exact .pure hg (confining_settles (hext.elementary (hs.value? hv)))
  | none =>
    apply Dialogue.Meets.graph
    cases g.shape x with
    | constant | symbol => exact .pure hg (confining_settles hxg)
    | _ => exact hoperands

end Substitution

namespace Graph

/-- Substitution into an elementary expression fails only when the graph is full. -/
theorem substitute_elementary (hg : g.WellFormed) (hs : s.Elementary V g)
    (hx : g.Elementary V x) :
    Meets Overflow (substitute s x) g fun y g' => g'.Elementary V y := by
  have hrun := Rules.replies s.rules (fun _ => rfl)
    (fun _ _ _ hg' hx' _ => Substitution.transform_confined hg hg' hs hx')
    g.substitutionDepth x g {} () hg (Memo.holds_empty _ _)
    ⟨.refl g, hx, hx.lt_size.trans (Nat.lt_succ_self _)⟩ (Memo.leads_empty _ _ _)
  apply substitute_meets hg fun _ => hx
  cases he : s.rules.apply g.substitutionDepth x ⟨{}, ⟨g, ()⟩⟩ with
  | ok y run =>
    rw [he] at hrun
    exact ⟨hrun.1, hrun.2.1, hrun.2.2.2.2.2.2⟩
  | error e run =>
    rw [he] at hrun
    exact ⟨hrun.1, hrun.2.1, hrun.2.2.2.2⟩

theorem substitute_replays (hg : g.WellFormed) (hs : s.Elementary V g) (hx : g.Elementary V x) :
    Replays V (substitute s x) g fun y g' => g'.Elementary V y := by
  have hrun : ∀ t, t.WellFormed → g.Retains V t →
      Repeats V t g (fun y g' => g'.Elementary V y)
        (s.rules.apply g.substitutionDepth x ⟨{}, ⟨g, ()⟩⟩)
        (s.rules.apply t.substitutionDepth x ⟨{}, ⟨t, ()⟩⟩) := by
    intro t ht hr
    have hdepth : g.substitutionDepth ≤ t.substitutionDepth := Nat.succ_le_succ hr.size_le
    have hrules : ∀ x g', g'.WellFormed → g.Extends g' → g'.Elementary V x →
        (s.rules.transform x).Follows V (some t) g' fun r g' =>
          ∃ y, r = some y ∧ g'.Elementary V y := fun x g' hg' hx' hxe =>
      Substitution.transform_follows hg' (fun p hp => hx'.elementary (hs p hp)) hxe
    refine Rules.repeating (fun _ => rfl) hrules ht hdepth x g {} hg (.refl g) ?_ hx
    intro x y h
    simp [Memo.mark?] at h
  by_cases hnil : s.isEmpty
  · obtain rfl := List.isEmpty_iff.1 hnil
    exact .pure hg hx
  have hself := hrun g hg (.refl V g)
  apply (substitute_grows s x hg).mono_of_eq_ok
  intro y g' hy
  rw [substitute, if_neg hnil] at hy
  cases he : s.rules.apply g.substitutionDepth x ⟨{}, ⟨g, ()⟩⟩ with
  | error e run =>
    rw [he] at hy
    cases hy
  | ok y run =>
    rw [he] at hy hself
    cases hy
    refine ⟨hself.2.2.2.1, fun t ht hr => ?_⟩
    have hagain := hrun t ht (hself.2.1.retains.trans hr)
    rw [he] at hagain
    rw [substitute, if_neg hnil, hagain.2.2.2.2 hr]

end Graph

end ExactAlgebra
