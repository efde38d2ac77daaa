import ExactAlgebra.Proofs.Reachable.Substitution

/-!
Substitution goes through each node of an expression once, remembers what it became, and leaves a
node alone if none of its operands has changed. All the same it is replacement in the tree of the
expression, occurrence by occurrence: it leads to the same node, in the same graph.
-/

namespace ExactAlgebra

open ExactAlgebra.Graph (Vocabulary Meets Overflow withOperands)

variable {α β τ : Type} {V : Vocabulary} {s : Substitution} {g g₀ : Graph} {depth : Nat}
variable {x : NodeId} {xs : List NodeId} {run run' start : Run Unit} {Q : α → Graph → Prop}

theorem Step.run_bind (answer : NodeId → EStateM Error (Run τ) NodeId) (p : Step (Pass τ) α)
    (k : α → Pass τ → Step (Pass τ) β) (m : Memo) :
    (p.bind k).run answer m =
      match p.run answer m with
      | .ok a run => (k a run.pass).run answer run.memo
      | .error e run => .error e run := by
  induction p generalizing m with
  | done outcome => cases outcome <;> rfl
  | ask x s resume ih =>
    simp only [bind, run]
    cases answer x ⟨m, s⟩ with
    | ok y run => exact ih y run.pass run.memo
    | error e run => rfl

theorem Dialogue.run_askAll_cons (answer : NodeId → EStateM Error (Run τ) NodeId) (x : NodeId)
    (xs : List NodeId) (run : Run τ) :
    (askAll (x :: xs) run.pass).run answer run.memo =
      match answer x run with
      | .ok y run =>
        ((askAll xs run.pass).bind fun ys p => .done (.ok (y :: ys) p)).run answer run.memo
      | .error e run => .error e run := by
  simp only [askAll, bind, ask, Step.bind, Step.run]
  cases answer x run <;> rfl

namespace Substitution

/-! ### Runs and constructions -/

/-- All that the memo of a run has stored is what the nodes of `g₀` become. -/
structure Sound (s : Substitution) (V : Vocabulary) (g₀ : Graph) (run : Run Unit) : Prop where
  extends_graph : g₀.Extends run.pass.graph
  regular : run.pass.graph.Regular
  finished : ∀ x y, run.memo.mark? x = some (.finished y) →
    g₀.Elementary V x ∧ s.Replaces run.pass.graph x y

theorem Sound.tame (h : s.Sound V g₀ run) (hx : g₀.Elementary V x) : s.Tame run.pass.graph x :=
  (h.extends_graph.elementary hx).tame h.regular

/-- A run ends as a construction does. If that is well, its memo is sound, and the same nodes are
being transformed as at the start. -/
inductive Mimics (s : Substitution) (V : Vocabulary) (g₀ : Graph) (start : Run Unit)
    (Q : α → Graph → Prop) : EStateM.Result Error (Run Unit) α → EStateM.Result Error Graph α → Prop
  | ok {a : α} (run : Run Unit) (hsound : s.Sound V g₀ run)
      (hx : start.pass.graph.Extends run.pass.graph)
      (hmarks : ∀ x, run.memo.mark? x = some .inProgress ↔ start.memo.mark? x = some .inProgress)
      (hQ : Q a run.pass.graph) : Mimics s V g₀ start Q (.ok a run) (.ok a run.pass.graph)
  | error {e : Error} (run : Run Unit) :
      Mimics s V g₀ start Q (.error e run) (.error e run.pass.graph)

theorem Mimics.frame {r : EStateM.Result Error (Run Unit) α} {q : EStateM.Result Error Graph α}
    (h : s.Mimics V g₀ run Q r q) (hx : start.pass.graph.Extends run.pass.graph)
    (hmarks : ∀ x, run.memo.mark? x = some .inProgress ↔ start.memo.mark? x = some .inProgress) :
    s.Mimics V g₀ start Q r q := by
  cases h with
  | error run => exact .error run
  | ok run' hsound hx' hmarks' hQ =>
    exact .ok run' hsound (hx.trans hx') (fun i => (hmarks' i).trans (hmarks i)) hQ

/-- Answers that do what replacement in trees does, while the nodes that `start` is transforming are
being transformed. -/
def Mimicking (s : Substitution) (V : Vocabulary) (g₀ : Graph) (start : Run Unit)
    (answer : NodeId → EStateM Error (Run Unit) NodeId) (x : NodeId) : Prop :=
  ∀ run, s.Sound V g₀ run →
    (∀ i, run.memo.mark? i = some .inProgress ↔ start.memo.mark? i = some .inProgress) →
    Mimics s V g₀ run (fun y g => s.Replaces g x y) (answer x run)
      ((g₀.unfolding x).replace s run.pass.graph)

/-- Operands are transformed from left to right, as they are in a tree. -/
theorem askAll_mimics {answer : NodeId → EStateM Error (Run Unit) NodeId} (hs : s.Within g₀)
    (hxs : ∀ x ∈ xs, g₀.Elementary V x) (hsound : s.Sound V g₀ run)
    (hmarks : ∀ i, run.memo.mark? i = some .inProgress ↔ start.memo.mark? i = some .inProgress)
    (hanswer : ∀ x ∈ xs, s.Mimicking V g₀ start answer x) :
    Mimics s V g₀ run (fun ys g => List.Forall₂ (s.Replaces g) xs ys)
      ((Dialogue.askAll xs run.pass).run answer run.memo)
      (xs.mapM (fun x => (g₀.unfolding x).replace s) run.pass.graph) := by
  induction xs generalizing run with
  | nil => exact .ok run hsound (.refl _) (fun _ => Iff.rfl) .nil
  | cons x xs ih =>
    have hx := hanswer x List.mem_cons_self run hsound hmarks
    rw [Dialogue.run_askAll_cons, List.mapM_cons]
    simp only [bind, EStateM.bind]
    generalize answer x run = r at hx ⊢
    generalize (g₀.unfolding x).replace s run.pass.graph = q at hx ⊢
    cases hx with
    | error run => exact .error run
    | @ok y run' hsound' hext hmarks' hy =>
      have hrest := ih (fun z hz => hxs z (List.mem_cons_of_mem x hz)) hsound'
        (fun i => (hmarks' i).trans (hmarks i)) fun z hz => hanswer z (List.mem_cons_of_mem x hz)
      simp only [Step.run_bind]
      generalize (Dialogue.askAll xs run'.pass).run answer run'.memo = r at hrest ⊢
      generalize xs.mapM (fun x => (g₀.unfolding x).replace s) run'.pass.graph = q at hrest ⊢
      cases hrest with
      | error run => exact .error run
      | @ok ys run'' hsound'' hext' hmarks'' hys =>
        refine .ok run'' hsound'' (hext.trans hext') (fun i => (hmarks'' i).trans (hmarks' i))
          (.cons ?_ hys)
        exact hy.extend hsound'.regular.toWellFormed (hs.extend hsound'.extends_graph)
          (hsound'.tame (hxs x List.mem_cons_self)) hsound''.regular.toWellFormed hext'

theorem Sound.extend (h : s.Sound V g₀ run) (hs : s.Within g₀) (hg : g.Regular)
    (hx : run.pass.graph.Extends g) : s.Sound V g₀ ⟨run.memo, ⟨g, ()⟩⟩ where
  extends_graph := h.extends_graph.trans hx
  regular := hg
  finished x y hxy := by
    obtain ⟨hxe, hy⟩ := h.finished x y hxy
    exact ⟨hxe, hy.extend h.regular.toWellFormed (hs.extend h.extends_graph) (h.tame hxe)
      hg.toWellFormed hx⟩

theorem Sound.enter (h : s.Sound V g₀ run) (x : NodeId) :
    s.Sound V g₀ ⟨run.memo.enter x, run.pass⟩ where
  extends_graph := h.extends_graph
  regular := h.regular
  finished i y hi := by
    rw [Memo.mark?_enter] at hi
    split at hi
    · cases hi
    · exact h.finished i y hi

theorem Sound.store (h : s.Sound V g₀ run) {y : NodeId} (hx : g₀.Elementary V x)
    (hy : s.Replaces run.pass.graph x y) : s.Sound V g₀ ⟨run.memo.store x y, run.pass⟩ where
  extends_graph := h.extends_graph
  regular := h.regular
  finished i z hi := by
    rw [Memo.mark?_store] at hi
    split at hi
    · cases hi
      subst i
      exact ⟨hx, hy⟩
    · exact h.finished i z hi

/-- A node whose operands have not changed is what would be built over them. -/
theorem rebuild_mimics {answer : NodeId → EStateM Error (Run Unit) NodeId} {ys : List NodeId}
    (hs : s.Within g₀) (hx : g₀.Elementary V x) (hv : s.value? x = none)
    (hsound : s.Sound V g₀ run)
    (hys : List.Forall₂ (s.Replaces run.pass.graph) (g₀.operands x) ys) :
    Mimics s V g₀ run (fun y g => s.Replaces g x y)
      (((if ys = g₀.operands x then pure x else Dialogue.build (withOperands x ys) :
        Dialogue (Pass Unit) NodeId) run.pass).run answer run.memo)
      (withOperands x ys run.pass.graph) := by
  have hg := hsound.regular.toWellFormed
  have hxe := hsound.extends_graph.elementary hx
  have htame := hsound.tame hx
  rw [← hsound.extends_graph.operands_eq hx.lt_size] at hys ⊢
  split
  · next he =>
    have hfound := Graph.withOperands_operands hsound.regular htame.lt_size hxe.isLoop_eq
      htame.settled fun y hy => (htame.operands hxe.isLoop_eq y hy).settled
    rw [he, hfound]
    exact .ok run hsound (.refl _) (fun _ => Iff.rfl)
      (.rebuilt hxe.isLoop_eq hv (he ▸ hys) hfound)
  · have hlasting := Replaces.lasting hg (hs.extend hsound.extends_graph) htame hxe.isLoop_eq hys
    have hregular := Graph.withOperands_regular hsound.regular x ys
    unfold Graph.Lasting Graph.Meets at hlasting
    unfold Dialogue.build
    cases he : withOperands x ys run.pass.graph with
    | error e g =>
      simp only [he]
      exact .error ⟨run.memo, ⟨g, ()⟩⟩
    | ok y g =>
      simp only [he] at hlasting hregular ⊢
      obtain ⟨hwf, hgrows, -, hfound⟩ := hlasting
      have hext := hgrows.toExtends
      have hboth := (List.forall₂_and_left _ _).2 ⟨htame.operands hxe.isLoop_eq, hys⟩
      have hys' := hboth.imp fun _ _ h =>
        h.2.extend hg (hs.extend hsound.extends_graph) h.1 hwf hext
      rw [← hext.operands_eq hxe.lt_size] at hys'
      have hy : s.Replaces g x y :=
        .rebuilt (hext.elementary hxe).isLoop_eq hv hys' (hfound g hwf (.refl g))
      exact .ok _ (hsound.extend hs hregular hext) hext (fun _ => Iff.rfl) hy

theorem operands_mimics {answer : NodeId → EStateM Error (Run Unit) NodeId}
    (hg₀ : g₀.WellFormed) (hs : s.Within g₀) (hx : g₀.Elementary V x) (hv : s.value? x = none)
    (hsound : s.Sound V g₀ run) (hanswer : ∀ y ∈ g₀.operands x, s.Mimicking V g₀ run answer y) :
    Mimics s V g₀ run (fun y g => s.Replaces g x y)
      ((Dialogue.operands x run.pass).run answer run.memo)
      ((g₀.unfolding x).replace s run.pass.graph) := by
  have hops := askAll_mimics hs hx.operands hsound (fun _ => Iff.rfl) hanswer
  have hrun : Dialogue.operands x run.pass = (Dialogue.askAll (g₀.operands x) run.pass).bind
      fun ys p => (if ys = g₀.operands x then pure x else Dialogue.build (withOperands x ys) :
        Dialogue (Pass Unit) NodeId) p := by
    rw [← hsound.extends_graph.operands_eq hx.lt_size]
    rfl
  rw [hrun, Step.run_bind, hx.replace_unfolding hg₀, hv]
  simp only [bind, EStateM.bind]
  generalize (Dialogue.askAll (g₀.operands x) run.pass).run answer run.memo = r at hops ⊢
  generalize (g₀.operands x).mapM (fun y => (g₀.unfolding y).replace s) run.pass.graph = q at hops ⊢
  cases hops with
  | error run => exact .error run
  | ok run' hsound' hext hmarks hys =>
    exact (rebuild_mimics hs hx hv hsound' hys).frame hext hmarks

/-- What a node has become is found again in its tree. -/
theorem Sound.mimics {y : NodeId} (h : s.Sound V g₀ run) (hg₀ : g₀.WellFormed)
    (hx : g₀.Elementary V x) (hy : s.Replaces run.pass.graph x y) :
    Mimics s V g₀ run (fun y g => s.Replaces g x y) (.ok y run)
      ((g₀.unfolding x).replace s run.pass.graph) := by
  have hg := h.regular.toWellFormed
  rw [← hx.unfolding_extend hg₀ hg h.extends_graph,
    hy.replace_unfolding h.regular (h.extends_graph.elementary hx)]
  exact .ok run h (.refl _) (fun _ => Iff.rfl) hy

/-- The outcome of a rule that leads to a node. -/
def leadsTo : EStateM.Result Error (Run Unit) NodeId →
    EStateM.Result Error (Run Unit) (Option NodeId)
  | .ok y run => .ok (some y) run
  | .error e run => .error e run

theorem transform_eq (s : Substitution) (x : NodeId) (p : Pass Unit) :
    s.rules.transform x p =
      match s.value? x, p.graph.shape x with
      | some y, _ => .done (.ok (some y) p)
      | none, .constant _ | none, .symbol _ => .done (.ok (some x) p)
      | none, _ => (Dialogue.operands x p).bind fun y p => .done (.ok (some y) p) := by
  simp only [rules]
  cases s.value? x with
  | some y => rfl
  | none =>
    simp only [Dialogue.structural, bind, Dialogue.graph, Step.bind]
    cases p.graph.shape x <;> rfl

theorem transform_mimics {answer : NodeId → EStateM Error (Run Unit) NodeId}
    (hg₀ : g₀.WellFormed) (hs : s.Within g₀) (hx : g₀.Elementary V x)
    (hsound : s.Sound V g₀ run) (hanswer : ∀ y ∈ g₀.operands x, s.Mimicking V g₀ run answer y) :
    ∃ r, (s.rules.transform x run.pass).run answer run.memo = leadsTo r ∧
      Mimics s V g₀ run (fun y g => s.Replaces g x y) r
        ((g₀.unfolding x).replace s run.pass.graph) := by
  have hg := hsound.regular.toWellFormed
  have hshape := hsound.extends_graph.shape_eq hx.lt_size
  have hloop := (hsound.extends_graph.elementary hx).isLoop_eq
  rw [transform_eq, hshape]
  cases hv : s.value? x with
  | some y => exact ⟨.ok y run, rfl, hsound.mimics hg₀ hx (.bound hv)⟩
  | none =>
    have hleaf : (g₀.shape x).IsLeaf →
        s.Mimics V g₀ run (fun y g => s.Replaces g x y) (.ok x run) _ := fun hleaf =>
      hsound.mimics hg₀ hx (.leaf hg hloop hv (hshape ▸ hleaf))
    have hoperands := operands_mimics hg₀ hs hx hv hsound hanswer
    cases hs : g₀.shape x with
    | constant | symbol => exact ⟨.ok x run, rfl, hleaf (by rw [hs]; trivial)⟩
    | _ =>
      refine ⟨_, ?_, hoperands⟩
      simp only [Step.run_bind]
      cases (Dialogue.operands x run.pass).run answer run.memo <;> rfl

theorem Mimics.settle {r : EStateM.Result Error (Run Unit) NodeId}
    {q : EStateM.Result Error Graph NodeId} (hs : s.Within g₀) (hx : g₀.Elementary V x)
    (hmark : run.memo.mark? x = none)
    (h : s.Mimics V g₀ ⟨run.memo.enter x, run.pass⟩ (fun y g => s.Replaces g x y) r q) :
    s.Mimics V g₀ run (fun y g => s.Replaces g x y) (settle x (leadsTo r)) q := by
  cases h with
  | @error e run' => exact .error ⟨run'.memo.release x, run'.pass⟩
  | @ok y run' hsound hext hmarks hy =>
    have hg := hsound.regular.toWellFormed
    have hlt : y < run'.pass.graph.size :=
      hy.lt_size hg (hs.extend hsound.extends_graph) (hsound.tame hx)
    have hc : run'.pass.graph.contains y = true := decide_eq_true hlt
    rw [leadsTo, ExactAlgebra.settle, if_pos hc]
    refine .ok ⟨run'.memo.store x y, run'.pass⟩ (hsound.store hx hy) hext (fun i => ?_) hy
    rw [Memo.mark?_store]
    have hi := hmarks i
    rw [Memo.mark?_enter] at hi
    split
    · next he =>
      subst i
      rw [hmark]
      simp
    · next he => rwa [if_neg he] at hi

/-- The induction is on the depth that is left. Only nodes with larger numbers are being
transformed, so that an expression is never met inside its own transformation. -/
theorem apply_mimics (hg₀ : g₀.WellFormed) (hs : s.Within g₀) (hx : g₀.Elementary V x)
    (hdepth : x < depth) (hsound : s.Sound V g₀ run)
    (habove : ∀ i, run.memo.mark? i = some .inProgress → x < i) :
    Mimics s V g₀ run (fun y g => s.Replaces g x y) (s.rules.apply depth x run)
      ((g₀.unfolding x).replace s run.pass.graph) := by
  induction depth generalizing x run with
  | zero => exact absurd hdepth (Nat.not_lt_zero x)
  | succ depth ih =>
    have hc : run.pass.graph.contains x = true :=
      decide_eq_true (hsound.extends_graph.lt_size hx.lt_size)
    simp only [Rules.apply, hc, Bool.not_true, Bool.false_eq_true, if_false]
    cases hmark : run.memo.mark? x with
    | some mark =>
      cases mark with
      | inProgress => exact absurd (habove x hmark) (Nat.lt_irrefl x)
      | finished y => exact hsound.mimics hg₀ hx (hsound.finished x y hmark).2
    | none =>
      have hanswer : ∀ y ∈ g₀.operands x,
          s.Mimicking V g₀ ⟨run.memo.enter x, run.pass⟩ (s.rules.apply depth) y := by
        intro y hy run' hsound' hmarks
        have hyx := hg₀.operands_lt x hx.isLoop_eq y hy
        have hy' := hyx.trans_le (Nat.le_of_lt_succ hdepth)
        refine ih (hx.operands y hy) hy' hsound' fun i hi => ?_
        rw [hmarks, Memo.mark?_enter] at hi
        split at hi
        · next he => exact he ▸ hyx
        · exact hyx.trans (habove i hi)
      obtain ⟨r, hr, hmimics⟩ := transform_mimics hg₀ hs hx (hsound.enter x) hanswer
      rw [hr]
      exact hmimics.settle hs hx hmark

end Substitution

namespace Graph

theorem Regular.substitute_eq (hg : g.Regular) (hs : s.Within g) (hx : g.Elementary V x) :
    substitute s x g = (g.unfolding x).replace s g := by
  have hempty : ∀ i, ({} : Memo).mark? i = none := fun i => by simp [Memo.mark?]
  rw [substitute]
  split
  · next hnil =>
    obtain rfl := List.isEmpty_iff.1 hnil
    have hself : Substitution.Replaces [] g x x := .self hg (hx.tame hg) fun _ _ => rfl
    rw [hself.replace_unfolding hg hx]
  · have hsound : s.Sound V g ⟨{}, ⟨g, ()⟩⟩ :=
      ⟨.refl g, hg, fun i y hi => absurd ((hempty i).symm.trans hi) (by simp)⟩
    have hmimics := Substitution.apply_mimics hg.toWellFormed hs hx (Nat.lt_succ_of_lt hx.lt_size)
      hsound fun i hi => absurd ((hempty i).symm.trans hi) (by simp)
    rw [substitutionDepth]
    generalize s.rules.apply (g.size + 1) x ⟨{}, ⟨g, ()⟩⟩ = r at hmimics ⊢
    generalize (g.unfolding x).replace s g = q at hmimics ⊢
    cases hmimics with
    | error => rfl
    | ok => rfl

/--
In every graph that programs reach, substitution into an expression without self-reference is
replacement in its tree: it ends in the same way, with the same node and the same graph. Only for
lack of room may there be no such node.
-/
theorem Reachable.substitute_eq_replace (hg : g.Reachable) (hs : s.Within g)
    (hx : g.Elementary V x) :
    Graph.substitute s x g = (g.unfolding x).replace s g ∧
      Meets Overflow (Graph.substitute s x) g fun y g' => y < g'.size := by
  refine ⟨hg.regular.substitute_eq hs hx, ?_⟩
  have htame : s.Tame g x := hx.tame hg.regular
  apply (hg.regular.substitute_replaces hs htame).mono
  intro y g' hg' hext hy
  exact hy.lt_size hg' (hs.extend hext) (htame.extend hg.regular.toWellFormed hg' hext)

theorem doubled_substitute_eq_replace :
    doubled.Reachable ∧ Substitution.Within [(2, 3), (2, 1)] doubled ∧
      doubled.Elementary .all 3 ∧
      substitute [(2, 3), (2, 1)] 3 doubled =
        (doubled.unfolding 3).replace [(2, 3), (2, 1)] doubled ∧
      Meets Overflow (substitute [(2, 3), (2, 1)] 3) doubled fun y g' => y < g'.size := by
  have hs : Substitution.Within [(2, 3), (2, 1)] doubled := by unfold Substitution.Within; decide
  have hx := doubled_loopFree.elementary doubled_reachable.regular.toWellFormed (x := 3) (by decide)
  exact ⟨doubled_reachable, hs, hx, doubled_reachable.substitute_eq_replace hs hx⟩

end Graph

end ExactAlgebra
