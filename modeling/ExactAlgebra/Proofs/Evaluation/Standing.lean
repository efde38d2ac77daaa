import ExactAlgebra.Proofs.Evaluation.Course
import ExactAlgebra.Proofs.Evaluation.Evolution

/-!
Canonical forms that stand. A self-referential node that is its own form is evaluated to itself from
then on, whatever else is built and evaluated, since a form is only recorded for a node that had
none when its evaluation began. What a node is evaluated to on its own, and not inside another, is
such a form.
-/

namespace ExactAlgebra

namespace Graph

variable {α : Type} {g g' g'' : Graph} {x y : NodeId}

/-! ### What records no form -/

/-- The course on which no form is recorded. -/
def recordless : Course where
  Leads g g' := g.WellFormed → g'.WellFormed ∧ g.Develops g' ∧ g'.forms = g.forms
  refl g hg := ⟨hg, .refl g, rfl⟩
  trans h h' hg := by
    obtain ⟨hg', hd, hforms⟩ := h hg
    obtain ⟨hg'', hd', hforms'⟩ := h' hg'
    exact ⟨hg'', hd.trans hd', hforms'.trans hforms⟩
  construct c g hg := by
    obtain ⟨hg', hx⟩ := (Grows.changing (c.build_holds growing.builders)).final hg
    exact ⟨hg', hx.develops, hx.forms_eq⟩

theorem Grows.recordless {m : Build α} (h : Grows m) : recordless.builders.Holds m := by
  intro g hg
  obtain ⟨hg', hx⟩ := h.changing.final hg
  exact ⟨hg', hx.develops, hx.forms_eq⟩

theorem closeLoop_recordless (x y : NodeId) : recordless.builders.Holds (closeLoop x y) := by
  intro g hg
  obtain ⟨hg', hd⟩ := (closeLoop_developing x y).final hg
  refine ⟨hg', hd, ?_⟩
  rcases closeLoop_cases x y g with ⟨e, he⟩ | ⟨label, -, -, -, he⟩ <;> rw [he] <;> rfl

theorem Changes.of_final {R : Graph → Graph → Prop} {E : Error → Graph → Prop} {m : Build α}
    {Q : α → Graph → Prop} (hg : (final (m g)).WellFormed) (hR : R g (final (m g)))
    (hE : ∀ e g', E e g') (hQ : ∀ a g', Q a g') : Changes R E m g Q := by
  unfold Changes
  cases he : m g with
  | ok a g' =>
    rw [he] at hg hR
    exact ⟨hg, hR, hQ a g'⟩
  | error e g' =>
    rw [he] at hg hR
    exact ⟨hg, hR, hE e g'⟩

/-! ### Own forms -/

/-- `g'` came of `g`, and what is its own form in `g` is so in `g'`. -/
structure Upholds (g g' : Graph) : Prop extends Develops g g' where
  form_eq : ∀ y, g.form? y = some y → g'.form? y = some y

namespace Upholds

theorem of_forms_eq (hd : g.Develops g') (hforms : g'.forms = g.forms) : g.Upholds g' where
  toDevelops := hd
  form_eq y hy := by rwa [form?, hforms]

theorem refl (g : Graph) : g.Upholds g := .of_forms_eq (.refl g) rfl

theorem trans (h : g.Upholds g') (h' : g'.Upholds g'') : g.Upholds g'' where
  toDevelops := h.toDevelops.trans h'.toDevelops
  form_eq y hy := h'.form_eq y (h.form_eq y hy)

end Upholds

/-- Whatever is built, no form is recorded. -/
theorem Action.after_upholds (a : Action) (ha : ∀ x form, a ≠ .recordForm x form)
    (hg : g.WellFormed) : g.Upholds (a.after g) := by
  have hleads : recordless.Leads g (a.after g) := by
    cases a with
    | construct c => exact recordless.construct c g
    | openLoop label => exact (openLoop_grows label).recordless g
    | closeLoop x y => exact closeLoop_recordless x y g
    | recordForm x form => exact absurd rfl (ha x form)
  obtain ⟨-, hd, hforms⟩ := hleads hg
  exact .of_forms_eq hd hforms

theorem form?_insert (g : Graph) (x form y : NodeId) :
    form? { g with forms := g.forms.insert x form } y = if x = y then some form else g.form? y := by
  simp only [form?, Std.HashMap.getElem?_insert, beq_iff_eq]

theorem develops_recordForm (g : Graph) (x form : NodeId) :
    g.Develops { g with forms := g.forms.insert x form } :=
  Extends.develops ⟨Nat.le_refl _, fun _ _ => rfl, List.prefix_rfl⟩

end Graph

open ExactAlgebra.Graph (Changing Develops Upholds recordless)

variable {library : Library} {F : Freedom} {g g' : Graph} {depth : Nat} {x y : NodeId}

/-- The freedom to do anything as long as `y` is its own form, and is left so. -/
def standing (y : NodeId) : Freedom where
  contract :=
    { Frame g g' := g.Develops g' ∧ (g.form? y = some y → g'.form? y = some y)
      Asks _ g _ := g.form? y = some y
      Answers _ _ _ := True
      Below _ _ _ := True
      Fails _ _ := True
      frame_refl g := ⟨.refl g, id⟩
      frame_of_growsTo _ h := ⟨h.develops, fun hy => by rwa [Graph.form?, h.forms_eq]⟩
      frame_trans h h' := ⟨h.1.trans h'.1, fun hy => h'.2 (h.2 hy)⟩
      frame_lt_size h hx := h.1.lt_size hx
      answers_frame _ _ _ _ _ := trivial
      below_frame _ _ _ _ _ := trivial
      below_trans _ _ := trivial
      answers_self _ _ := trivial
      fails_outside _ _ := trivial
      fails_exhausted _ := trivial }
  Free g _ := g.form? y = some y
  asks h := h
  fails := trivial
  below _ := trivial
  free_frame _ _ hf h := hf.2 h

namespace Evaluation

theorem canonicalLoop_recordless (x body : NodeId) :
    recordless.builders.Holds (canonicalLoop x body) := by
  apply canonicalLoop_holds recordless.builders
  intro name x body
  apply recordless.builders.bind (Graph.openLoop_grows name).recordless
  intro slot
  apply recordless.builders.bind (Graph.substitute_leads recordless _ body)
  intro content
  apply recordless.builders.bind (Graph.closeLoop_recordless slot content)
  intro _
  exact recordless.builders.pure slot

/-- A node without a form is evaluated to what is then recorded as its form, and, if this is
self-referential, as its own form. -/
theorem selfReferential_meets (hlib : library.Changing F.contract.Frame)
    (hkeep : ∀ {g g' : Graph}, g.Develops g' → g'.forms = g.forms → F.contract.Frame g g')
    (hrecord : ∀ (g : Graph) (form : NodeId),
      F.contract.Frame g { g with forms := g.forms.insert x form } ∧
        F.contract.Frame g { g with forms := g.forms.insert form form })
    (hg : g.WellFormed) (hx : x < g.size) (hfree : F.Free g x) (hnone : g.form? x = none) :
    (selfReferential library x).Meets F.contract depth x g fun form g' =>
      g'.form? x = some form ∧ (g'.isLoop form = true → g'.form? form = some form) := by
  have hrecords : ∀ (z : NodeId) (form : NodeId) {g : Graph}, g.WellFormed →
      F.contract.Frame g { g with forms := g.forms.insert z form } →
      (Dialogue.build (Graph.recordForm z form) : Evaluating Unit).Meets F.contract depth x g
        fun _ g' => g' = { g with forms := g.forms.insert z form } := fun z form g hg hf _ =>
    ⟨hg.recordForm z form, hf, rfl⟩
  apply Dialogue.Meets.graph
  rw [hnone]
  apply (byShape_wanders hlib x hg hx hfree).bind
  intro body g₁ hg₁ _ _
  have hcanonical : (Dialogue.build (canonicalLoop x body) : Evaluating NodeId).Meets F.contract
      depth x g₁ fun _ _ => True := by
    obtain ⟨hg₂, hd, hforms⟩ := canonicalLoop_recordless x body g₁ hg₁
    apply Dialogue.Meets.change
    exact .of_final hg₂ (hkeep hd hforms) (fun _ _ => F.fails) fun _ _ => trivial
  apply hcanonical.bind
  intro form g₂ hg₂ _ _
  apply (hrecords x form hg₂ (hrecord g₂ form).1).bind
  rintro _ g₃ hg₃ _ rfl
  apply Dialogue.Meets.graph
  apply Dialogue.Meets.ite
  · intro hl
    apply (hrecords form form hg₃ (hrecord _ form).2).bind
    rintro _ g₄ hg₄ _ rfl
    refine .pure hg₄ ⟨?_, fun _ => ?_⟩
    · rw [Graph.form?_insert, Graph.form?_insert, if_pos rfl, ite_self]
    · rw [Graph.form?_insert, if_pos rfl]
  · intro hl
    refine .pure hg₃ ⟨?_, fun hl' => absurd hl' hl⟩
    rw [Graph.form?_insert, if_pos rfl]

theorem standing_frame (h : g.Upholds g') (y : NodeId) : (standing y).contract.Frame g g' :=
  ⟨h.toDevelops, h.form_eq y⟩

/-- Where functions leave what is its own form as it is, so does the rule for each node. -/
theorem rules_stand (hlib : library.Changing Upholds) (hg : g.WellFormed) (hy : g.form? y = some y)
    (hx : x < g.size) :
    ((rules library).transform x).Meets (standing y).contract depth x g
      ((standing y).contract.Settles x) := by
  have hlib' : library.Changing (standing y).contract.Frame := fun f accepts run hf xs =>
    (hlib f accepts run hf xs).mono fun _ _ _ h => standing_frame h y
  have hkeep : ∀ {g g' : Graph}, g.Develops g' → g'.forms = g.forms →
      (standing y).contract.Frame g g' := fun hd hforms => standing_frame (.of_forms_eq hd hforms) y
  have hsettles : ∀ z g', (standing y).contract.Settles x (some z) g' := fun z g' =>
    ⟨fun _ _ _ => trivial, fun _ => trivial⟩
  apply Dialogue.Meets.graph
  apply Dialogue.Meets.ite
  · intro _
    have hself : (selfReferential library x).Meets (standing y).contract depth x g
        fun _ _ => True := by
      cases hform : g.form? x with
      | some form =>
        apply Dialogue.Meets.graph
        rw [hform]
        exact .pure hg trivial
      | none =>
        -- The node has no form, and so is not the one that is its own.
        have hne : x ≠ y := by
          rintro rfl
          rw [hform] at hy
          cases hy
        refine (selfReferential_meets hlib' hkeep ?_ hg hx hy hform).mono fun _ _ _ _ _ => trivial
        intro g form
        refine ⟨⟨Graph.develops_recordForm g x form, fun hy => ?_⟩,
          Graph.develops_recordForm g form form, fun hy => ?_⟩
        · rw [Graph.form?_insert, if_neg hne, hy]
        · rw [Graph.form?_insert, hy]
          split_ifs with he
          · rw [he]
          · rfl
    exact hself.bind fun z g' hg' _ _ => .pure hg' (hsettles z g')
  · intro _
    apply (byShape_wanders hlib' x hg hx hy).bind
    exact fun z g' hg' _ _ => .pure hg' (hsettles z g')

theorem evaluateIn_stands (hlib : library.Changing Upholds) (y : NodeId) (depth : Nat) :
    Replies (standing y).contract depth (evaluateIn library depth) :=
  Rules.replies (rules library) (fun _ => rfl)
    (fun _ _ _ hg hy hx => rules_stand hlib hg hy hx) depth

/-- What a node without a form is evaluated to, while no other is, is recorded as its form, and as its
own form if it is self-referential. -/
theorem rules_record (hlib : library.Changing Develops) (hg : g.WellFormed) (hx : g.isLoop x = true)
    (hnone : g.form? x = none) :
    ((rules library).transform x).Meets developing.contract depth x g fun r g' =>
      ∀ form, r = some form →
        g'.form? x = some form ∧ (g'.isLoop form = true → g'.form? form = some form) := by
  have hlib' : library.Changing developing.contract.Frame := hlib
  apply Dialogue.Meets.graph
  rw [hx, if_pos rfl]
  have hself : (selfReferential library x).Meets developing.contract depth x g fun form g' =>
      g'.form? x = some form ∧ (g'.isLoop form = true → g'.form? form = some form) :=
    selfReferential_meets hlib' (fun hd _ => hd)
      (fun g form => ⟨Graph.develops_recordForm g x form, Graph.develops_recordForm g form form⟩)
      hg (Graph.lt_size_of_isLoop hx) trivial hnone
  apply hself.bind
  intro form g' hg' _ h
  refine .pure hg' ?_
  rintro _ ⟨⟩
  exact h

theorem evaluateIn_develops (hlib : library.Changing Develops) (depth : Nat) :
    Replies developing.contract depth (evaluateIn library depth) := by
  have hlib' : library.Changing developing.contract.Frame := hlib
  apply Rules.replies (rules library) fun _ => rfl
  intro depth x g hg _ hx
  apply (transform_wanders hlib' id x hg hx trivial).mono
  exact fun _ _ _ _ _ => ⟨fun _ _ _ => trivial, fun _ => trivial⟩

end Evaluation

open Evaluation

theorem Outcome.final {τ α : Type} {c : Contract} {m : Memo} {Q : α → Graph → Prop}
    {r : EStateM.Result Error (Run τ) α} (h : Outcome c g m Q r) :
    (final r).pass.graph.WellFormed ∧ c.Frame g (final r).pass.graph := by
  cases r with
  | ok a run => exact ⟨h.1, h.2.1⟩
  | error e run => exact ⟨h.1, h.2.1⟩

theorem Library.Changing.mono {R R' : Graph → Graph → Prop} (h : library.Changing R)
    (hR : ∀ g g', R g g' → R' g g') : library.Changing R' := fun f accepts run hf xs =>
  (h f accepts run hf xs).mono fun g g' _ => hR g g'

namespace Graph

variable {g'' : Graph}

theorem evaluate_upholds (hlib : library.Changing Upholds) (depth : Nat) (x : NodeId) :
    Changing Upholds (evaluate library depth x) := by
  intro g hg
  have hdevelops : library.Changing Develops := hlib.mono fun _ _ h => h.toDevelops
  have hout := (evaluateIn_develops hdevelops depth x g {} {} hg (Memo.holds_empty _ g) trivial
    (Memo.leads_empty _ g x)).final
  have hstands : ∀ y, g.form? y = some y →
      (final (evaluateIn library depth x (.start g))).pass.graph.form? y = some y := fun y hy =>
    (evaluateIn_stands hlib y depth x g {} {} hg (Memo.holds_empty _ g) hy
      (Memo.leads_empty _ g x)).final.2.2 hy
  have hall : (final (evaluateIn library depth x (.start g))).pass.graph.WellFormed ∧
      g.Upholds (final (evaluateIn library depth x (.start g))).pass.graph :=
    ⟨hout.1, hout.2, hstands⟩
  unfold evaluate
  cases he : evaluateIn library depth x (.start g) <;> rw [he] at hall <;> exact hall

theorem transform_own (hl : g.isLoop y = true) (hy : g.form? y = some y) (log : Journal) :
    (rules library).transform y ⟨g, log⟩ = .done (.ok (some y) ⟨g, log⟩) := by
  have hrule : (rules library).transform y ⟨g, log⟩ =
      (if g.isLoop y = true then do return some (← selfReferential library y)
        else do return some (← byShape library y) : Evaluating (Option NodeId)) ⟨g, log⟩ := rfl
  have hself : selfReferential library y ⟨g, log⟩ = .done (.ok y ⟨g, log⟩) := by
    simp only [selfReferential, bind, Dialogue.graph, Step.bind, hy]
    rfl
  rw [hrule, if_pos hl]
  exact congrArg (Step.bind · _) hself

/-- A self-referential node that is its own form is evaluated to itself, and nothing changes. -/
theorem evaluate_own (hl : g.isLoop y = true) (hy : g.form? y = some y) (depth : Nat) :
    evaluate library (depth + 1) y g = .ok y g := by
  have hc : g.contains y = true := decide_eq_true (lt_size_of_isLoop hl)
  have hmark : Memo.mark? {} y = none := by simp [Memo.mark?]
  simp only [evaluate, evaluateIn, Run.start, Rules.apply, hc, hmark, transform_own hl hy, Step.run,
    settle, Bool.not_true, Bool.false_eq_true, if_false, if_true]

/-- What a self-referential node without a form is evaluated to on its own is its form. -/
theorem evaluate_records (hlib : library.Changing Develops) (hg : g.WellFormed)
    (hl : g.isLoop x = true) (hnone : g.form? x = none)
    (he : evaluate library depth x g = .ok y g') :
    g'.form? x = some y ∧ (g'.isLoop y = true → g'.form? y = some y) := by
  have hlt := lt_size_of_isLoop hl
  have hc : g.contains x = true := decide_eq_true hlt
  have hmark : Memo.mark? {} x = none := by simp [Memo.mark?]
  cases depth with
  | zero => cases he
  | succ depth =>
    have hout := (rules_record hlib hg hl hnone {}).run hg
      ((evaluateIn_develops hlib depth).within (Memo.enter {} x)) ((Memo.holds_empty _ g).enter x)
      ((Memo.leads_empty _ g x).around_enter hlt) fun _ => .rfl
    simp only [evaluate, evaluateIn, Run.start, Rules.apply, hc, hmark, Bool.not_true,
      Bool.false_eq_true, if_false] at he
    unfold evaluateIn at hout
    cases hr : ((rules library).transform x ⟨g, {}⟩).run ((rules library).apply depth)
        (Memo.enter {} x) with
    | error e run =>
      rw [hr] at he
      cases he
    | ok r run =>
      rw [hr] at he hout
      obtain ⟨-, -, -, -, hform⟩ := hout
      cases r with
      | none => cases he
      | some z =>
        simp only [settle] at he
        split_ifs at he
        · cases he
          exact hform y rfl

/-- A self-referential node that had no form is evaluated to a node that stays what it is: whatever is
built and evaluated afterwards, evaluating it again changes nothing. -/
theorem evaluate_evaluate (hlib : library.Changing Upholds) (hg : g.WellFormed)
    (hl : g.isLoop x = true) (hnone : g.form? x = none)
    (he : evaluate library depth x g = .ok y g') (hy : g'.isLoop y = true) (hup : g'.Upholds g'')
    (d : Nat) : evaluate library (d + 1) y g'' = .ok y g'' := by
  have hdevelops : library.Changing Develops := hlib.mono fun _ _ h => h.toDevelops
  have hown := (evaluate_records hdevelops hg hl hnone he).2 hy
  apply evaluate_own _ (hup.form_eq y hown)
  rcases hup.node_eq y (lt_size_of_isLoop hy) with hn | ⟨-, hl⟩
  · rw [isLoop, hn]
    exact hy
  · exact hl

end Graph

end ExactAlgebra
