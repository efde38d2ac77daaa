import ExactAlgebra.Proofs.Collection.Reach
import ExactAlgebra.Proofs.Evaluation.Elementary
import ExactAlgebra.Proofs.Evaluation.Evolution
import ExactAlgebra.Proofs.Graph.Forms
import ExactAlgebra.Proofs.Transform.Reach

/-!
How evaluation can fail on expressions whose calls go to functions of rationals, self-referential
ones included. What a rule builds is made of what its node is made of, so that no question leaves
the graph, no function is called that could reply from another graph, and a substitution fails only
where its replacements are not given by arrows.
-/

namespace ExactAlgebra

open ExactAlgebra.Graph (Meets Overflow Vocabulary)

variable {library : Library} {V P : Vocabulary} {g g' : Graph} {depth : Nat} {x y z l r : NodeId}
variable {xs : List NodeId}

/-- All functions of a vocabulary are functions of rationals. -/
def Library.Computes (library : Library) (V : Vocabulary) : Prop :=
  ∀ f, V.callees f → library.IsReal f

namespace Evaluation

/-- The failures of an evaluation of expressions over a vocabulary. -/
inductive Failure (V : Vocabulary) (g : Graph) : Error → Prop
  | graphFull (h : Graph.capacity ≤ g.size) : Failure V g .graphFull
  | depthExhausted : Failure V g .depthExhausted
  | bindingIsNoArrow (h : V.operators .substitution) : Failure V g .bindingIsNoArrow

theorem Failure.of_overflow {e : Error} (h : Overflow e g) : Failure V g e := by
  obtain ⟨rfl, hfull⟩ := h
  exact .graphFull hfull

/-- As long as only functions of rationals are called, evaluations of expressions over a vocabulary
fail in no other way. Whatever is called, what is recorded in the graph can be relied on. -/
def guarded (library : Library) (V : Vocabulary) : Contract where
  Frame := Graph.Continues library.IsReal
  Asks _ g x := g.Consistent library.IsReal ∧ (library.Computes V → g.MadeOf V x)
  Answers g x y := g.Derives library.IsReal x y
  Below _ _ _ := True
  Fails e g := library.Computes V → Failure V g e
  frame_refl := .refl _
  frame_of_growsTo hg h := h.continues hg
  frame_trans h h' := h.trans h'
  frame_lt_size h hx := h.lt_size hx
  answers_frame hg hf hx _ h := h.extends_graph hf.toExtends hg.operands_lt_size hx
  below_frame _ _ _ _ _ := trivial
  below_trans _ _ := trivial
  answers_self _ _ := .refl _ _ _
  fails_outside h hx hV := absurd (h.2 hV).lt_size hx
  fails_exhausted _ _ := .depthExhausted

/-- Where other functions may be called, evaluation is left free. -/
def unguarded (hV : ¬ library.Computes V) : Freedom where
  contract := guarded library V
  Free g _ := g.Consistent library.IsReal
  asks h := ⟨h, fun hV' => absurd hV' hV⟩
  fails hV' := absurd hV' hV
  below _ := trivial
  free_frame _ _ hf h := hf.consistent h

/-- A node is evaluated that is made of a vocabulary `P`, the functions of which are functions of
rationals; all of `P` belongs to `V`. -/
structure Guards (library : Library) (V P : Vocabulary) : Prop where
  computes : library.Computes P
  covers : library.Computes V → ∀ {x : NodeId} {s : Shape}, P.Covers x s → V.Covers x s

variable {α : Type} {E : Error → Graph → Prop} {Q : α → Graph → Prop}

namespace Guards

theorem asks (h : Guards library V P) (hc : g.Consistent library.IsReal) (hx : g.MadeOf P x) :
    (guarded library V).Asks depth g x :=
  ⟨hc, fun hV => hx.mono fun _ _ _ => h.covers hV⟩

theorem answers (h : Guards library V P) (hx : g.MadeOf P x)
    (hy : (guarded library V).Answers g x y) : g.MadeOf P y :=
  hy P h.computes hx

theorem ask (h : Guards library V P) (hg : g.WellFormed) (hc : g.Consistent library.IsReal)
    (hx : g.MadeOf P x) :
    (Dialogue.ask x : Evaluating NodeId).Meets (guarded library V) depth z g fun y g' =>
      g'.Consistent library.IsReal ∧ g'.MadeOf P y := by
  apply (Dialogue.Meets.ask hg (h.asks hc hx) fun _ => trivial).mono
  exact fun y g' _ hf hy => ⟨hf.consistent hc, h.answers (hf.madeOf hx) hy.2.2⟩

theorem askAll (h : Guards library V P) (hg : g.WellFormed) (hc : g.Consistent library.IsReal)
    (hxs : ∀ x ∈ xs, g.MadeOf P x) :
    (Dialogue.askAll xs : Evaluating (List NodeId)).Meets (guarded library V) depth z g fun ys g' =>
      g'.Consistent library.IsReal ∧ ys.length = xs.length ∧ ∀ y ∈ ys, g'.MadeOf P y := by
  have hask : ∀ g', g'.WellFormed → (guarded library V).Frame g g' → ∀ x ∈ xs,
      (guarded library V).Asks depth g' x ∧
        (x < g'.size → (guarded library V).Below g' z x) := fun g' _ hf x hx =>
    ⟨h.asks (hf.consistent hc) (hf.madeOf (hxs x hx)), fun _ => trivial⟩
  apply (Dialogue.Meets.askAll hg hask).mono
  intro ys g' _ hf hys
  refine ⟨hf.consistent hc, hys.length_eq.symm, fun y hy => ?_⟩
  obtain ⟨x, hx, -, -, hxy⟩ := Graph.exists_of_forall₂ hys hy
  exact h.answers (hf.madeOf (hxs x hx)) hxy

theorem build {m : Build α} (hm : Meets Overflow m g Q) :
    (Dialogue.build m : Evaluating α).Meets (guarded library V) depth z g Q :=
  .build (hm.mono_error fun _ _ he _ => .of_overflow he)

end Guards

/-! ### Constructions -/

/-- The failures of reading replacements from an arrow or a set of arrows. -/
def NoArrow (e : Error) (_ : Graph) : Prop := e = .bindingIsNoArrow

theorem arrowPair_made (hg : g.WellFormed) (hx : g.MadeOf P x) :
    Meets NoArrow (Graph.arrowPair x) g fun p g' => g'.MadeOf P p.2 := by
  apply Meets.get
  cases hs : g.shape x with
  | arrow =>
    obtain ⟨k, v, hops⟩ := hg.exists_operands_pair hs fun _ h => h
    rw [hops]
    exact .pure hg (hx.operands v (by simp [hops]))
  | _ => exact .throw hg rfl

theorem arrowPairs_made (hg : g.WellFormed) (hx : g.MadeOf P x) :
    Meets NoArrow (Graph.arrowPairs x) g fun s g' => Substitution.MadeOf P g' s := by
  apply Meets.get
  have hsingle : Meets NoArrow (do return [← Graph.arrowPair x]) g fun s g' =>
      Substitution.MadeOf P g' s := by
    apply (arrowPair_made hg hx).bind
    intro p g' hg' _ hp
    apply Meets.pure hg'
    intro q hq
    rwa [List.mem_singleton.1 hq]
  cases g.shape x with
  | set =>
    apply (Meets.mapM (P := fun g x => g.MadeOf P x)
      (R := fun g _ (p : NodeId × NodeId) => g.MadeOf P p.2)
      (fun _ hx h => hx.madeOf h) (fun _ hx h => hx.madeOf h)
      (fun hg hx => arrowPair_made hg hx) hg hx.operands).mono
    intro s g' _ _ hs p hp
    obtain ⟨-, -, h⟩ := Graph.exists_of_forall₂ hs hp
    exact h
  | _ => exact hsingle

theorem boolean_made (hg : g.WellFormed) (b : Bool) : g.MadeOf P (Graph.boolean b) := by
  cases b
  · exact hg.madeOf_zero
  · exact hg.madeOf_one

theorem foldPower_made (hg : g.WellFormed) (hl : g.MadeOf P l) (hr : g.MadeOf P r) :
    Meets Overflow (foldPower l r) g fun y g' => g'.MadeOf P y := by
  rw [foldPower_eq]
  apply Meets.get
  apply Meets.ite fun _ => .pure hg hg.madeOf_zero
  intro _
  apply Meets.ite fun _ => .pure hg hg.madeOf_one
  intro _
  apply Meets.ite fun _ => .pure hg hg.madeOf_one
  intro _
  apply Meets.ite fun _ => .pure hg hl
  intro _
  cases foldedPower? (g.value? l) (g.value? r) with
  | some q => exact (Graph.constant_made hg q).mono fun _ _ _ _ h => h.1
  | none => exact Graph.power_made hg hl hr

theorem powerOfProduct_made (hg : g.WellFormed) (hxs : ∀ x ∈ xs, g.MadeOf P x)
    (hy : g.MadeOf P y) :
    Meets Overflow (powerOfProduct xs y) g fun z g' => g'.MadeOf P z := by
  have hmap : Meets Overflow (xs.mapM (Graph.power · y)) g fun zs g' =>
      List.Forall₂ (fun _ z => g'.MadeOf P z) xs zs :=
    Meets.mapM (P := fun g x => g.MadeOf P x ∧ g.MadeOf P y) (R := fun g _ z => g.MadeOf P z)
      (fun _ hx h => ⟨hx.madeOf h.1, hx.madeOf h.2⟩) (fun _ hx h => hx.madeOf h)
      (fun hg h => Graph.power_made hg h.1 h.2) hg fun x hx => ⟨hxs x hx, hy⟩
  apply hmap.bind
  intro zs g' hg' _ hzs
  apply Graph.product_made hg'
  intro z hz
  obtain ⟨-, -, h⟩ := Graph.exists_of_forall₂ hzs hz
  exact h

/-! ### Rules -/

theorem binary_guarded (h : Guards library V P) (hg : g.WellFormed)
    (hc : g.Consistent library.IsReal) {op : Operator} (hop : P.operators op)
    (hx : g.MadeOf P x) (hy : g.MadeOf P y) :
    (binary op x y).Meets (guarded library V) depth z g fun w g' => g'.MadeOf P w := by
  apply (h.ask hg hc hx).bind
  rintro l g₁ hg₁ hf₁ ⟨hc₁, hl⟩
  apply (h.ask hg₁ hc₁ (hf₁.madeOf hy)).bind
  rintro r g₂ hg₂ hf₂ ⟨hc₂, hr⟩
  have hl₂ := hf₂.madeOf hl
  apply Dialogue.Meets.ite
  · rintro rfl
    have hpairs : (Dialogue.build (Graph.arrowPairs r) : Evaluating Substitution).Meets
        (guarded library V) depth z g₂ fun s g' => Substitution.MadeOf P g' s := by
      refine .build ((arrowPairs_made hg₂ hr).mono_error ?_)
      rintro e g' rfl hV
      exact .bindingIsNoArrow (h.covers hV (x := x) (s := .binary .substitution) hop)
    apply hpairs.bind
    intro s g₃ hg₃ hf₃ hs
    apply (Guards.build (Graph.substitute_made hg₃ hs (hf₃.madeOf hl₂))).bind
    intro w g₄ hg₄ hf₄ hw
    have hc₄ := hf₄.consistent (hf₃.consistent hc₂)
    exact (h.ask hg₄ hc₄ hw).mono fun _ _ _ _ h => h.2
  · intro _
    apply Dialogue.Meets.graph
    cases binaryOutcome? op l r (g₂.value? l) (g₂.value? r) with
    | some b => exact .pure hg₂ (boolean_made hg₂ b)
    | none => exact Guards.build (Graph.binary_made hg₂ hop hl₂ hr)

theorem unary_guarded (h : Guards library V P) (hg : g.WellFormed)
    (hc : g.Consistent library.IsReal) (op : Operator) (hx : g.MadeOf P x) :
    (unary op x).Meets (guarded library V) depth z g fun w g' => g'.MadeOf P w := by
  apply (h.ask hg hc hx).bind
  rintro y g' hg' _ ⟨-, hy⟩
  apply Dialogue.Meets.graph
  apply Dialogue.Meets.ite
  · exact fun _ => .pure hg' (boolean_made hg' _)
  · exact fun _ => Guards.build (Graph.unary_made hg' op hy)

theorem power_guarded (h : Guards library V P) (hg : g.WellFormed)
    (hc : g.Consistent library.IsReal) (hx : g.MadeOf P x) (hy : g.MadeOf P y) :
    (power x y).Meets (guarded library V) depth z g fun w g' => g'.MadeOf P w := by
  apply (h.ask hg hc hx).bind
  rintro l g₁ hg₁ hf₁ ⟨hc₁, hl⟩
  have hy₁ := hf₁.madeOf hy
  apply Dialogue.Meets.graph
  apply Dialogue.Meets.ite
  · intro _
    apply (Guards.build (powerOfProduct_made hg₁ hl.operands hy₁)).bind
    intro q g₂ hg₂ hf₂ hq
    exact (h.ask hg₂ (hf₂.consistent hc₁) hq).mono fun _ _ _ _ h => h.2
  intro _
  apply (h.ask hg₁ hc₁ hy₁).bind
  rintro r g₂ hg₂ hf₂ ⟨hc₂, hr⟩
  have hl₂ := hf₂.madeOf hl
  cases ho : (g₁.node l).isOpenPower with
  | false => exact Guards.build (foldPower_made hg₂ hl₂ hr)
  | true =>
    have hs : g₁.shape l = .power := (Graph.isOpenPower_iff.1 ho).1
    obtain ⟨l', r', hops⟩ := hg₁.exists_operands_pair hs fun _ h => h
    have hl' := hf₂.madeOf (hl.operands l' (by simp [hops]))
    have hr' := hf₂.madeOf (hl.operands r' (by simp [hops]))
    rw [hops]
    have hexponents : ∀ e ∈ [r, r'], g₂.MadeOf P e := by simp [hr, hr']
    apply (Guards.build (Graph.product_made hg₂ hexponents)).bind
    intro e g₃ hg₃ hf₃ he
    apply (h.ask hg₃ (hf₃.consistent hc₂) he).bind
    rintro e' g₄ hg₄ hf₄ ⟨-, he'⟩
    exact Guards.build (foldPower_made hg₄ (hf₄.madeOf (hf₃.madeOf hl')) he')

/-- The outcomes of a call to a function of rationals. -/
def Reply.MadeOf (P : Vocabulary) (g : Graph) : Reply → Prop
  | .value x => g.MadeOf P x
  | .elsewhere _ _ => False
  | .declined | .fault _ => True

theorem ofReal_made (hg : g.WellFormed) (o : Except Error (Option Rat)) :
    Meets Overflow (Reply.ofReal o) g fun reply g' => Reply.MadeOf P g' reply := by
  rcases o with e | _ | q
  · exact .pure hg trivial
  · exact .pure hg trivial
  · exact (Graph.constant_made hg q).bind fun x g' hg' _ hx => .pure hg' hx.1

theorem invoke_guarded {f : Callee} (hg : g.WellFormed) (hf : library.IsReal f) :
    (invoke f (library f) xs).Meets (guarded library V) depth z g fun reply g' =>
      Reply.MadeOf P g' reply := by
  obtain ⟨arity, apply, hf⟩ := hf
  rw [hf]
  apply Dialogue.Meets.graph
  cases values? g xs with
  | none => exact .pure hg trivial
  | some qs =>
    apply Dialogue.Meets.ite
    · exact fun _ => .updateLog (Guards.build (ofReal_made hg _))
    · exact fun _ => .pure hg trivial

theorem call_guarded (h : Guards library V P) (hg : g.WellFormed)
    (hc : g.Consistent library.IsReal) {f : Callee} (hf : P.callees f)
    (hxs : ∀ x ∈ xs, g.MadeOf P x) :
    (call library f xs).Meets (guarded library V) depth z g fun w g' => g'.MadeOf P w := by
  apply (h.askAll hg hc hxs).bind
  rintro ys g₁ hg₁ - ⟨-, -, hys⟩
  apply (Guards.build (Graph.call_made hg₁ hf hys)).bind
  intro u g₂ hg₂ _ hu
  apply (invoke_guarded hg₂ (h.computes f hf)).bind
  intro reply g₃ hg₃ hf₃ hreply
  cases reply with
  | value x => exact .pure hg₃ hreply
  | elsewhere g x => exact hreply.elim
  | declined => exact .pure hg₃ (hf₃.madeOf hu)
  | fault message => exact .updateLog (.pure hg₃ (hf₃.madeOf hu))

theorem operands_guarded (h : Guards library V P) (hg : g.WellFormed)
    (hc : g.Consistent library.IsReal) (hx : g.MadeOf P x) :
    (Dialogue.operands x : Evaluating NodeId).Meets (guarded library V) depth z g fun w g' =>
      g'.MadeOf P w := by
  apply Dialogue.Meets.graph
  apply (h.askAll hg hc hx.operands).bind
  rintro ys g' hg' hf ⟨-, hlen, hys⟩
  apply Dialogue.Meets.ite
  · exact fun _ => .pure hg' (hf.madeOf hx)
  · intro _
    apply Guards.build
    apply Graph.withOperands_made hg' (hf.madeOf hx) hys
    rw [hlen, ← hf.operands_eq hx.lt_size]
    exact hg'.arity x

/-- Evaluation of a node by its shape leads to what is made of nothing else. -/
theorem byShape_guarded (h : Guards library V P) (hg : g.WellFormed)
    (hc : g.Consistent library.IsReal) (hx : g.MadeOf P x) :
    (byShape library x).Meets (guarded library V) depth z g fun w g' => g'.MadeOf P w := by
  have hops := hx.operands
  have hcov := hx.shape_covers
  apply Dialogue.Meets.graph
  cases hs : g.shape x with
  | constant | symbol => exact .pure hg hx
  | sum =>
    apply (h.askAll hg hc hops).bind
    rintro ys g' hg' - ⟨-, -, hys⟩
    exact Guards.build (Graph.combineTerms_made hg' hys)
  | product =>
    apply (h.askAll hg hc hops).bind
    rintro ys g' hg' - ⟨-, -, hys⟩
    exact Guards.build (Graph.combineFactors_made hg' hys)
  | power =>
    obtain ⟨b, e, he⟩ := hg.exists_operands_pair hs fun _ h => h
    rw [he] at hops ⊢
    exact power_guarded h hg hc (hops b (by simp)) (hops e (by simp))
  | binary op =>
    obtain ⟨b, e, he⟩ := hg.exists_operands_pair hs fun _ h => h
    rw [hs] at hcov
    rw [he] at hops ⊢
    exact binary_guarded h hg hc hcov (hops b (by simp)) (hops e (by simp))
  | unary op =>
    obtain ⟨b, he⟩ := hg.exists_operand hs
    rw [he] at hops ⊢
    exact unary_guarded h hg hc op (hops b (by simp))
  | call f =>
    rw [hs] at hcov
    exact call_guarded h hg hc hcov hops
  | set | arrow => exact operands_guarded h hg hc hx

end Evaluation

end ExactAlgebra
