import ExactAlgebra.Proofs.Evaluation.Reduction
import ExactAlgebra.Proofs.Transform.Halting

/-!
Evaluation by plain recursion comes to an end on elementary expressions, and leaves them collected
and folded.

Most rules ask for operands only. The rule for powers asks for more: for a product of powers, and
for a product of exponents. Without substitutions these weigh less than the power, so that the
induction is on weights and then on nodes. A substitution asks for an expression without
substitutions.
-/

namespace ExactAlgebra.Evaluation

open ExactAlgebra.Graph (Vocabulary Meets Overflow)
open ExactAlgebra.Dialogue (Halts)

variable {α : Type} {library : Library} {V : Vocabulary} {E : Error → Graph → Prop}
variable {g g' : Graph} {x y l r b e f : NodeId} {xs ys : List NodeId} {n m k : Nat}
variable {Q : α → Graph → Prop}

/-- The functions of a vocabulary are functions of rationals, and `E` has the errors that its
expressions may meet. -/
structure Permits (library : Library) (V : Vocabulary) (E : Error → Graph → Prop) : Prop where
  isReal : ∀ f, V.callees f → library.IsReal f
  overflow : ∀ e g, Overflow e g → E e g
  noArrow : V.operators .substitution → ∀ g, E .bindingIsNoArrow g

/-- Plain recursion on a node comes to an end, in whatever grows from the graph. -/
def Evaluates (library : Library) (V : Vocabulary) (E : Error → Graph → Prop) (g : Graph)
    (x : NodeId) : Prop :=
  ∀ g', g'.WellFormed → g.Extends g' →
    Halts (rules library) E (Dialogue.ask x) g' fun y g'' => g''.Reduces V x y

theorem Evaluates.extends (h : Evaluates library V E g x) (hx : g.Extends g') :
    Evaluates library V E g' x :=
  fun g'' hg'' hx' => h g'' hg'' (hx.trans hx')

/-- A node that is not self-referential is evaluated by its shape. -/
theorem ask_of_byShape {Q : NodeId → Graph → Prop} (hx : g.Elementary V x)
    (h : Halts (rules library) E (byShape library x) g fun y g' => y < g'.size ∧ Q y g') :
    Halts (rules library) E (Dialogue.ask x) g Q := by
  apply Halts.ask hx.lt_size
  apply Halts.graph
  rw [hx.isLoop_eq, if_neg Bool.false_ne_true]
  apply h.bind
  exact fun y g' hg' _ hy => .pure hg' ⟨y, rfl, hy⟩

theorem evaluates_of_byShape (hx : g.Elementary V x)
    (h : ∀ g', g'.WellFormed → g.Extends g' →
      Halts (rules library) E (byShape library x) g' fun y g'' => g''.Reduces V x y) :
    Evaluates library V E g x := by
  intro g' hg' hext
  apply ask_of_byShape (hext.elementary hx)
  exact (h g' hg' hext).mono fun _ _ _ _ hy => ⟨hy.elementary.lt_size, hy⟩

/-! ### Rules that ask for operands -/

theorem Permits.build (hE : Permits library V E) {m : Build α} (hm : Meets Overflow m g Q) :
    Halts (rules library) E (Dialogue.build m) g Q :=
  .build (hm.mono_error hE.overflow)

theorem askAll_halts (hg : g.WellFormed) (hxs : ∀ x ∈ xs, Evaluates library V E g x) :
    Halts (rules library) E (Dialogue.askAll xs) g fun ys g' =>
      List.Forall₂ (g'.Reduces V) xs ys :=
  .askAll hg (fun hg hx h => h.extends hg hx) hxs

/-- What becomes of a node that is no product. -/
theorem reduces_of_light (hg : g.WellFormed) (hext : g.Extends g') (hx : x < g.size)
    (hs : g.shape x ≠ .product) (he : g'.Elementary V y) (hc : g'.Collected y)
    (hf : g'.Folded y) (hl : ∀ n, g.Light n x → g'.Light n y) : g'.Reduces V x y := by
  apply Graph.reduces_of_light (hext.lt_size hx) he hc hf
  · rw [hext.node_eq x hx]
    exact Graph.isOpenProduct_of_shape hs
  · exact fun n hn => hl n ((hext.light_iff hg hx).1 hn)

theorem sum_halts (hE : Permits library V E) (hg : g.WellFormed) (hx : g.Elementary V x)
    (hs : g.shape x = .sum) (hops : ∀ y ∈ g.operands x, Evaluates library V E g y) :
    Halts (rules library) E
      (do Graph.combineTerms (← Dialogue.askAll (g.operands x)) : Evaluating NodeId) g
      fun y g' => g'.Reduces V x y := by
  apply (askAll_halts hg hops).bind
  intro ys g₁ hg₁ hx₁ hys
  have hall : ∀ y ∈ ys, ∃ w ∈ g.operands x, g₁.Reduces V w y := fun y hy =>
    Graph.exists_of_forall₂ hys hy
  have hcollected : ∀ y ∈ ys, g₁.Collected y := fun y hy => (hall y hy).choose_spec.2.collected
  have helementary : ∀ y ∈ ys, g₁.Elementary V y := fun y hy => (hall y hy).choose_spec.2.elementary
  have hfolded : ∀ y ∈ ys, g₁.Folded y := fun y hy => (hall y hy).choose_spec.2.folded
  apply hE.build
  apply ((Graph.combineTerms_light hg₁ hcollected).and
    ((Graph.combineTerms_folded hg₁ hcollected hfolded).and
      (Graph.combineTerms_replays hg₁ helementary))).mono
  rintro z g₂ - hx₂ ⟨⟨hz, hlight⟩, hzf, hze, -⟩
  have hx₁' := hx₁.lt_size hx.lt_size
  have hs₁ : g₁.shape x = .sum := (hx₁.shape_eq hx.lt_size).trans hs
  have hne : g₁.shape x ≠ .product := by
    rw [hs₁]
    exact Shape.noConfusion
  refine reduces_of_light hg₁ hx₂ hx₁' hne hze hz hzf fun n hn => ?_
  obtain ⟨m, hm, hmn, hthin⟩ := hn.of_sum hs₁
  rw [hx₁.operands_eq hx.lt_size] at hthin
  refine (hlight m hm fun y hy => ?_).mono hmn
  obtain ⟨w, hw, hwy⟩ := hall y hy
  exact hwy.thin m (hthin w hw)

theorem product_halts (hE : Permits library V E) (hg : g.WellFormed) (hx : g.Elementary V x)
    (hs : g.shape x = .product) (hops : ∀ y ∈ g.operands x, Evaluates library V E g y) :
    Halts (rules library) E
      (do Graph.combineFactors (← Dialogue.askAll (g.operands x)) : Evaluating NodeId) g
      fun y g' => g'.Reduces V x y := by
  apply (askAll_halts hg hops).bind
  intro ys g₁ hg₁ hx₁ hys
  have hall : ∀ y ∈ ys, ∃ w ∈ g.operands x, g₁.Reduces V w y := fun y hy =>
    Graph.exists_of_forall₂ hys hy
  have hcollected : ∀ y ∈ ys, g₁.Collected y := fun y hy => (hall y hy).choose_spec.2.collected
  have helementary : ∀ y ∈ ys, g₁.Elementary V y := fun y hy => (hall y hy).choose_spec.2.elementary
  have hfolded : ∀ y ∈ ys, g₁.Folded y := fun y hy => (hall y hy).choose_spec.2.folded
  apply hE.build
  apply ((Graph.combineFactors_thin hg₁ hcollected).and
    ((Graph.combineFactors_folded hg₁ hcollected hfolded).and
      (Graph.combineFactors_replays hg₁ helementary))).mono
  rintro z g₂ - hx₂ ⟨⟨hz, hthin⟩, hzf, hze, -⟩
  have hx₁' := hx₁.elementary hx
  have hs₁ : g₁.shape x = .product := (hx₁.shape_eq hx.lt_size).trans hs
  have hfactors : g₁.factors x = g.operands x := by
    rw [Graph.factors, Graph.isOpenProduct_iff.2 ⟨hs₁, hx₁'.isLoop_eq⟩, if_pos rfl,
      hx₁.operands_eq hx.lt_size]
  have hfrom : ∀ n, g₁.Thin n x → g₂.Thin n z := by
    intro n hn
    apply hthin n
    intro y hy
    obtain ⟨w, hw, hwy⟩ := hall y hy
    exact hwy.thin n (hn w (hfactors ▸ hw)).thin
  refine ⟨hx₂.lt_size hx₁'.lt_size, hze, hz, hzf, fun n hn => ?_, fun n hn => ?_⟩
  · exact hfrom n ((hx₂.thin_iff hg₁ hx₁'.lt_size).1 hn)
  · obtain ⟨m, hm, hmn, hlight⟩ := ((hx₂.light_iff hg₁ hx₁'.lt_size).1 hn).of_product hs₁
    refine ((hfrom m ?_).light hm).mono hmn
    rw [Graph.Thin, hfactors, ← hx₁.operands_eq hx.lt_size]
    exact hlight

theorem reduces_boolean (hg : g.WellFormed) (hx : x < g.size) (t : Bool) :
    g.Reduces V x (Graph.boolean t) := by
  cases t with
  | false =>
    exact Graph.reduces_of_value? hx hg.elementary_zero hg.collected_zero
      (Graph.value?_eq_some.2 (congrArg Node.shape hg.node_zero))
  | true =>
    exact Graph.reduces_of_value? hx hg.elementary_one hg.collected_one
      (Graph.value?_eq_some.2 (congrArg Node.shape hg.node_one))

/-- A node over evaluated operands. -/
theorem reduces_passive (hext : g.Extends g') (hx : x < g.size) (hs : (g.shape x).IsPassive)
    (hy : g'.Elementary V y) (hn : g'.node y = { shape := g.shape x, operands := ys })
    (hu : g'.Unfoldable y) (hys : List.Forall₂ (g'.Reduces V) (g.operands x) ys) :
    g'.Reduces V x y := by
  rw [← hext.shape_eq hx] at hs hn
  rw [← hext.operands_eq hx] at hys
  exact Graph.reduces_passive (hext.lt_size hx) hs hy hn hu hys

theorem binary_halts {op : Operator} (hE : Permits library V E) (hg : g.WellFormed)
    (hx : g.Elementary V x) (hs : g.shape x = .binary op) (hop : op ≠ .substitution)
    (hlr : g.operands x = [l, r]) (hl : Evaluates library V E g l)
    (hr : Evaluates library V E g r) :
    Halts (rules library) E (binary op l r) g fun y g' => g'.Reduces V x y := by
  apply (hl g hg (.refl g)).bind
  intro l' g₁ hg₁ hx₁ hl'
  apply (hr g₁ hg₁ hx₁).bind
  intro r' g₂ hg₂ hx₂ hr'
  rw [if_neg hop]
  apply Halts.graph
  have hext := hx₁.trans hx₂
  have hl₂ := hl'.extends hg₁ hx₂
  cases ho : binaryOutcome? op l' r' (g₂.value? l') (g₂.value? r') with
  | some t => exact .pure hg₂ (reduces_boolean hg₂ (hext.lt_size hx.lt_size) t)
  | none =>
    have hcov := hx.covers
    rw [hs] at hcov
    apply hE.build
    apply ((Graph.binary_meets hg₂ op hl₂.elementary.lt_size hr'.elementary.lt_size).and
      (Graph.binary_replays hg₂ hcov hl₂.elementary hr'.elementary)).mono
    rintro z g₃ - hx₃ ⟨⟨-, hn⟩, hz, -⟩
    have hu : g₃.Unfoldable z := by
      apply Graph.unfoldable_of_binary hn
      rwa [hx₃.value?_eq hl₂.elementary.lt_size, hx₃.value?_eq hr'.elementary.lt_size]
    refine reduces_passive (hext.trans hx₃) hx.lt_size (by rw [hs]; exact hop) hz (hs ▸ hn) hu ?_
    rw [hlr]
    exact .cons (hl₂.extends hg₂ hx₃) (.cons (hr'.extends hg₂ hx₃) .nil)

theorem unary_halts {op : Operator} (hE : Permits library V E) (hg : g.WellFormed)
    (hx : g.Elementary V x) (hs : g.shape x = .unary op) (hl : g.operands x = [l])
    (hle : Evaluates library V E g l) :
    Halts (rules library) E (unary op l) g fun y g' => g'.Reduces V x y := by
  apply (hle g hg (.refl g)).bind
  intro l' g₁ hg₁ hx₁ hl'
  apply Halts.graph
  apply Halts.ite
  · exact fun _ => .pure hg₁ (reduces_boolean hg₁ (hx₁.lt_size hx.lt_size) _)
  intro hkeep
  apply hE.build
  apply ((Graph.unary_meets hg₁ op hl'.elementary.lt_size).and
    (Graph.unary_replays hg₁ op hl'.elementary)).mono
  rintro z g₂ - hx₂ ⟨⟨-, hn⟩, hz, -⟩
  have hu : g₂.Unfoldable z := by
    apply Graph.unfoldable_of_unary hn
    intro hop
    rw [hx₂.value?_eq hl'.elementary.lt_size]
    simpa [hop] using hkeep
  refine reduces_passive (hx₁.trans hx₂) hx.lt_size (by rw [hs]; trivial) hz (hs ▸ hn) hu ?_
  rw [hl]
  exact .cons (hl'.extends hg₁ hx₂) .nil

/-- A reply with a constant, or without a node. -/
def Reply.IsConstant (g : Graph) : Reply → Prop
  | .value x => g.Collected x ∧ ∃ q, g.value? x = some q
  | .elsewhere _ _ => False
  | .declined | .fault _ => True

theorem ofReal_constant (hg : g.WellFormed) (o : Except Error (Option Rat)) :
    Meets Overflow (Reply.ofReal o) g fun reply g' => Reply.IsConstant g' reply := by
  rcases o with e | _ | q
  · exact .pure hg trivial
  · exact .pure hg trivial
  · exact (Graph.constant_collected hg q).bind fun x g' hg' _ hx => .pure hg' ⟨hx.1, q, hx.2⟩

theorem invoke_halts (hE : Permits library V E) (hg : g.WellFormed) {f : Callee}
    (hf : V.callees f) (xs : List NodeId) :
    Halts (rules library) E (invoke f (library f) xs) g fun reply g' =>
      Reply.IsConstant g' reply := by
  obtain ⟨arity, apply, hreal⟩ := hE.isReal f hf
  rw [hreal]
  apply Halts.graph
  simp only
  cases values? g xs with
  | none => exact .pure hg trivial
  | some qs =>
    apply Halts.ite
    · exact fun _ => .updateLog (hE.build (ofReal_constant hg _))
    · exact fun _ => .pure hg trivial

theorem call_halts {f : Callee} (hE : Permits library V E) (hg : g.WellFormed)
    (hx : g.Elementary V x) (hs : g.shape x = .call f)
    (hops : ∀ y ∈ g.operands x, Evaluates library V E g y) :
    Halts (rules library) E (call library f (g.operands x)) g fun y g' => g'.Reduces V x y := by
  have hf := hx.covers
  rw [hs] at hf
  apply (askAll_halts hg hops).bind
  intro ys g₁ hg₁ hx₁ hys
  have helementary : ∀ y ∈ ys, g₁.Elementary V y := by
    intro y hy
    obtain ⟨w, -, hwy⟩ := Graph.exists_of_forall₂ hys hy
    exact hwy.elementary
  have hcall := (Graph.call_meets hg₁ f fun y hy => (helementary y hy).lt_size).and
    (Graph.call_replays hg₁ hf helementary)
  apply (hE.build hcall).bind
  rintro u g₂ hg₂ hx₂ ⟨⟨-, hn⟩, hu, -⟩
  have hext := hx₁.trans hx₂
  have hreduces : g₂.Reduces V x u :=
    reduces_passive hext hx.lt_size (by rw [hs]; trivial) hu (hs ▸ hn)
      (Graph.unfoldable_of_isInert (by rw [Graph.shape, hn]; trivial))
      (hys.imp fun _ _ h => h.extends hg₁ hx₂)
  apply (invoke_halts hE hg₂ hf ys).bind
  intro reply g₃ hg₃ hx₃ hreply
  cases reply with
  | value z =>
    obtain ⟨hz, q, hq⟩ := hreply
    have hze := Graph.elementary_of_value? (V := V) hg₃ hz.lt_size hz.isLoop_eq hq
    exact .pure hg₃ (Graph.reduces_of_value? ((hext.trans hx₃).lt_size hx.lt_size) hze hz hq)
  | elsewhere => exact hreply.elim
  | declined => exact .pure hg₃ (hreduces.extends hg₂ hx₃)
  | fault => exact .updateLog (.pure hg₃ (hreduces.extends hg₂ hx₃))

theorem node_eq_of_not_isLoop (h : g.isLoop x = false) :
    g.node x = { shape := g.shape x, operands := g.operands x } := by
  rw [Graph.isLoop] at h
  rw [Graph.shape, Graph.operands]
  cases hn : g.node x
  rw [hn] at h
  cases h
  rfl

theorem withOperands_passive (hg : g.WellFormed) (hys : ∀ y ∈ ys, y < g.size)
    (hlen : ys.length = (g.operands x).length) (hs : g.shape x = .set ∨ g.shape x = .arrow) :
    Meets Overflow (Graph.withOperands x ys) g fun z g' =>
      g'.node z = { shape := g.shape x, operands := ys } := by
  have harity := hg.arity x
  apply Meets.get
  rcases hs with hs | hs <;> rw [hs] at harity ⊢
  · exact (Graph.set_meets hg hys).mono fun _ _ _ _ h => h.2
  · obtain ⟨l, r, rfl⟩ := List.length_eq_two.1 (hlen.trans harity)
    exact (Graph.arrow_meets hg (hys l (by simp)) (hys r (by simp))).mono fun _ _ _ _ h => h.2

/-- Sets and arrows are built over their operands. -/
theorem operands_halts (hE : Permits library V E) (hg : g.WellFormed) (hx : g.Elementary V x)
    (hs : g.shape x = .set ∨ g.shape x = .arrow)
    (hops : ∀ y ∈ g.operands x, Evaluates library V E g y) :
    Halts (rules library) E (Dialogue.operands x) g fun y g' => g'.Reduces V x y := by
  have hpassive : (g.shape x).IsPassive := by rcases hs with hs | hs <;> rw [hs] <;> trivial
  have hinert : (g.shape x).IsInert := by rcases hs with hs | hs <;> rw [hs] <;> trivial
  apply Halts.graph
  apply (askAll_halts hg hops).bind
  intro ys g₁ hg₁ hx₁ hys
  have helementary : ∀ y ∈ ys, g₁.Elementary V y := by
    intro y hy
    obtain ⟨w, -, hwy⟩ := Graph.exists_of_forall₂ hys hy
    exact hwy.elementary
  apply Halts.ite
  · rintro rfl
    have hn : g₁.node x = { shape := g.shape x, operands := g.operands x } := by
      rw [hx₁.node_eq x hx.lt_size]
      exact node_eq_of_not_isLoop hx.isLoop_eq
    refine .pure hg₁ (reduces_passive hx₁ hx.lt_size hpassive (hx₁.elementary hx) hn ?_ hys)
    exact Graph.unfoldable_of_isInert (by rwa [Graph.shape, hn])
  · intro _
    have hlen : ys.length = (g₁.operands x).length := by
      rw [hx₁.operands_eq hx.lt_size, hys.length_eq]
    have hx' := hx₁.elementary hx
    have hbuild := (withOperands_passive hg₁ (fun y hy => (helementary y hy).lt_size) hlen
      (by rwa [hx₁.shape_eq hx.lt_size])).and (Graph.withOperands_replays hg₁ hx' helementary)
    apply (hE.build hbuild).mono
    rintro z g₂ - hx₂ ⟨hn, hz, -⟩
    rw [hx₁.shape_eq hx.lt_size] at hn
    exact reduces_passive (hx₁.trans hx₂) hx.lt_size hpassive hz hn
      (Graph.unfoldable_of_isInert (by rwa [Graph.shape, hn]))
      (hys.imp fun _ _ h => h.extends hg₁ hx₂)

/-! ### Powers -/

/-- What the rule for a power asks for besides its operands: the product of the powers of the
factors of its base, and the product of two exponents. -/
structure Unfolds (library : Library) (V : Vocabulary) (E : Error → Graph → Prop) (g : Graph)
    (b e : NodeId) : Prop where
  powers : ∀ {g' : Graph} {l z}, g'.WellFormed → g.Extends g' → g'.Reduces V b l →
    (g'.node l).isOpenProduct → g'.Elementary V z →
    (∀ f ∈ g'.factors z, g'.PowerOver (g'.operands l) e f) → Evaluates library V E g' z
  exponents : ∀ {g' : Graph} {z}, g'.WellFormed → g.Extends g' → g'.Elementary V.plain z →
    (∀ m k, 1 ≤ m → g'.Light m b → g'.Thin k e → ∃ n, n < m + k ∧ g'.Thin n z) →
    Evaluates library V E g' z

theorem Unfolds.extends (h : Unfolds library V E g b e) (hx : g.Extends g') :
    Unfolds library V E g' b e where
  powers hg'' hx' := h.powers hg'' (hx.trans hx')
  exponents hg'' hx' := h.exponents hg'' (hx.trans hx')

/-- `x` is `b` to the power `e`. -/
structure IsPower (V : Vocabulary) (g : Graph) (x b e : NodeId) : Prop where
  elementary : g.Elementary V x
  shape_eq : g.shape x = .power
  operands_eq : g.operands x = [b, e]

theorem IsPower.extends (h : IsPower V g x b e) (hx : g.Extends g') : IsPower V g' x b e where
  elementary := hx.elementary h.elementary
  shape_eq := (hx.shape_eq h.elementary.lt_size).trans h.shape_eq
  operands_eq := (hx.operands_eq h.elementary.lt_size).trans h.operands_eq

theorem IsPower.exponent (h : IsPower V g x b e) : g.Elementary V e :=
  h.elementary.operands e (by simp [h.operands_eq])

theorem IsPower.weight (h : IsPower V g x b e) (hx : g.Light n x) :
    ∃ m k, 1 ≤ m ∧ m + k ≤ n ∧ g.Light m b ∧ g.Thin k e :=
  hx.of_power h.shape_eq h.operands_eq

theorem IsPower.reduces (h : IsPower V g x b e) (hg : g.WellFormed) (hx : g.Extends g')
    (hy : g'.Elementary V y) (hc : g'.Collected y) (hf : g'.Folded y)
    (hl : ∀ m k, 1 ≤ m → g.Light m b → g.Thin k e → g'.Light (m + k) y) : g'.Reduces V x y := by
  refine reduces_of_light hg hx h.elementary.lt_size ?_ hy hc hf fun n hn => ?_
  · rw [h.shape_eq]
    exact Shape.noConfusion
  · obtain ⟨m, k, hm, hmk, hb, he⟩ := h.weight hn
    exact (hl m k hm hb he).mono hmk

theorem isBase_of_not_power (ho : (g.node x).isOpenProduct = false)
    (hp : (g.node x).isOpenPower = false) : g.IsBase x := by
  refine ⟨ho, ?_⟩
  rw [Graph.constantPower?, if_neg (Bool.eq_false_iff.1 hp)]

theorem power_of_product_halts (hE : Permits library V E) (hg : g.WellFormed)
    (hx : IsPower V g x b e) (hl : g.Reduces V b l) (ho : (g.node l).isOpenProduct)
    (hu : Unfolds library V E g b e) :
    Halts (rules library) E
      (do Dialogue.ask (← powerOfProduct (g.operands l) e) : Evaluating NodeId) g
      fun y g' => g'.Reduces V x y := by
  have hlist := (hl.collected.tidy_product ho).1
  have hpowers := (powerOfProduct_powers hg (hg.operands_lt_size l) hlist.not_product
    hx.exponent.lt_size).and (powerOfProduct_replays hg hl.elementary.operands hx.exponent)
  apply (hE.build hpowers).bind
  rintro z g₁ hg₁ hx₁ ⟨hz, hze, -⟩
  have hl₁ := hl.extends hg hx₁
  have hlt := hl.collected.lt_size
  rw [← hx₁.operands_eq hlt] at hz
  rw [← hx₁.node_eq l hlt] at ho
  apply (hu.powers hg₁ hx₁ hl₁ ho hze hz g₁ hg₁ (.refl g₁)).mono
  intro y g₂ _ hx₂ hy
  refine (hx.extends hx₁).reduces hg₁ hx₂ hy.elementary hy.collected hy.folded
    fun m k _ hb he => ?_
  obtain ⟨m', hm', hmm', hfs⟩ := (hl₁.light m hb).of_product (Graph.isOpenProduct_iff.1 ho).1
  have hthin : g₁.Thin (m' + k) z := fun f hf => (hz f hf).light hm' hfs he
  exact ((hy.thin _ ((hx₂.thin_iff hg₁ hze.lt_size).2 hthin)).light (by omega)).mono (by omega)

theorem power_of_power_halts (hE : Permits library V E) (hg : g.WellFormed)
    (hx : IsPower V g x b e) (hl : g.Reduces V b l) (hr : g.Reduces V e r) {l' r' : NodeId}
    (hpower : IsPower V g l l' r') (hu : Unfolds library V E g b e) :
    Halts (rules library) E
      (do foldPower l' (← Dialogue.ask (← Graph.product [r, r'])) : Evaluating NodeId) g
      fun y g' => g'.Reduces V x y := by
  have hl' : l' ∈ g.operands l := by simp [hpower.operands_eq]
  have hr' : r' ∈ g.operands l := by simp [hpower.operands_eq]
  have hlc := hl.collected.operands l' hl'
  have hbase : g.IsBase l' := by
    have ht := hl.collected.tidy
    rw [Graph.Tidy, hpower.shape_eq] at ht
    exact (ht l' r' hpower.operands_eq).toIsBase
  apply (hE.build (Graph.product_of_exponents hg hr.elementary hpower.exponent hr.collected
    (hl.collected.operands r' hr'))).bind
  rintro p g₁ hg₁ hx₁ ⟨hp, hthin⟩
  -- The product of the exponents weighs less than the power.
  have hweight : ∀ m k, g₁.Light m b → g₁.Thin k e →
      ∃ m' k', 1 ≤ m' ∧ m' + k' ≤ m + k ∧ g.Light m' l' ∧ g₁.Thin k' p := by
    intro m k hb he
    rw [hx₁.light_iff hg hl.lt_size] at hb
    rw [hx₁.thin_iff hg hr.lt_size] at he
    obtain ⟨m', k', hm', hmk', hlm', hrk'⟩ := hpower.weight (hl.light m hb)
    refine ⟨m', max k k', hm', by omega, hlm', hthin _ ?_ ?_⟩
    · exact (hr.thin k he).mono (Nat.le_max_left k k')
    · exact hrk'.mono (Nat.le_max_right k k')
  have hless : ∀ m k, 1 ≤ m → g₁.Light m b → g₁.Thin k e → ∃ n, n < m + k ∧ g₁.Thin n p := by
    intro m k _ hb he
    obtain ⟨m', k', hm', hmk', -, hk'⟩ := hweight m k hb he
    exact ⟨k', by omega, hk'⟩
  apply (hu.exponents hg₁ hx₁ hp hless g₁ hg₁ (.refl g₁)).bind
  intro e' g₂ hg₂ hx₂ he'
  have hext := hx₁.trans hx₂
  have hle := hext.elementary (hl.elementary.operands l' hl')
  have hbase' := (hext.agree hg).isBase hlc.lt_size hbase
  have hfold := (foldPower_collected hg₂ hle he'.elementary (hext.collected hg hlc) he'.collected
    hbase').and (foldPower_folded hg₂ hle.lt_size he'.elementary.lt_size
      (hext.folded hg hlc.lt_size (hl.folded.operands hg l' hl')) he'.folded)
  apply (hE.build hfold).mono
  rintro z g₃ - hx₃ ⟨⟨hz, hzc, hzl⟩, hzf⟩
  refine (hx.extends hx₁).reduces hg₁ (hx₂.trans hx₃) hz hzc hzf fun m k _ hb he => ?_
  obtain ⟨m', k', hm', hmk', hlm', hk'⟩ := hweight m k hb he
  refine (hzl m' k' hm' ?_ (he'.thin k' ?_)).mono hmk'
  · exact (hext.light_iff hg hlc.lt_size).2 hlm'
  · exact (hx₂.thin_iff hg₁ hp.lt_size).2 hk'

theorem power_halts (hE : Permits library V E) (hg : g.WellFormed) (hx : IsPower V g x b e)
    (hb : Evaluates library V E g b) (he : Evaluates library V E g e)
    (hu : Unfolds library V E g b e) :
    Halts (rules library) E (power b e) g fun y g' => g'.Reduces V x y := by
  apply (hb g hg (.refl g)).bind
  intro l g₁ hg₁ hx₁ hl
  apply Halts.graph
  apply Halts.ite
  · exact fun ho => power_of_product_halts hE hg₁ (hx.extends hx₁) hl ho (hu.extends hx₁)
  intro ho
  rw [Bool.not_eq_true] at ho
  apply (he g₁ hg₁ hx₁).bind
  intro r g₂ hg₂ hx₂ hr
  have hext := hx₁.trans hx₂
  have hl₂ := hl.extends hg₁ hx₂
  split
  · next l' r' hp hlr =>
    have hpower : IsPower V g₁ l l' r' := ⟨hl.elementary, (Graph.isOpenPower_iff.1 hp).1, hlr⟩
    exact power_of_power_halts hE hg₂ (hx.extends hext) hl₂ hr (hpower.extends hx₂)
      (hu.extends hext)
  · next hp hne =>
    have hs := (Graph.isOpenPower_iff.1 hp).1
    obtain ⟨l', r', hlr⟩ := hg₁.exists_operands_pair hs fun _ => id
    exact (hne l' r' hlr).elim
  · next hp =>
    have hbase := isBase_of_not_power ho hp
    have hbase₂ := (hx₂.agree hg₁).isBase hl.collected.lt_size hbase
    have hfold := (foldPower_collected hg₂ hl₂.elementary hr.elementary hl₂.collected hr.collected
      hbase₂).and (foldPower_folded hg₂ hl₂.elementary.lt_size hr.elementary.lt_size hl₂.folded
        hr.folded)
    apply (hE.build hfold).mono
    rintro z g₃ - hx₃ ⟨⟨hz, hzc, hzl⟩, hzf⟩
    refine (hx.extends hext).reduces hg₂ hx₃ hz hzc hzf fun m k hm hb he => ?_
    exact hzl m k hm (hl₂.light m hb) (hr.thin k he)

/-! ### Substitutions -/

theorem arrowPair_meets (hE : ∀ g, E .bindingIsNoArrow g) (hg : g.WellFormed) (x : NodeId) :
    Meets E (Graph.arrowPair x) g fun _ _ => True := by
  apply Meets.get
  split
  · exact .pure hg trivial
  · next hs hne =>
    obtain ⟨l, r, hlr⟩ := hg.exists_operands_pair hs fun _ => id
    exact (hne l r hlr).elim
  · exact .throw hg (hE g)

theorem arrowPairs_meets (hE : ∀ g, E .bindingIsNoArrow g) (hg : g.WellFormed) (x : NodeId) :
    Meets E (Graph.arrowPairs x) g fun _ _ => True := by
  apply Meets.get
  split
  · apply (Meets.mapM (P := fun _ _ => True) (R := fun _ _ _ => True) (fun _ _ _ => trivial)
      (fun _ _ _ => trivial) (fun hg _ => arrowPair_meets hE hg _) hg fun _ _ => trivial).mono
    exact fun _ _ _ _ _ => trivial
  · exact (arrowPair_meets hE hg x).bind fun _ _ hg' _ _ => .pure hg' trivial

theorem substitution_halts (hE : Permits library V E) (hg : g.WellFormed) (hx : g.Elementary V x)
    (hs : g.shape x = .binary .substitution) (hl : Evaluates library V E g l)
    (hr : Evaluates library V E g r)
    (hplain : ∀ g' z, g'.WellFormed → g.Extends g' → g'.Elementary V.plain z →
      Evaluates library V E g' z) :
    Halts (rules library) E (binary .substitution l r) g fun y g' => g'.Reduces V x y := by
  have hcov := hx.covers
  rw [hs] at hcov
  apply (hl g hg (.refl g)).bind
  intro l' g₁ hg₁ hx₁ hl'
  apply (hr g₁ hg₁ hx₁).bind
  intro r' g₂ hg₂ hx₂ hr'
  rw [if_pos rfl]
  have hpairs := (arrowPairs_meets (hE.noArrow hcov) hg₂ r').and
    (arrowPairs_replays hg₂ (hr'.collected.plain hr'.elementary))
  apply (Halts.build hpairs).bind
  rintro s g₃ hg₃ hx₃ ⟨-, hs', -⟩
  have hl₃ := hl'.extends hg₁ (hx₂.trans hx₃)
  apply (hE.build (Graph.substitute_elementary hg₃ hs' (hl₃.collected.plain hl₃.elementary))).bind
  intro z g₄ hg₄ hx₄ hz
  have hext := ((hx₁.trans hx₂).trans hx₃).trans hx₄
  apply (hplain g₄ z hg₄ hext hz g₄ hg₄ (.refl g₄)).mono
  intro y g₅ _ hx₅ hy
  have hs₄ := (hext.shape_eq hx.lt_size).trans hs
  refine reduces_of_light hg₄ hx₅ (hext.lt_size hx.lt_size) ?_ hy.elementary hy.collected
    hy.folded ?_
  · rw [hs₄]
    exact Shape.noConfusion
  · exact fun n hn => absurd hs₄ hn.ne_substitution

/-! ### All nodes -/

theorem operands_leaf (hg : g.WellFormed)
    (hs : (∃ q, g.shape x = .constant q) ∨ ∃ name, g.shape x = .symbol name) :
    g.operands x = [] := by
  have harity := hg.arity x
  rcases hs with ⟨q, hs⟩ | ⟨name, hs⟩ <;> rw [hs] at harity <;>
    exact List.length_eq_zero_iff.1 harity

theorem collected_leaf (hg : g.WellFormed) (hx : x < g.size) (hl : g.isLoop x = false)
    (hs : (∃ q, g.shape x = .constant q) ∨ ∃ name, g.shape x = .symbol name) : g.Collected x := by
  refine .node hx hl ?_ ?_ ?_
  · rcases hs with ⟨q, hs⟩ | ⟨name, hs⟩ <;> rw [Graph.Tidy, hs] <;> trivial
  · rcases hs with ⟨q, hs⟩ | ⟨name, hs⟩ <;> rw [hs] <;> trivial
  · rw [operands_leaf hg hs]
    exact fun y hy => absurd hy List.not_mem_nil

theorem folded_leaf (hg : g.WellFormed)
    (hs : (∃ q, g.shape x = .constant q) ∨ ∃ name, g.shape x = .symbol name) : g.Folded x := by
  apply Graph.folded_of_isInert
  · rcases hs with ⟨q, hs⟩ | ⟨name, hs⟩ <;> rw [hs] <;> trivial
  · rw [operands_leaf hg hs]
    exact fun y hy => absurd hy List.not_mem_nil

theorem evaluates_of_operands (hE : Permits library V E) (hx : g.Elementary V x)
    (hops : ∀ y ∈ g.operands x, Evaluates library V E g y)
    (hpower : ∀ b e, IsPower V g x b e → Unfolds library V E g b e)
    (hsub : g.shape x = .binary .substitution → ∀ g' z, g'.WellFormed → g.Extends g' →
      g'.Elementary V.plain z → Evaluates library V E g' z) : Evaluates library V E g x := by
  apply evaluates_of_byShape hx
  intro g' hg' hext
  have hx' := hext.elementary hx
  have hshape := hext.shape_eq hx.lt_size
  have hoperands := hext.operands_eq hx.lt_size
  have hops' : ∀ y ∈ g'.operands x, Evaluates library V E g' y := by
    rw [hoperands]
    exact fun y hy => (hops y hy).extends hext
  have hleaf : (∃ q, g'.shape x = .constant q) ∨ (∃ name, g'.shape x = .symbol name) →
      g'.Reduces V x x := fun hs =>
    ⟨hx'.lt_size, hx', collected_leaf hg' hx'.lt_size hx'.isLoop_eq hs, folded_leaf hg' hs,
      fun _ => id, fun _ => id⟩
  apply Halts.graph
  cases hs : g'.shape x with
  | constant q => exact .pure hg' (hleaf (.inl ⟨q, hs⟩))
  | symbol name => exact .pure hg' (hleaf (.inr ⟨name, hs⟩))
  | sum => exact sum_halts hE hg' hx' hs hops'
  | product => exact product_halts hE hg' hx' hs hops'
  | power =>
    obtain ⟨b, e, hbe⟩ := hg'.exists_operands_pair hs fun _ => id
    have hp : IsPower V g x b e := ⟨hx, hshape ▸ hs, hoperands ▸ hbe⟩
    rw [hbe] at hops' ⊢
    exact power_halts hE hg' (hp.extends hext) (hops' b (by simp)) (hops' e (by simp))
      ((hpower b e hp).extends hext)
  | binary op =>
    obtain ⟨l, r, hlr⟩ := hg'.exists_operands_pair hs fun _ => id
    rw [hlr] at hops' ⊢
    have hl := hops' l (by simp)
    have hr := hops' r (by simp)
    by_cases hop : op = .substitution
    · subst hop
      exact substitution_halts hE hg' hx' hs hl hr fun g'' z hg'' hx'' =>
        hsub (hshape ▸ hs) g'' z hg'' (hext.trans hx'')
    · exact binary_halts hE hg' hx' hs hop hlr hl hr
  | unary op =>
    obtain ⟨l, hl⟩ := hg'.exists_operand hs
    rw [hl] at hops' ⊢
    exact unary_halts hE hg' hx' hs hl (hops' l (by simp))
  | call f => exact call_halts hE hg' hx' hs hops'
  | set => exact operands_halts hE hg' hx' (.inl hs) hops'
  | arrow => exact operands_halts hE hg' hx' (.inr hs) hops'

/-- An expression without substitutions. The induction is on its weight, which is more than that of
what its powers unfold to, and then on the expression. -/
theorem evaluates_of_thin (hE : Permits library V E) (hg : g.WellFormed)
    (hx : g.Elementary V.plain x) (hn : g.Thin n x) : Evaluates library V E g x := by
  induction n using Nat.strong_induction_on generalizing g x with
  | _ n ihn =>
    induction hx with
    | @node x hlt hl hc hops ih =>
      have hx : g.Elementary V.plain x := .node hlt hl hc hops
      refine evaluates_of_operands hE hx.of_plain (fun y hy => ih y hy (hn.operands hg y hy)) ?_ ?_
      · intro b e hp
        have ho : (g.node x).isOpenProduct = false := Graph.isOpenProduct_of_shape (by
          rw [hp.shape_eq]
          exact Shape.noConfusion)
        obtain ⟨m, k, hm, hmk, hb, he⟩ := hp.weight ((Graph.thin_iff_light ho).1 hn)
        have hbx : g.Elementary V.plain b := hops b (by simp [hp.operands_eq])
        have hex : g.Elementary V.plain e := hops e (by simp [hp.operands_eq])
        constructor
        · intro g' l z hg' hext hbl hol hz hfs
          have hshape := (Graph.isOpenProduct_iff.1 hol).1
          obtain ⟨m', hm', hmm', hlight⟩ :=
            (hbl.light m ((hext.light_iff hg hbx.lt_size).2 hb)).of_product hshape
          have hlp := (hbl.collected.plain hbl.elementary).operands
          apply ihn (m' + k) (by omega) hg'
          · apply hz.of_factors
            exact fun f hf => (hfs f hf).elementary hg' (hz.factors f hf) hlp (hext.elementary hex)
          · intro f hf
            exact (hfs f hf).light hm' hlight ((hext.thin_iff hg hex.lt_size).2 he)
        · intro g' z hg' hext hz hless
          obtain ⟨n', hn', hthin⟩ := hless m k hm ((hext.light_iff hg hbx.lt_size).2 hb)
            ((hext.thin_iff hg hex.lt_size).2 he)
          exact ihn n' (by omega) hg' hz hthin
      · intro hs
        rw [hs] at hc
        exact absurd rfl hc.2

theorem evaluates_plain (hE : Permits library V E) (hg : g.WellFormed)
    (hx : g.Elementary V.plain x) : Evaluates library V E g x := by
  obtain ⟨n, hn⟩ := hx.exists_light V.not_plain_substitution hg
  exact evaluates_of_thin hE hg hx hn.thin

theorem evaluates_of_factors (hE : Permits library V E) (hx : g.Elementary V x)
    (hfs : ∀ f ∈ g.factors x, Evaluates library V E g f) : Evaluates library V E g x := by
  cases ho : (g.node x).isOpenProduct with
  | false =>
    rw [Graph.factors_of_not_product ho] at hfs
    exact hfs x (List.mem_singleton.2 rfl)
  | true =>
    rw [Graph.factors, if_pos ho] at hfs
    have hs := (Graph.isOpenProduct_iff.1 ho).1
    refine evaluates_of_operands hE hx hfs (fun b e hp => ?_) fun hs' => ?_
    · rw [hp.shape_eq] at hs
      cases hs
    · rw [hs'] at hs
      cases hs

/-- Besides the powers of the factors of a base, a power unfolds to expressions without
substitutions. -/
theorem unfolds_of_powers (hE : Permits library V E)
    (hpowers : ∀ g' l b' f, g'.WellFormed → g.Extends g' → g'.Reduces V b l →
      (g'.node l).isOpenProduct → b' ∈ g'.operands l → IsPower V g' f b' e →
      Evaluates library V E g' f) : Unfolds library V E g b e where
  powers {g' l z} hg' hext hl ho hz hfs := by
    apply evaluates_of_factors hE hz
    intro f hf
    have hfe := hz.factors f hf
    cases hfs f hf with
    | constant h =>
      exact evaluates_plain hE hg' (Graph.elementary_of_value? hg' hfe.lt_size hfe.isLoop_eq h)
    | base h => exact evaluates_plain hE hg' ((hl.collected.plain hl.elementary).operands f h)
    | @power b' hb hlt hn =>
      exact hpowers g' l b' f hg' hext hl ho hb
        ⟨hfe, congrArg Node.shape hn, congrArg Node.operands hn⟩
  exponents hg' _ hz _ := evaluates_plain hE hg' hz

/-- A power of an expression without substitutions, by induction on the weight of the base. -/
theorem evaluates_power (hE : Permits library V E) (hg : g.WellFormed) (hx : IsPower V g x b e)
    (hb : g.Elementary V.plain b) (hm : g.Light m b) (he : Evaluates library V E g e) :
    Evaluates library V E g x := by
  induction m using Nat.strong_induction_on generalizing g x b with
  | _ m ih =>
    refine evaluates_of_operands hE hx.elementary ?_ ?_ ?_
    · rw [hx.operands_eq]
      exact List.forall_mem_cons.2 ⟨evaluates_plain hE hg hb, List.forall_mem_singleton.2 he⟩
    · intro b' e' hp
      obtain ⟨rfl, rfl⟩ : b = b' ∧ e = e' := by
        simpa using hx.operands_eq.symm.trans hp.operands_eq
      apply unfolds_of_powers hE
      intro g' l c f hg' hext hl ho hc hf
      obtain ⟨m', -, hmm', hlight⟩ := (hl.light m ((hext.light_iff hg hb.lt_size).2 hm)).of_product
        (Graph.isOpenProduct_iff.1 ho).1
      exact ih m' (by omega) hg' hf ((hl.collected.plain hl.elementary).operands c hc)
        (hlight c hc) (he.extends hext)
    · intro hs
      rw [hx.shape_eq] at hs
      cases hs

theorem evaluates_elementary (hE : Permits library V E) (hx : g.Elementary V x) :
    Evaluates library V E g x := by
  induction hx with
  | @node x hlt hl hc hops ih =>
    refine evaluates_of_operands hE (.node hlt hl hc hops) ih (fun b e hp => ?_) fun _ g' z hg' _ =>
      evaluates_plain hE hg'
    apply unfolds_of_powers hE
    intro g' l b' f hg' hext hl _ hb' hf
    have hb'' := (hl.collected.plain hl.elementary).operands b' hb'
    obtain ⟨m, hm⟩ := hb''.exists_light V.not_plain_substitution hg'
    exact evaluates_power hE hg' hf hb'' hm ((ih e (by simp [hp.operands_eq])).extends hext)

end ExactAlgebra.Evaluation
