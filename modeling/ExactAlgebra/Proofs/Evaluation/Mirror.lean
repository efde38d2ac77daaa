import ExactAlgebra.Proofs.Collection.Mirror
import ExactAlgebra.Proofs.Evaluation.Power
import ExactAlgebra.Proofs.Transform.Mirror

/-!
Evaluation in two graphs side by side. Twins are evaluated to twins, or fail with the same error, if
the same depth is given; what is known of functions is of no account, as there are no calls.
-/

namespace ExactAlgebra.Evaluation

open ExactAlgebra.Graph (Facing MirrorsNodes Mirrors Overflow Twins Vocabulary)

variable {V W : Vocabulary} {g g' t t' g₀ t₀ : Graph} {x x' y y' z w : NodeId}
variable {xs ys : List NodeId} {library library' : Library} {depth : Nat}

/-- Two computations lead to twins. -/
abbrev MirrorsTwins (V W : Vocabulary) (m m' : Evaluating NodeId) (g t : Graph) : Prop :=
  Dialogue.Mirrors V W m m' g t fun x y g' t' => Twins V W g' t' x y

theorem boolean_twins (hgt : Facing V W g t) (b : Bool) :
    Twins V W g t (Graph.boolean b) (Graph.boolean b) := by
  cases b with
  | false => exact hgt.zero
  | true => exact hgt.one

theorem binaryOutcome?_twins {op : Operator} (hgt : Facing V W g t) (hxy : Twins V W g t x y)
    (hxy' : Twins V W g t x' y') :
    binaryOutcome? op x x' (g.value? x) (g.value? x') =
      binaryOutcome? op y y' (t.value? y) (t.value? y') := by
  have hiff := hxy.eq_iff hxy' hgt
  simp only [binaryOutcome?, decide?, hxy.value?_eq hgt, hxy'.value?_eq hgt, hiff]

theorem binary_mirrors {op : Operator} (hV : V.operators op) (hW : W.operators op)
    (hgt : Facing V W g t) (hxy : Twins V W g t x y) (hxy' : Twins V W g t x' y') :
    MirrorsTwins V W (binary op x x') (binary op y y') g t := by
  apply (Dialogue.Mirrors.ask hgt hxy).bind
  intro l l' g₁ t₁ hgt₁ hx₁ hy₁ hl
  apply (Dialogue.Mirrors.ask hgt₁ (hxy'.grow hgt hgt₁ hx₁ hy₁)).bind
  intro r r' g₂ t₂ hgt₂ hx₂ hy₂ hr
  have hl₂ := hl.grow hgt₁ hgt₂ hx₂ hy₂
  apply Dialogue.Mirrors.ite Iff.rfl
  · intro _
    apply (Dialogue.Mirrors.build (Graph.arrowPairs_mirrors hgt₂ hr)).bind
    intro s s' g₃ t₃ hgt₃ hx₃ hy₃ hs
    have hl₃ := hl₂.grow hgt₂ hgt₃ hx₃ hy₃
    apply (Dialogue.Mirrors.build (Graph.substitute_mirrors hgt₃ hs hl₃)).bind
    exact fun _ _ _ _ hgt₄ _ _ h => .ask hgt₄ h
  · intro _
    apply Dialogue.Mirrors.graph
    rw [binaryOutcome?_twins hgt₂ hl₂ hr]
    cases binaryOutcome? op l' r' (t₂.value? l') (t₂.value? r') with
    | some b => exact .pure hgt₂ (boolean_twins hgt₂ b)
    | none => exact .build (Graph.binary_mirrors hgt₂ hV hW hl₂ hr)

theorem unary_mirrors (op : Operator) (hgt : Facing V W g t) (hxy : Twins V W g t x y) :
    MirrorsTwins V W (unary op x) (unary op y) g t := by
  apply (Dialogue.Mirrors.ask hgt hxy).bind
  intro l l' g₁ t₁ hgt₁ _ _ hl
  apply Dialogue.Mirrors.graph
  rw [hl.value?_eq hgt₁]
  apply Dialogue.Mirrors.ite Iff.rfl
  · exact fun _ => .pure hgt₁ (boolean_twins hgt₁ _)
  · exact fun _ => .build (Graph.unary_mirrors hgt₁ op hl)

theorem foldPower_mirrors (hgt : Facing V W g t) (hxy : Twins V W g t x y)
    (hxy' : Twins V W g t x' y') : MirrorsNodes V W (foldPower x x') (foldPower y y') g t := by
  rw [foldPower_eq, foldPower_eq]
  apply Mirrors.get
  rw [hxy.value?_eq hgt, hxy'.value?_eq hgt]
  apply Mirrors.ite Iff.rfl fun _ => .pure hgt hgt.zero
  intro _
  apply Mirrors.ite Iff.rfl fun _ => .pure hgt hgt.one
  intro _
  apply Mirrors.ite Iff.rfl fun _ => .pure hgt hgt.one
  intro _
  apply Mirrors.ite Iff.rfl fun _ => .pure hgt hxy
  intro _
  cases foldedPower? (t.value? y) (t.value? y') with
  | some q => exact Graph.constant_mirrors hgt q
  | none => exact Graph.power_mirrors hgt hxy hxy'

theorem powerOfProduct_mirrors (hgt : Facing V W g t) (hxs : List.Forall₂ (Twins V W g t) xs ys)
    (hxy : Twins V W g t x y) :
    MirrorsNodes V W (powerOfProduct xs x) (powerOfProduct ys y) g t := by
  -- The exponent stays what it is while the factors are gone through.
  have hpair : Graph.Persistent V W fun a b g t => Twins V W g t a b ∧ Twins V W g t x y :=
    fun _ _ _ _ _ _ h h' hx hy hab => ⟨hab.1.grow h h' hx hy, hab.2.grow h h' hx hy⟩
  apply (Mirrors.mapM hpair (Graph.persistent_twins V W)
    (fun h hab => Graph.power_mirrors h hab.1 hab.2) hgt (hxs.imp fun _ _ h => ⟨h, hxy⟩)).bind
  exact fun _ _ _ _ h _ _ hzs => Graph.product_mirrors h hzs

/-- Twins of a kind with two operands. -/
theorem operands_pair {s : Shape} (hgt : Facing V W g t) (hxy : Twins V W g t x y)
    (hs : t.shape y = s) (htwo : ∀ n, s.Allows n → n = 2) :
    ∃ a b a' b', g.operands x = [a, b] ∧ t.operands y = [a', b'] ∧
      Twins V W g t a a' ∧ Twins V W g t b b' := by
  have hops := hxy.operands hgt
  obtain ⟨a', b', ht⟩ := hgt.right.wellFormed.exists_operands_pair hs htwo
  rw [ht] at hops
  obtain ⟨a, b, hg, ha, hb⟩ := Graph.forall₂_pair_right hops
  exact ⟨a, b, a', b', hg, ht, ha, hb⟩

theorem power_mirrors (hgt : Facing V W g t) (hxy : Twins V W g t x y)
    (hxy' : Twins V W g t x' y') : MirrorsTwins V W (power x x') (power y y') g t := by
  apply (Dialogue.Mirrors.ask hgt hxy).bind
  intro l l' g₁ t₁ hgt₁ hx₁ hy₁ hl
  have hxy₁ := hxy'.grow hgt hgt₁ hx₁ hy₁
  apply Dialogue.Mirrors.graph
  apply Dialogue.Mirrors.ite (by rw [hl.isOpenProduct_eq hgt₁])
  · intro _
    apply (Dialogue.Mirrors.build (powerOfProduct_mirrors hgt₁ (hl.operands hgt₁) hxy₁)).bind
    exact fun _ _ _ _ hgt₂ _ _ h => .ask hgt₂ h
  intro _
  apply (Dialogue.Mirrors.ask hgt₁ hxy₁).bind
  intro r r' g₂ t₂ hgt₂ hx₂ hy₂ hr
  rw [hl.isOpenPower_eq hgt₁]
  cases ho : (t₁.node l').isOpenPower with
  | false => exact .build (foldPower_mirrors hgt₂ (hl.grow hgt₁ hgt₂ hx₂ hy₂) hr)
  | true =>
    obtain ⟨b, e, b', e', hops, hops', hb, he⟩ :=
      operands_pair hgt₁ hl (Graph.isOpenPower_iff.1 ho).1 fun _ => id
    rw [hops, hops']
    have hre := List.Forall₂.cons hr (.cons (he.grow hgt₁ hgt₂ hx₂ hy₂) .nil)
    apply (Dialogue.Mirrors.build (Graph.product_mirrors hgt₂ hre)).bind
    intro z w g₃ t₃ hgt₃ hx₃ hy₃ hz
    apply (Dialogue.Mirrors.ask hgt₃ hz).bind
    intro q q' g₄ t₄ hgt₄ hx₄ hy₄ hq
    have hb' := hb.grow hgt₁ hgt₄ ((hx₂.trans hx₃).trans hx₄) ((hy₂.trans hy₃).trans hy₄)
    exact .build (foldPower_mirrors hgt₄ hb' hq)

theorem byShape_mirrors (hgt : Facing V W g t) (hxy : Twins V W g t x y) :
    MirrorsTwins V W (byShape library x) (byShape library' y) g t := by
  have hcov := hxy.left.covers
  have hcov' := hxy.right.covers
  have hops := hxy.operands hgt
  apply Dialogue.Mirrors.graph
  rw [hxy.shape_eq hgt] at hcov ⊢
  cases hs : t.shape y with
  | constant | symbol => exact .pure hgt hxy
  | sum =>
    apply (Dialogue.Mirrors.askAll hgt hops).bind
    exact fun _ _ _ _ h _ _ hzs => .build (Graph.combineTerms_mirrors h hzs)
  | product =>
    apply (Dialogue.Mirrors.askAll hgt hops).bind
    exact fun _ _ _ _ h _ _ hzs => .build (Graph.combineFactors_mirrors h hzs)
  | power =>
    obtain ⟨a, b, a', b', hxs, hys, ha, hb⟩ := operands_pair hgt hxy hs fun _ => id
    rw [hxs, hys]
    exact power_mirrors hgt ha hb
  | binary op =>
    rw [hs] at hcov hcov'
    obtain ⟨a, b, a', b', hxs, hys, ha, hb⟩ := operands_pair hgt hxy hs fun _ => id
    rw [hxs, hys]
    exact binary_mirrors hcov hcov' hgt ha hb
  | unary op =>
    obtain ⟨a', hys⟩ := hgt.right.wellFormed.exists_operand hs
    rw [hys] at hops ⊢
    obtain ⟨a, hxs, ha⟩ := Graph.forall₂_singleton_right hops
    rw [hxs]
    exact unary_mirrors op hgt ha
  | call f =>
    rw [hs] at hcov
    exact absurd hcov (hgt.left.no_callees f)
  | set | arrow => exact .operands hgt hxy

theorem rules_mirror (hgt : Facing V W g t) (hxy : Twins V W g t x y) :
    Dialogue.Mirrors V W ((rules library).transform x) ((rules library').transform y) g t
      fun o o' g' t' => Option.Rel (Twins V W g' t') o o' := by
  apply Dialogue.Mirrors.graph
  rw [if_neg (by rw [hxy.left.isLoop_eq]; decide), if_neg (by rw [hxy.right.isLoop_eq]; decide)]
  exact (byShape_mirrors hgt hxy).bind fun _ _ _ _ h _ _ hzw => .pure h (.some hzw)

/-- With one depth, evaluations of twins are carried out side by side. -/
theorem evaluateIn_mirrors (library library' : Library) (V W : Vocabulary) (g₀ t₀ : Graph)
    (depth : Nat) :
    Mirroring Overflow V W g₀ t₀ (evaluateIn library depth) (evaluateIn library' depth) :=
  Rules.mirroring (fun _ => rfl) (fun _ => rfl) (fun _ _ => id)
    (fun _ _ _ _ hgt _ _ hxy => rules_mirror hgt hxy) (.inl rfl)

end ExactAlgebra.Evaluation
