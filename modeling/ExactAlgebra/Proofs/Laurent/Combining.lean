import ExactAlgebra.Proofs.Collection.Constants
import ExactAlgebra.Proofs.Laurent.Normal

/-!
Sums and products of collected Laurent polynomials are collected again: sums in general, products
of powers of symbols, and products of a sum with constants.
-/

namespace ExactAlgebra.Graph

variable {V : Vocabulary} {g g' : Graph} {x z s e : NodeId} {q w : Rat} {xs ys : List NodeId}

/-- Symbols, into which no constant goes. -/
def symbolBases : Scalable where
  Holds g x := (g.shape x).IsSymbol ∧ x < g.size
  of_extends _ hx hlt h := ⟨(hx.shape_eq hlt).symm ▸ h.1, hx.lt_size h.2⟩
  scaled _ _ ho h _ := by
    rw [(isOpenSum_iff.1 ho).1] at h
    exact h.1.elim

/-- A product of powers of symbols and a constant, with nothing left to combine. -/
structure Single (V : Vocabulary) (g : Graph) (x : NodeId) : Prop where
  elementary : g.Elementary V x
  collected : g.Collected x
  overBases : OverBases symbolBases g x

theorem Single.extends (h : g.Single V x) (hg : g.WellFormed) (hx : g.Extends g') :
    g'.Single V x where
  elementary := hx.elementary h.elementary
  collected := hx.collected hg h.collected
  overBases := h.overBases.extends hg hx h.collected

theorem Single.not_sum (h : g.Single V x) : (g.node x).isOpenSum = false := by
  rw [Bool.eq_false_iff]
  intro ho
  have hbase := isBase_of_isOpenSum ho
  have hx : x ∈ g.factors x := by
    rw [factors_of_not_product hbase.not_product]
    exact List.mem_singleton_self x
  have hs := (h.overBases x hx (value?_of_isOpenSum ho)).1
  rw [baseOf, hbase.not_power, (isOpenSum_iff.1 ho).1] at hs
  exact hs.elim

theorem Single.combined (h : g.Single V x) : g.Combined V x := by
  refine ⟨h.elementary, h.collected, fun t ht f hf => ?_⟩
  rw [terms_of_not_sum h.not_sum, List.mem_singleton] at ht
  subst ht
  exact h.overBases f hf

theorem Combined.single (h : g.Combined V x) (ho : (g.node x).isOpenSum = false) :
    g.Single V x := by
  refine ⟨h.elementary, h.collected, fun f hf => ?_⟩
  exact h.overTerms x (by rw [terms_of_not_sum ho]; exact List.mem_singleton_self x) f hf

/-! ### Constants and powers of symbols -/

theorem single_of_value? (hx : g.Elementary V x) (hc : g.Collected x) (h : g.value? x = some q) :
    g.Single V x :=
  ⟨hx, hc, overBases_of_value? h⟩

theorem WellFormed.single_zero (hg : g.WellFormed) : g.Single V zero :=
  single_of_value? hg.elementary_zero hg.collected_zero
    (value?_eq_some.2 (congrArg Node.shape hg.node_zero))

theorem WellFormed.single_one (hg : g.WellFormed) : g.Single V one :=
  single_of_value? hg.elementary_one hg.collected_one
    (value?_eq_some.2 (congrArg Node.shape hg.node_one))

/-- What is no product is the only factor of itself. -/
theorem single_of_baseOf (hx : g.Elementary V x) (hc : g.Collected x)
    (ho : (g.node x).isOpenProduct = false) (hs : (g.shape (g.baseOf x)).IsSymbol)
    (hlt : g.baseOf x < g.size) : g.Single V x := by
  refine ⟨hx, hc, fun f hf _ => ?_⟩
  rw [factors_of_not_product ho, List.mem_singleton] at hf
  subst hf
  exact ⟨hs, hlt⟩

theorem isBase_of_isSymbol (hs : (g.shape s).IsSymbol) : g.IsBase s := by
  have hne : ∀ {t : Shape}, ¬ t.IsSymbol → g.shape s ≠ t := fun ht he => ht (he ▸ hs)
  refine ⟨isOpenProduct_of_shape (hne id), ?_⟩
  rw [constantPower?, if_neg]
  exact fun ho => hne id (isOpenPower_iff.1 ho).1

theorem single_of_isSymbol (hx : g.Elementary V x) (hc : g.Collected x)
    (hs : (g.shape x).IsSymbol) : g.Single V x := by
  have hbase := isBase_of_isSymbol hs
  have hself : g.baseOf x = x := by rw [baseOf, hbase.not_power]
  exact single_of_baseOf hx hc hbase.not_product (hself.symm ▸ hs) (hself.symm ▸ hx.lt_size)

/-- A symbol is raised to a constant by a node that is made for it, unless the constant is `0` or
`1`. -/
theorem foldPower_single (hg : g.WellFormed) (hx : g.Elementary V s) (hc : g.Collected s)
    (hs : (g.shape s).IsSymbol) (he : g.Elementary V e) (hec : g.Collected e)
    (hq : g.value? e = some q) :
    Meets Overflow (Evaluation.foldPower s e) g fun z g' => g'.Single V z := by
  have hbase := isBase_of_isSymbol hs
  have hover : Meets Overflow (Evaluation.foldPower s e) g fun z g' =>
      OverBases symbolBases g' z := by
    rw [Evaluation.foldPower_eq]
    apply Meets.get
    apply Meets.ite (fun _ => .pure hg (hg.single_zero (V := V)).overBases)
    intro _
    apply Meets.ite (fun _ => .pure hg (hg.single_one (V := V)).overBases)
    intro _
    apply Meets.ite (fun _ => .pure hg (hg.single_one (V := V)).overBases)
    intro h0
    apply Meets.ite (fun _ => .pure hg (single_of_isSymbol hx hc hs).overBases)
    intro h1
    cases Evaluation.foldedPower? (g.value? s) (g.value? e) with
    | some p =>
      apply (constant_collected hg p).mono
      exact fun _ _ _ _ h => overBases_of_value? h.2
    | none =>
      apply (power_collected hg hc hbase hec h0).mono
      rintro z g' hg' hext ⟨hz, ⟨hone, -⟩ | ⟨-, hn⟩⟩
      · exact absurd hone h1
      have hp := constantPower?_of_node hn ((hext.value?_eq hec.lt_size).trans hq)
      have ho : (g'.node z).isOpenProduct = false :=
        isOpenProduct_of_shape (by rw [shape, hn]; exact Shape.noConfusion)
      intro f hf _
      rw [factors_of_not_product ho, List.mem_singleton] at hf
      rw [hf, baseOf, hp]
      exact symbolBases.of_extends hg hext hc.lt_size ⟨hs, hc.lt_size⟩
  apply ((Evaluation.foldPower_collected hg hx he hc hec hbase).and hover).mono
  exact fun z g' _ _ h => ⟨h.1.1, h.1.2.1, h.2⟩

/-! ### Sums and products -/

theorem combineTerms_combined (hg : g.WellFormed) (hxs : ∀ x ∈ xs, g.Combined V x) :
    Meets Overflow (combineTerms xs) g fun z g' => g'.Combined V z := by
  have hcollected := combineTerms_collected (F := symbolPowers) hg fun x hx =>
    ⟨(hxs x hx).collected, (hxs x hx).overTerms⟩
  have helementary := combineTerms_replays hg fun x hx => (hxs x hx).elementary
  exact (hcollected.and helementary).mono fun _ _ _ _ h => ⟨h.2.1, h.1.1, h.1.2⟩

theorem combineFactors_single (hg : g.WellFormed) (hxs : ∀ x ∈ xs, g.Single V x) :
    Meets Overflow (combineFactors xs) g fun z g' => g'.Single V z := by
  have hcollected := combineFactors_collected (B := symbolBases) hg fun x hx =>
    ⟨(hxs x hx).collected, (hxs x hx).overBases⟩
  have helementary := combineFactors_replays hg fun x hx => (hxs x hx).elementary
  exact (hcollected.and helementary).mono fun _ _ _ _ h => ⟨h.2.1, h.1.1, h.1.2⟩

theorem Factors.readFactor_of_value? (h : g.value? x = some q) (fs : Factors) :
    fs.readFactor g x = { fs with constant := fs.constant * q } := by
  rw [readFactor, factors_of_not_product (isOpenProduct_of_value? h), List.foldl_cons,
    List.foldl_nil, read, h]

theorem Factors.readFactor_of_sum (ho : (g.node x).isOpenSum) (fs : Factors) :
    fs.readFactor g x = { fs with exponents := fs.exponents.add x 1 } := by
  have hbase := isBase_of_isOpenSum ho
  rw [readFactor, factors_of_not_product hbase.not_product, List.foldl_cons, List.foldl_nil, read,
    value?_of_isOpenSum ho, hbase.not_power]

theorem Factors.foldl_of_constants (h : ∀ x ∈ xs, g.value? x ≠ none) (fs : Factors) :
    ∃ c, xs.foldl (readFactor g) fs = { fs with constant := c } := by
  induction xs generalizing fs with
  | nil => exact ⟨fs.constant, rfl⟩
  | cons x xs ih =>
    rw [List.forall_mem_cons] at h
    obtain ⟨q, hq⟩ := Option.ne_none_iff_exists'.1 h.1
    obtain ⟨c, hc⟩ := ih h.2 { fs with constant := fs.constant * q }
    exact ⟨c, by rw [List.foldl_cons, readFactor_of_value? hq, hc]⟩

/-! ### A sum times constants -/

theorem product_of_sum (ho : (g.node x).isOpenSum) : product [x] g = .ok x g := by
  have hvalue : ∀ p, g.hasValue p x = false := fun p => by
    rw [hasValue, value?_of_isOpenSum ho]
    exact decide_eq_false (Option.some_ne_none p).symm
  have hflat : g.flattenProduct [x] = [x] := by
    simp [flattenProduct, (isBase_of_isOpenSum ho).not_product, hvalue]
  rw [product, get_bind, hflat]
  simp only [List.any_cons, List.any_nil, hvalue, Bool.or_self, Bool.false_eq_true, if_false]
  rfl

theorem Factors.foldConstants_of_sum (ho : (g.node x).isOpenSum) (c : Rat) :
    (⟨⟨[(x, 1)]⟩, c⟩ : Factors).foldConstants g = ⟨⟨[(x, 1)]⟩, c⟩ := by
  have hnone : folded? g (x, 1) = none := by
    rw [folded?, foldedValue?, value?_of_isOpenSum ho]
  rw [foldConstants, List.foldl_cons, List.foldl_nil, foldEntry_eq, hnone]

/-- The constant goes into the sum. -/
theorem Factors.placeConstant_of_sum {F : Stable} {c : Rat} (hg : g.WellFormed)
    (hx : g.Collected x) (ho : (g.node x).isOpenSum) (hF : OverTerms F g x) (hc : c ≠ 0) :
    Meets Overflow (placeConstant ⟨⟨[(x, 1)]⟩, c⟩) g fun ws g' => ∃ z, ws.entries = [(z, 1)] ∧
      g'.Collected z ∧ (g'.node z).isOpenSum ∧ OverTerms F g' z := by
  have hhost : hostSum? g ⟨⟨[(x, 1)]⟩, c⟩ = some (x, 1) := by
    simp [hostSum?, ho]
  have hc' : (⟨⟨[(x, 1)]⟩, c⟩ : Factors).constant ≠ 0 := hc
  rw [placeConstant_eq hc']
  apply Meets.ite (fun _ => .pure hg ⟨x, rfl, hx, ho, hF⟩)
  intro _
  apply Meets.get
  rw [hhost]
  have hpos : ¬ (1 : Rat) < 0 := by norm_num
  simp only [if_neg hpos]
  apply (scaleSum_collected hg hx ho hF hc).bind
  rintro z g' hg' - ⟨hz, hzo, hzF, -⟩
  refine .pure hg' ⟨z, ?_, hz, hzo, hzF⟩
  have herase : (⟨[(x, 1)]⟩ : Weights NodeId).erase x = .empty := by
    simp [Weights.erase, Weights.position?, Weights.empty]
  rw [herase]
  exact Weights.add_nil z 1

theorem Factors.emit_of_sum {F : Stable} {c : Rat} (hg : g.WellFormed) (hx : g.Collected x)
    (ho : (g.node x).isOpenSum) (hF : OverTerms F g x) :
    Meets Overflow (emit ⟨⟨[(x, 1)]⟩, c⟩) g fun z g' => g'.Collected z ∧ OverTerms F g' z := by
  rw [emit_eq]
  apply Meets.get
  rw [foldConstants_of_sum ho]
  apply Meets.ite
  · intro _
    have hzero := value?_eq_some.2 (congrArg Node.shape hg.node_zero)
    exact .pure hg ⟨hg.collected_zero, overTerms_of_value? hzero⟩
  intro hc
  apply (placeConstant_of_sum hg hx ho hF hc).bind
  rintro ws g' hg' - ⟨z, hws, hz, hzo, hzF⟩
  have hfactor : weightedFactor? (z, 1) g' = .ok (some z) g' := by
    rw [weightedFactor?, if_neg one_ne_zero]
    simp only [bind, EStateM.bind, checked_eq hz.lt_size]
    rfl
  rw [hws]
  apply Meets.of_eq_ok (a := z) _ hg' ⟨hz, hzF⟩
  simp only [List.filterMapM_cons, bind, EStateM.bind, hfactor]
  exact product_of_sum hzo

/-- Whatever the constants are, they go into the sum. -/
theorem combineFactors_scaled (hg : g.WellFormed) (hx : g.Combined V x)
    (ho : (g.node x).isOpenSum) (hc : ∀ c ∈ xs ++ ys, g.Elementary V c ∧ g.value? c ≠ none) :
    Meets Overflow (combineFactors (xs ++ x :: ys)) g fun z g' => g'.Combined V z := by
  have hread : ∃ c, (xs ++ x :: ys).foldl (Factors.readFactor g) {} = ⟨⟨[(x, 1)]⟩, c⟩ := by
    have hadd : (Weights.empty : Weights NodeId).add x 1 = ⟨[(x, 1)]⟩ :=
      congrArg Weights.mk (Weights.add_nil x 1)
    obtain ⟨p, hp⟩ := Factors.foldl_of_constants
      (fun c hcx => (hc c (List.mem_append_left _ hcx)).2) {}
    obtain ⟨p', hp'⟩ := Factors.foldl_of_constants
      (fun c hcy => (hc c (List.mem_append_right _ hcy)).2) ⟨⟨[(x, 1)]⟩, p⟩
    refine ⟨p', ?_⟩
    rw [List.foldl_append, hp, List.foldl_cons, Factors.readFactor_of_sum ho, hadd, hp']
  have hcollected : Meets Overflow (combineFactors (xs ++ x :: ys)) g fun z g' =>
      g'.Collected z ∧ OverTerms symbolPowers g' z := by
    obtain ⟨c, hread⟩ := hread
    apply Meets.get
    rw [hread]
    exact Factors.emit_of_sum hg hx.collected ho hx.overTerms
  have hall : ∀ y ∈ xs ++ x :: ys, g.Elementary V y := by
    intro y hy
    rcases List.mem_cons.1 (List.perm_middle.subset hy) with rfl | hy
    · exact hx.elementary
    · exact (hc y hy).1
  exact (hcollected.and (combineFactors_replays hg hall)).mono fun _ _ _ _ h =>
    ⟨h.2.1, h.1.1, h.1.2⟩

end ExactAlgebra.Graph
