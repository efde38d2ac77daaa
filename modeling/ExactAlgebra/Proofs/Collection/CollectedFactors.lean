import ExactAlgebra.Proofs.Collection.CollectedTerms

/-!
Combining like factors of collected expressions leads to a collected expression. The bases of its
factors are those of the factors that were combined, or sums that a constant went into.
-/

namespace ExactAlgebra.Graph

/-- A class of nodes that no construction takes a node out of, and that holds, with a sum, what the
sum becomes when a constant goes into it. -/
structure Scalable where
  Holds : Graph → NodeId → Prop
  of_extends : ∀ {g g' : Graph} {x}, g.WellFormed → g.Extends g' → x < g.size → Holds g x →
    Holds g' x
  scaled : ∀ {g : Graph} {x w}, g.WellFormed → g.Collected x → (g.node x).isOpenSum →
    Holds g x → w ≠ 0 → Meets Overflow (scaleSum w x) g fun z g' => Holds g' z

variable {B : Scalable} {g g' : Graph} {x y z f b c k e' : NodeId} {e p q w : Rat}
variable {xs ys zs : List NodeId} {r : NodeId × Rat}

/-- A base of collected products, of a class. -/
structure Base (B : Scalable) (g : Graph) (k : NodeId) : Prop where
  collected : g.Collected k
  isBase : g.IsBase k
  holds : B.Holds g k

/-- The bases of the factors of an expression are of a class. -/
def OverBases (B : Scalable) (g : Graph) (x : NodeId) : Prop :=
  ∀ f ∈ g.factors x, g.value? f = none → B.Holds g (g.baseOf f)

/-- What was read of factors: bases, one entry for each. -/
structure Factors.Tidy (B : Scalable) (g : Graph) (fs : Factors) : Prop where
  distinct : fs.exponents.Distinct
  base : ∀ k ∈ fs.exponents.keys, Base B g k

theorem Base.extends (h : Base B g k) (hg : g.WellFormed) (hx : g.Extends g') : Base B g' k where
  collected := hx.collected hg h.collected
  isBase := (hx.agree hg).isBase h.collected.lt_size h.isBase
  holds := B.of_extends hg hx h.collected.lt_size h.holds

theorem OverBases.extends (h : OverBases B g x) (hg : g.WellFormed) (hx : g.Extends g')
    (hc : g.Collected x) : OverBases B g' x := by
  intro f hf hv
  rw [hx.factors_eq hg hc.lt_size] at hf
  have hfc := hc.factors f hf
  rw [hx.value?_eq hfc.lt_size] at hv
  rw [(hx.agree hg).baseOf_eq hfc.lt_size]
  refine B.of_extends hg hx ?_ (h f hf hv)
  rw [baseOf]
  cases hp : g.constantPower? f with
  | none => exact hfc.lt_size
  | some r => exact (hfc.operands r.1 (constantPower?_mem_operands hp)).lt_size

/-! ### Reading factors -/

/-- The base of a factor of a collected expression. -/
theorem OverBases.base (h : OverBases B g x) (hx : g.Collected x) (hf : f ∈ g.factors x)
    (hv : g.value? f = none) : Base B g (g.baseOf f) := by
  have hfc := hx.factors f hf
  have hB := h f hf hv
  cases hp : g.constantPower? f with
  | none =>
    have hbase : g.baseOf f = f := by rw [baseOf, hp]
    rw [hbase] at hB ⊢
    exact ⟨hfc, ⟨hx.not_product_of_mem_factors hf, hp⟩, hB⟩
  | some r =>
    obtain ⟨b, q⟩ := r
    have hbase : g.baseOf f = b := by rw [baseOf, hp]
    rw [hbase] at hB ⊢
    obtain ⟨hs, -, y, hops, -⟩ := constantPower?_eq_some hp
    have ht := hfc.tidy
    rw [Tidy, hs] at ht
    exact ⟨hfc.operands b (by simp [hops]), (ht b y hops).toIsBase, hB⟩

theorem Factors.Tidy.read {fs : Factors} (h : fs.Tidy B g)
    (hf : g.value? f = none → Base B g (g.baseOf f)) : (fs.read g f).Tidy B g := by
  have hadd : ∀ {k}, Base B g k → ∀ q,
      Factors.Tidy B g { fs with exponents := fs.exponents.add k q } := by
    intro k hk q
    refine ⟨h.distinct.add k q, fun i hi => ?_⟩
    rcases (fs.exponents.mem_keys_add k q i).1 hi with rfl | hi
    · exact hk
    · exact h.base i hi
  unfold Factors.read
  cases hv : g.value? f with
  | some q => exact ⟨h.distinct, h.base⟩
  | none =>
    have hb := hf hv
    cases hp : g.constantPower? f with
    | none =>
      rw [baseOf, hp] at hb
      exact hadd hb 1
    | some r =>
      rw [baseOf, hp] at hb
      exact hadd hb r.2

theorem Factors.Tidy.foldl {h : Factors → NodeId → Factors} {fs : Factors} (hfs : fs.Tidy B g)
    (hh : ∀ fs, ∀ x ∈ xs, fs.Tidy B g → (h fs x).Tidy B g) : (xs.foldl h fs).Tidy B g := by
  induction xs generalizing fs with
  | nil => exact hfs
  | cons x xs ih =>
    rw [List.foldl_cons]
    exact ih (hh fs x (List.mem_cons_self ..) hfs) fun fs y hy =>
      hh fs y (List.mem_cons_of_mem _ hy)

theorem Factors.Tidy.readFactor {fs : Factors} (h : fs.Tidy B g) (hx : g.Collected x)
    (hB : OverBases B g x) : (fs.readFactor g x).Tidy B g :=
  h.foldl fun _ _ hf h => h.read fun hv => hB.base hx hf hv

/-! ### Folding constants -/

theorem Factors.folded?_one (h : g.value? k = some q) : folded? g (k, 1) = some q := by
  have hpower : Rational.power q 1 = .ok (some q) := by
    have hlimit : ¬ ((1 : Rat).num.natAbs > Rational.exponentLimit ∨
        (1 : Rat).den > Rational.exponentLimit) := by decide
    rw [Rational.power, if_neg hlimit]
    split
    · next h0 =>
      rw [h0]
      rfl
    · have hroot : Rational.root? (1 : Rat).den q = some q := if_pos rfl
      rw [hroot]
      simp [Rational.integerPower]
  have hnot : ¬ (q = 0 ∧ (1 : Rat) < 0) := fun h => absurd h.2 (by norm_num)
  simp only [folded?, foldedValue?, h, if_neg hnot, hpower]
  rfl

theorem Factors.Tidy.foldConstants {fs : Factors} (h : fs.Tidy B g) :
    (fs.foldConstants g).Tidy B g ∧
      ∀ r ∈ (fs.foldConstants g).exponents.entries, g.value? r.1 ≠ none → r.2 ≠ 1 := by
  rw [foldConstants_eq g h.distinct]
  refine ⟨⟨h.distinct.of_sublist List.filter_sublist, fun k hk => ?_⟩, ?_⟩
  · exact h.base k ((List.filter_sublist.map Prod.fst).subset hk)
  · rintro ⟨k, e⟩ hr hv rfl
    obtain ⟨q, hq⟩ := Option.ne_none_iff_exists'.1 hv
    have hnone := (List.mem_filter.1 hr).2
    rw [folded?_one hq] at hnone
    cases hnone

/-! ### Placing the constant -/

/--
What a product is built of: bases with exponents, and a constant as it is. A constant with exponent
one stands alone, and beside no sum with exponent one.
-/
structure Placed (B : Scalable) (g : Graph) (ws : Weights NodeId) : Prop where
  distinct : ws.Distinct
  collected : ∀ r ∈ ws.entries, g.Collected r.1
  isBase : ∀ r ∈ ws.entries, g.IsBase r.1
  holds : ∀ r ∈ ws.entries, B.Holds g r.1 ∨ (g.value? r.1 ≠ none ∧ r.2 = 1)
  constant : ∀ r ∈ ws.entries, g.value? r.1 ≠ none → r.2 = 1 →
    g.value? r.1 ≠ some 0 ∧ g.value? r.1 ≠ some 1 ∧ ∀ s ∈ ws.entries, s.1 ≠ r.1 → s.2 = 1 →
      g.value? s.1 = none ∧ (g.node s.1).isOpenSum = false

/-- Where no constant has exponent one, nothing is asked of constants. -/
theorem Placed.of_base {ws : Weights NodeId} (hd : ws.Distinct)
    (hb : ∀ r ∈ ws.entries, Base B g r.1)
    (h1 : ∀ r ∈ ws.entries, g.value? r.1 ≠ none → r.2 ≠ 1) : Placed B g ws where
  distinct := hd
  collected r hr := (hb r hr).collected
  isBase r hr := (hb r hr).isBase
  holds r hr := .inl (hb r hr).holds
  constant r hr hv he := absurd he (h1 r hr hv)

theorem constantPower?_of_shape (h : g.shape x ≠ .power) : g.constantPower? x = none := by
  rw [constantPower?, isOpenPower_of_shape h, if_neg Bool.false_ne_true]

theorem isBase_of_isOpenSum (ho : (g.node x).isOpenSum) : g.IsBase x := by
  refine ⟨isOpenProduct_of_isOpenSum ho, constantPower?_of_shape ?_⟩
  rw [(isOpenSum_iff.1 ho).1]
  exact Shape.noConfusion

theorem isBase_of_value? (h : g.value? x = some q) : g.IsBase x := by
  refine ⟨isOpenProduct_of_value? h, constantPower?_of_shape ?_⟩
  rw [value?_eq_some.1 h]
  exact Shape.noConfusion

theorem value?_of_isOpenSum (ho : (g.node x).isOpenSum) : g.value? x = none := by
  rw [value?, (isOpenSum_iff.1 ho).1]
  rfl

theorem Factors.scale_ne_zero {fs : Factors} {e : Rat} (hc : fs.constant ≠ 0) :
    (if e < 0 then fs.constant⁻¹ else fs.constant) ≠ 0 := by
  split
  · exact inv_ne_zero hc
  · exact hc

/-- A scaled sum in the place of the sum that took the constant in. -/
theorem placed_scaled {ws : Weights NodeId} {z : NodeId} {e : Rat} (hg : g.WellFormed)
    (hext : g.Extends g') (hd : ws.Distinct) (hbase : ∀ r ∈ ws.entries, Base B g r.1)
    (h1 : ∀ r ∈ ws.entries, g.value? r.1 ≠ none → r.2 ≠ 1) (hz : g'.Collected z)
    (ho : (g'.node z).isOpenSum) (hB : B.Holds g' z) : Placed B g' (ws.add z e) := by
  have hcases := fun r hr => Weights.mem_entries_add (r := r) (k := z) (q := e) hd hr
  refine .of_base (hd.add z e) (fun r hr => ?_) fun r hr hv => ?_
  · rcases hcases r hr with ⟨-, hr⟩ | ⟨rfl, -⟩
    · exact (hbase r hr).extends hg hext
    · exact ⟨hz, isBase_of_isOpenSum ho, hB⟩
  · rcases hcases r hr with ⟨-, hr⟩ | ⟨rfl, -⟩
    · rw [hext.value?_eq (hbase r hr).collected.lt_size] at hv
      exact h1 r hr hv
    · exact absurd (value?_of_isOpenSum ho) hv

/-- A constant as a factor of its own, where no sum takes it in. -/
theorem placed_constant {ws : Weights NodeId} {c : NodeId} {w : Rat} (hg : g.WellFormed)
    (hext : g.Extends g') (hd : ws.Distinct) (hbase : ∀ r ∈ ws.entries, Base B g r.1)
    (h1 : ∀ r ∈ ws.entries, g.value? r.1 ≠ none → r.2 ≠ 1)
    (hsums : ∀ r ∈ ws.entries, r.2 = 1 → (g.node r.1).isOpenSum = false) (hc : g'.Collected c)
    (hcv : g'.value? c = some w) (hw0 : w ≠ 0) (hw1 : w ≠ 1) : Placed B g' (ws.add c 1) := by
  have hcases := fun r hr => Weights.mem_entries_add (r := r) (k := c) (q := 1) hd hr
  have hvalue : ∀ r ∈ ws.entries, g'.value? r.1 = g.value? r.1 := fun r hr =>
    hext.value?_eq (hbase r hr).collected.lt_size
  refine ⟨hd.add c 1, fun r hr => ?_, fun r hr => ?_, fun r hr => ?_, fun r hr hv he => ?_⟩
  · rcases hcases r hr with ⟨-, hr⟩ | ⟨rfl, -⟩
    · exact hext.collected hg (hbase r hr).collected
    · exact hc
  · rcases hcases r hr with ⟨-, hr⟩ | ⟨rfl, -⟩
    · exact ((hbase r hr).extends hg hext).isBase
    · exact isBase_of_value? hcv
  · rcases hcases r hr with ⟨-, hr⟩ | ⟨rfl, hk | h1⟩
    · exact .inl ((hbase r hr).extends hg hext).holds
    · obtain ⟨s, hs, hsr⟩ := List.mem_map.1 hk
      exact .inl (hsr ▸ ((hbase s hs).extends hg hext).holds)
    · exact .inr ⟨by simp [hcv], h1⟩
  · -- The other constants have another exponent.
    have hrc : r.1 = c := by
      rcases hcases r hr with ⟨-, hr⟩ | ⟨he, -⟩
      · rw [hvalue r hr] at hv
        exact absurd he (h1 r hr hv)
      · exact he
    rw [hrc, hcv]
    refine ⟨by simp [hw0], by simp [hw1], fun s hs hne hs1 => ?_⟩
    have hs' := ((hcases s hs).resolve_right fun h => hne h.1).2
    rw [hvalue s hs', hext.node_eq s.1 (hbase s hs').collected.lt_size]
    refine ⟨?_, hsums s hs' hs1⟩
    by_contra hv
    exact h1 s hs' hv hs1

theorem Factors.placeConstant_placed {fs : Factors} (hg : g.WellFormed) (h : fs.Tidy B g)
    (h1 : ∀ r ∈ fs.exponents.entries, g.value? r.1 ≠ none → r.2 ≠ 1) (hc : fs.constant ≠ 0) :
    Meets Overflow fs.placeConstant g fun ws g' => Placed B g' ws := by
  have hbase : ∀ r ∈ fs.exponents.entries, Base B g r.1 := fun r hr =>
    h.base r.1 (List.mem_map_of_mem hr)
  rw [placeConstant_eq hc]
  apply Meets.ite
  · exact fun _ => .pure hg (.of_base h.distinct hbase h1)
  intro hc1
  apply Meets.get
  cases hh : fs.hostSum? g with
  | some r =>
    obtain ⟨x, e⟩ := r
    obtain ⟨hmem, ho, he⟩ := hostSum?_eq_some hh
    have hx := hbase _ hmem
    have hw := scale_ne_zero (e := e) hc
    have hscaled := scaleSum_collected (F := .all) hg hx.collected ho (fun _ _ _ _ => trivial) hw
    apply (hscaled.and (B.scaled hg hx.collected ho hx.holds hw)).bind
    rintro z g' hg' hext ⟨⟨hz, hzo, -⟩, hzB⟩
    have hsub := fs.exponents.entries_erase_sublist x
    exact .pure hg' (placed_scaled hg hext (h.distinct.of_sublist hsub)
      (fun r hr => hbase r (hsub.subset hr)) (fun r hr => h1 r (hsub.subset hr)) hz hzo hzB)
  | none =>
    apply (constant_collected hg fs.constant).bind
    rintro c g' hg' hext ⟨hcc, hcv⟩
    have hsums : ∀ r ∈ fs.exponents.entries, r.2 = 1 → (g.node r.1).isOpenSum = false := by
      intro r hr hr1
      simpa [hr1] using List.find?_eq_none.1 hh r hr
    exact .pure hg' (placed_constant hg hext h.distinct hbase h1 hsums hcc hcv hc hc1)

/-! ### Building the product -/

/-- What an entry becomes. -/
def Emitted (g : Graph) (r : NodeId × Rat) (z : NodeId) : Prop :=
  g.Collected z ∧ ((r.2 = 1 ∧ z = r.1) ∨ (r.2 ≠ 1 ∧ g.constantPower? z = some r))

theorem constantPower?_of_node (hn : g.node z = { shape := .power, operands := [b, e'] })
    (he : g.value? e' = some q) : g.constantPower? z = some (b, q) := by
  have ho : (g.node z).isOpenPower = true :=
    isOpenPower_iff.2 ⟨congrArg Node.shape hn, congrArg Node.isLoop hn⟩
  have hops : g.operands z = [b, e'] := congrArg Node.operands hn
  rw [constantPower?, if_pos ho, hops]
  simp only [he, Option.map_some]

theorem Emitted.extends (h : Emitted g r z) (hg : g.WellFormed) (hx : g.Extends g') :
    Emitted g' r z := by
  refine ⟨hx.collected hg h.1, ?_⟩
  rw [(hx.agree hg).constantPower?_eq h.1.lt_size]
  exact h.2

/-- A power of a base is collected. -/
theorem power_collected (hg : g.WellFormed) (hb : g.Collected b) (hbase : g.IsBase b)
    (he : g.Collected e') (h0 : g.value? e' ≠ some 0) :
    Meets Overflow (power b e') g fun z g' => g'.Collected z ∧
      ((g.value? e' = some 1 ∧ z = b) ∨
        (g.value? e' ≠ some 1 ∧ g'.node z = { shape := .power, operands := [b, e'] })) := by
  apply (power_meets hg hb.lt_size he.lt_size).mono
  rintro z g' hg' hx (⟨h1, rfl⟩ | ⟨h1, hlt, hn⟩)
  · exact ⟨hx.collected hg hb, .inl ⟨h1, rfl⟩⟩
  have hs : g'.shape z = .power := congrArg Node.shape hn
  have hops : g'.operands z = [b, e'] := congrArg Node.operands hn
  refine ⟨.node hlt (congrArg Node.isLoop hn) ?_ ?_ ?_, .inr ⟨h1, hn⟩⟩
  · rw [Tidy, hs]
    intro b' e'' h
    rw [hops] at h
    cases h
    exact (hx.agree hg).isRaised hb.lt_size he.lt_size ⟨hbase, h0, h1⟩
  · rw [hs]
    trivial
  · rw [hops]
    intro y hy
    rcases List.mem_pair.1 hy with rfl | rfl
    · exact hx.collected hg hb
    · exact hx.collected hg he

theorem weightedFactor?_emitted (hg : g.WellFormed) (hr : g.Collected r.1) (hb : g.IsBase r.1) :
    Meets Overflow (weightedFactor? r) g fun o g' =>
      (decide (r.2 ≠ 0) = false ∧ o = none) ∨
        (decide (r.2 ≠ 0) = true ∧ ∃ z, o = some z ∧ Emitted g' r z) := by
  apply Meets.ite
  · intro h0
    exact .pure hg (.inl ⟨by simp [h0], rfl⟩)
  intro h0
  have hkeep : decide (r.2 ≠ 0) = true := decide_eq_true h0
  apply (checked_meets hg hr.lt_size).bind
  rintro _ _ - - ⟨rfl, rfl⟩
  apply Meets.ite
  · intro h1
    exact .pure hg (.inr ⟨hkeep, r.1, rfl, hr, .inl ⟨h1, rfl⟩⟩)
  intro h1
  apply (constant_collected hg r.2).bind
  rintro c g₁ hg₁ hx₁ ⟨hc, hcv⟩
  have hb₁ := (hx₁.agree hg).isBase hr.lt_size hb
  apply (power_collected hg₁ (hx₁.collected hg hr) hb₁ hc (by simp [hcv, h0])).bind
  rintro z g₂ hg₂ hx₂ ⟨hz, ⟨h1', -⟩ | ⟨-, hn⟩⟩
  · rw [hcv] at h1'
    exact absurd (Option.some.inj h1') h1
  · have hcv₂ := (hx₂.value?_eq hc.lt_size).trans hcv
    exact .pure hg₂ (.inr ⟨hkeep, z, rfl, hz, .inr ⟨h1, constantPower?_of_node hn hcv₂⟩⟩)

theorem Emitted.value?_eq (h : Emitted g r z) (hv : g.value? z ≠ none) : r.2 = 1 ∧ z = r.1 := by
  rcases h.2 with h | ⟨-, hp⟩
  · exact h
  · rw [value?, (constantPower?_eq_some (b := r.1) (e := r.2) hp).1] at hv
    exact absurd rfl hv

theorem Emitted.baseOf_eq (h : Emitted g r z) (hb : g.IsBase r.1) : g.baseOf z = r.1 := by
  rcases h.2 with ⟨-, rfl⟩ | ⟨-, hp⟩
  · rw [baseOf, hb.not_power]
  · rw [baseOf, hp]

theorem Emitted.not_product (h : Emitted g r z) (hb : g.IsBase r.1) :
    (g.node z).isOpenProduct = false := by
  rcases h.2 with ⟨-, rfl⟩ | ⟨-, hp⟩
  · exact hb.not_product
  · apply isOpenProduct_of_shape
    rw [(constantPower?_eq_some (b := r.1) (e := r.2) hp).1]
    exact Shape.noConfusion

theorem Emitted.isOpenSum (h : Emitted g r z) (ho : (g.node z).isOpenSum) : r.2 = 1 ∧ z = r.1 := by
  rcases h.2 with h | ⟨-, hp⟩
  · exact h
  · have hs := (isOpenSum_iff.1 ho).1
    rw [(constantPower?_eq_some (b := r.1) (e := r.2) hp).1] at hs
    cases hs

theorem pairwise_of_forall₂ {α β : Type} {R : α → β → Prop} {S : α → α → Prop} {T : β → β → Prop}
    {as : List α} {bs : List β} (h : List.Forall₂ R as bs) (hS : as.Pairwise S)
    (hT : ∀ a a' b b', R a b → R a' b' → S a a' → T b b') : bs.Pairwise T := by
  induction h with
  | nil => exact .nil
  | cons hab htail ih =>
    rw [List.pairwise_cons] at hS
    refine List.pairwise_cons.2 ⟨fun b' hb' => ?_, ih hS.2⟩
    obtain ⟨a', ha', h⟩ := exists_of_forall₂ htail hb'
    exact hT _ _ _ _ hab h (hS.1 a' ha')

theorem Placed.extends {ws : Weights NodeId} (h : Placed B g ws) (hg : g.WellFormed)
    (hx : g.Extends g') : Placed B g' ws where
  distinct := h.distinct
  collected r hr := hx.collected hg (h.collected r hr)
  isBase r hr := (hx.agree hg).isBase (h.collected r hr).lt_size (h.isBase r hr)
  holds r hr := by
    rw [hx.value?_eq (h.collected r hr).lt_size]
    exact (h.holds r hr).imp_left (B.of_extends hg hx (h.collected r hr).lt_size)
  constant r hr := by
    rw [hx.value?_eq (h.collected r hr).lt_size]
    intro hv he
    obtain ⟨h0, h1, hs⟩ := h.constant r hr hv he
    refine ⟨h0, h1, fun s hs' hne he' => ?_⟩
    rw [hx.value?_eq (h.collected s hs').lt_size, hx.node_eq s.1 (h.collected s hs').lt_size]
    exact hs s hs' hne he'

/-- What the entries become are factors that are not alike. -/
theorem Placed.factorList {ws : Weights NodeId} {es : List (NodeId × Rat)} (h : Placed B g ws)
    (hes : es.Sublist ws.entries) (hzs : List.Forall₂ (Emitted g) es zs) : g.FactorList zs := by
  have hentry : ∀ z ∈ zs, ∃ r ∈ ws.entries, Emitted g r z := by
    intro z hz
    obtain ⟨r, hr, h⟩ := exists_of_forall₂ hzs hz
    exact ⟨r, hes.subset hr, h⟩
  have hconstant : ∀ z ∈ zs, g.value? z ≠ none → g.value? z ≠ some 0 ∧ g.value? z ≠ some 1 ∧
      ∀ y ∈ zs, ¬ (g.node y).isOpenSum := by
    intro z hz hv
    obtain ⟨r, hr, hrz⟩ := hentry z hz
    obtain ⟨he, rfl⟩ := hrz.value?_eq hv
    obtain ⟨h0, h1, hs⟩ := h.constant r hr hv he
    refine ⟨h0, h1, fun y hy ho => ?_⟩
    obtain ⟨s, hs', hsy⟩ := hentry y hy
    obtain ⟨he', rfl⟩ := hsy.isOpenSum ho
    by_cases hne : s.1 = r.1
    · rw [← hne, value?_of_isOpenSum ho] at hv
      exact hv rfl
    · rw [(hs s hs' hne he').2] at ho
      cases ho
  refine ⟨fun z hz => ?_, fun z hz h0 => ?_, fun z hz h1 => ?_, ?_, fun z hz hv y hy ho => ?_⟩
  · obtain ⟨r, hr, hrz⟩ := hentry z hz
    exact hrz.not_product (h.isBase r hr)
  · exact (hconstant z hz (by simp [h0])).1 h0
  · exact (hconstant z hz (by simp [h1])).2.1 h1
  · have hd : es.Pairwise fun r s => r.1 ≠ s.1 :=
      List.pairwise_map.1 (List.Nodup.sublist (hes.map Prod.fst) h.distinct)
    have hmem : List.Forall₂ (fun r z => r ∈ ws.entries ∧ Emitted g r z) es zs :=
      (List.forall₂_and_left ..).2 ⟨fun r hr => hes.subset hr, hzs⟩
    refine pairwise_of_forall₂ hmem hd ?_
    rintro r s z y ⟨hr, hrz⟩ ⟨hs, hsy⟩ hne hlike
    by_cases hv : g.value? z = none
    · have hbases := hlike.2 hv
      rw [hrz.baseOf_eq (h.isBase r hr), hsy.baseOf_eq (h.isBase s hs)] at hbases
      exact hne hbases
    · have hv' : g.value? y ≠ none := fun hy => hv (hlike.1.2 hy)
      obtain ⟨he, rfl⟩ := hrz.value?_eq hv
      obtain ⟨he', rfl⟩ := hsy.value?_eq hv'
      exact hv' ((h.constant r hr hv he).2.2 s hs hne.symm he').1
  · exact absurd ho ((hconstant z hz hv).2.2 y hy)

theorem overBases_of_value? (h : g.value? x = some q) : OverBases B g x := by
  intro f hf hv
  rw [factors_of_not_product (isOpenProduct_of_value? h), List.mem_singleton] at hf
  rw [hf, h] at hv
  cases hv

/-- Each factor of the product is a constant, or what an entry becomes. -/
theorem product_emitted {ws : Weights NodeId} (hg : g.WellFormed) (h : Placed B g ws) :
    Meets Overflow (do product (← ws.entries.filterMapM weightedFactor?)) g fun z g' =>
      g'.Collected z ∧ ∀ f ∈ g'.factors z, g'.value? f = none → ∃ r ∈ ws.entries, Emitted g' r f := by
  have hmap := Meets.filterMapM (E := Overflow) (f := weightedFactor?) (g := g) (l := ws.entries)
    (P := fun g r => g.Collected r.1 ∧ g.IsBase r.1) (R := Emitted)
    (p := fun r => decide (r.2 ≠ 0)) ?_ ?_ ?_ hg fun r hr => ⟨h.collected r hr, h.isBase r hr⟩
  · apply hmap.bind
    intro zs g₁ hg₁ hx₁ hzs
    have hlist := (h.extends hg hx₁).factorList List.filter_sublist hzs
    have hentry : ∀ z ∈ zs, ∃ r ∈ ws.entries, Emitted g₁ r z := by
      intro z hz
      obtain ⟨r, hr, h⟩ := exists_of_forall₂ hzs hz
      exact ⟨r, (List.mem_filter.1 hr).1, h⟩
    have hzc : ∀ z ∈ zs, g₁.Collected z := fun z hz => (hentry z hz).choose_spec.2.1
    have hperm := List.mergeSort_perm zs g₁.productLe
    have htrans : ∀ a b c, g₁.productLe a b → g₁.productLe b c → g₁.productLe a c :=
      fun _ _ _ => hg₁.productLe_trans
    have hprod := product_collected hg₁ (fun z hz => (hzc z hz).lt_size)
      (by rw [hlist.flattenProduct_eq]; exact hperm.symm) (fun z hz => hzc z (hperm.subset hz))
      (hlist.perm hperm) (List.pairwise_mergeSort htrans hg₁.productLe_total zs)
    apply hprod.mono
    rintro y g₂ hg₂ hx₂ ⟨hy, ⟨-, rfl⟩ | ⟨-, hfactors⟩⟩ <;> refine ⟨hy, fun f hf hv => ?_⟩
    · have hone : g₂.value? one = some 1 := value?_eq_some.2 (congrArg Node.shape hg₂.node_one)
      rw [factors_of_not_product (isOpenProduct_of_value? hone), List.mem_singleton] at hf
      rw [hf, hone] at hv
      cases hv
    · rw [hfactors] at hf
      obtain ⟨r, hr, hrf⟩ := hentry f (hperm.subset hf)
      exact ⟨r, hr, hrf.extends hg₁ hx₂⟩
  · exact fun hg hx h => ⟨hx.collected hg h.1, (hx.agree hg).isBase h.1.lt_size h.2⟩
  · exact fun hg hx h => h.extends hg hx
  · exact fun hg h => weightedFactor?_emitted hg h.1 h.2

theorem product_placed {ws : Weights NodeId} (hg : g.WellFormed) (h : Placed B g ws) :
    Meets Overflow (do product (← ws.entries.filterMapM weightedFactor?)) g fun z g' =>
      g'.Collected z ∧ OverBases B g' z := by
  apply (product_emitted hg h).mono
  rintro z g' - hx ⟨hz, hentry⟩
  refine ⟨hz, fun f hf hv => ?_⟩
  obtain ⟨r, hr, hrf⟩ := hentry f hf hv
  have h' := h.extends hg hx
  rw [hrf.baseOf_eq (h'.isBase r hr)]
  refine (h'.holds r hr).resolve_right fun hc => ?_
  rcases hrf.2 with ⟨-, rfl⟩ | ⟨he, -⟩
  · exact hc.1 hv
  · exact he hc.2

theorem Factors.emit_collected {fs : Factors} (hg : g.WellFormed) (h : fs.Tidy B g) :
    Meets Overflow fs.emit g fun z g' => g'.Collected z ∧ OverBases B g' z := by
  rw [emit_eq]
  apply Meets.get
  obtain ⟨hfold, h1⟩ := h.foldConstants
  apply Meets.ite
  · intro _
    exact .pure hg ⟨hg.collected_zero,
      overBases_of_value? (value?_eq_some.2 (congrArg Node.shape hg.node_zero))⟩
  intro h0
  apply (placeConstant_placed hg hfold h1 h0).bind
  intro ws g' hg' _ hws
  exact product_placed hg' hws

/-- Combining like factors of collected expressions leaves a collected expression. -/
theorem combineFactors_collected (hg : g.WellFormed)
    (hxs : ∀ x ∈ xs, g.Collected x ∧ OverBases B g x) :
    Meets Overflow (combineFactors xs) g fun z g' => g'.Collected z ∧ OverBases B g' z := by
  apply Meets.get
  have hnil : Factors.Tidy B g {} := ⟨List.nodup_nil, fun _ hk => absurd hk List.not_mem_nil⟩
  apply Factors.emit_collected hg
  exact hnil.foldl fun _ x hx h => h.readFactor (hxs x hx).1 (hxs x hx).2

end ExactAlgebra.Graph
