import ExactAlgebra.Proofs.Collection.Collected

/-!
Combining like terms of collected expressions leads to a collected expression. Its terms are made of
factors of the terms that were combined, and of constants.
-/

namespace ExactAlgebra.Graph

/-- A class of nodes that all constants belong to, and that no construction takes a node out of. -/
structure Stable where
  Holds : Graph → NodeId → Prop
  of_extends : ∀ {g g' : Graph} {x}, g.WellFormed → g.Extends g' → x < g.size → Holds g x →
    Holds g' x
  of_value? : ∀ {g : Graph} {x q}, g.value? x = some q → Holds g x

/-- The class of all nodes. -/
def Stable.all : Stable := ⟨fun _ _ => True, fun _ _ _ _ => trivial, fun _ => trivial⟩

variable {F : Stable} {g g' : Graph} {x y c r : NodeId} {p q w : Rat} {xs ys : List NodeId}

/-- A term without constant factors, whose factors are of a class. -/
structure Bare (F : Stable) (g : Graph) (x : NodeId) : Prop where
  collected : g.Collected x
  nonconstant : ∀ f ∈ g.factors x, g.value? f = none
  not_sum : (g.node x).isOpenSum = false
  holds : ∀ f ∈ g.factors x, F.Holds g f

/-- A term of collected sums, whose factors are of a class. -/
structure Term (F : Stable) (g : Graph) (x : NodeId) : Prop where
  collected : g.Collected x
  not_sum : (g.node x).isOpenSum = false
  ne_zero : g.value? x ≠ some 0
  holds : ∀ f ∈ g.factors x, F.Holds g f

theorem Extends.factors_eq (hx : g.Extends g') (hg : g.WellFormed) (h : x < g.size) :
    g'.factors x = g.factors x := (hx.agree hg).factors_eq h

theorem Extends.holds (hx : g.Extends g') (hg : g.WellFormed) (hc : g.Collected x)
    (h : ∀ f ∈ g.factors x, F.Holds g f) : ∀ f ∈ g'.factors x, F.Holds g' f := by
  rw [hx.factors_eq hg hc.lt_size]
  exact fun f hf => F.of_extends hg hx (hc.factors f hf).lt_size (h f hf)

theorem Bare.extends (h : Bare F g x) (hg : g.WellFormed) (hx : g.Extends g') : Bare F g' x where
  collected := hx.collected hg h.collected
  nonconstant := by
    rw [hx.factors_eq hg h.collected.lt_size]
    intro f hf
    rw [hx.value?_eq (h.collected.factors f hf).lt_size]
    exact h.nonconstant f hf
  not_sum := by
    rw [hx.node_eq x h.collected.lt_size]
    exact h.not_sum
  holds := hx.holds hg h.collected h.holds

theorem Term.extends (h : Term F g x) (hg : g.WellFormed) (hx : g.Extends g') : Term F g' x where
  collected := hx.collected hg h.collected
  not_sum := by
    rw [hx.node_eq x h.collected.lt_size]
    exact h.not_sum
  ne_zero := by
    rw [hx.value?_eq h.collected.lt_size]
    exact h.ne_zero
  holds := hx.holds hg h.collected h.holds

theorem Bare.value?_eq (h : Bare F g x) : g.value? x = none := by
  cases hv : g.value? x with
  | none => rfl
  | some q =>
    have hx := h.nonconstant x
    rw [factors_of_not_product (isOpenProduct_of_value? hv), hv] at hx
    exact absurd (hx (List.mem_singleton.2 rfl)) (Option.some_ne_none q)

theorem Bare.bareFactors_eq (h : Bare F g x) : g.bareFactors x = g.factors x :=
  bareFactors_of_nonconstant h.nonconstant

theorem factors_ne_nil (h : g.Collected x) : g.factors x ≠ [] := by
  rw [factors]
  split
  · next ho =>
    intro hnil
    have hlen := h.two_le_factors ho
    rw [factors, if_pos ho, hnil] at hlen
    exact absurd hlen (by decide)
  · exact List.cons_ne_nil x []

theorem Bare.factorList (h : Bare F g x) : g.FactorList (g.factors x) := by
  apply h.collected.factorList <;> rw [h.value?_eq] <;> simp

/-- Bare terms with the same factors are the same. -/
theorem eq_of_factors (hg : g.WellFormed) (hx : g.Collected x) (hy : g.Collected y)
    (h : g.factors x = g.factors y) : x = y := by
  cases hox : (g.node x).isOpenProduct <;> cases hoy : (g.node y).isOpenProduct
  · rw [factors_of_not_product hox, factors_of_not_product hoy] at h
    exact List.singleton_inj.1 h
  · have h2 := hy.two_le_factors hoy
    rw [← h, factors_of_not_product hox] at h2
    exact absurd h2 (by simp)
  · have h2 := hx.two_le_factors hox
    rw [h, factors_of_not_product hoy] at h2
    exact absurd h2 (by simp)
  · rw [factors, factors, if_pos hox, if_pos hoy] at h
    obtain ⟨hsx, hlx⟩ := isOpenProduct_iff.1 hox
    obtain ⟨hsy, hly⟩ := isOpenProduct_iff.1 hoy
    apply hg.eq_of_node_eq hx.lt_size hy.lt_size hlx
    · rw [hsx]
      exact id
    · have hnode : ∀ z, g.node z = ⟨g.shape z, g.operands z, g.isLoop z⟩ := fun _ => rfl
      rw [hnode x, hnode y, hsx, hsy, hlx, hly, h]

/-! ### Coefficients -/

/-- Factors of a class whose product is a bare term. -/
structure Rest (F : Stable) (g : Graph) (ys : List NodeId) : Prop where
  collected : ∀ y ∈ ys, g.Collected y
  nonconstant : ∀ y ∈ ys, g.value? y = none
  holds : ∀ y ∈ ys, F.Holds g y
  factorList : g.FactorList ys
  sorted : ys.Pairwise fun x y => g.productLe x y
  ne_nil : ys ≠ []
  not_sum : ∀ y, ys = [y] → (g.node y).isOpenSum = false

theorem Rest.product (h : Rest F g ys) (hg : g.WellFormed) :
    Meets Overflow (Graph.product ys) g fun r g' => Bare F g' r ∧ g'.factors r = ys := by
  apply (product_collected hg (fun y hy => (h.collected y hy).lt_size)
    (.of_eq h.factorList.flattenProduct_eq) h.collected h.factorList h.sorted).mono
  rintro r g' hg' hext ⟨hr, hfr⟩
  replace hfr := (hfr.resolve_left fun hnil => h.ne_nil hnil.1).2
  refine ⟨⟨hr, ?_, ?_, ?_⟩, hfr⟩
  · rw [hfr]
    intro y hy
    rw [hext.value?_eq (h.collected y hy).lt_size]
    exact h.nonconstant y hy
  · by_contra hsum
    rw [Bool.not_eq_false] at hsum
    rw [factors_of_not_product (isOpenProduct_of_isOpenSum hsum)] at hfr
    have hlt := (h.collected r (by simp [← hfr])).lt_size
    rw [hext.node_eq r hlt, h.not_sum r hfr.symm] at hsum
    cases hsum
  · rw [hfr]
    intro y hy
    exact F.of_extends hg hext (h.collected y hy).lt_size (h.holds y hy)

/-- What is left of a term without its constant factor. -/
theorem Term.rest (hx : Term F g x) (hv : g.value? x = none)
    (hs : g.splitFactors (g.factors x) = some (q, ys)) : q ≠ 0 ∧ Rest F g ys := by
  -- A node with a constant factor is a product, or the constant itself.
  have ho : (g.node x).isOpenProduct = true := by
    by_contra ho
    rw [factors_of_not_product (Bool.eq_false_iff.2 ho), splitFactors, hv] at hs
    cases hs
  obtain ⟨hlist, hlen, hsorted⟩ := hx.collected.tidy_product ho
  have hfactors : g.factors x = g.operands x := by rw [factors, if_pos ho]
  have hholds := hx.holds
  rw [hfactors] at hs hholds
  have hnone := hlist.nonconstant hs
  obtain ⟨as, c, bs, hxs, rfl, hc, -⟩ := splitFactors_eq_some hs
  have hsub : (as ++ bs).Sublist (g.operands x) := by
    rw [hxs]
    exact List.Sublist.append_left (List.sublist_cons_self c bs) as
  have hmem : c ∈ g.operands x := by simp [hxs]
  have hlen' : (g.operands x).length = (as ++ bs).length + 1 := by
    rw [hxs, List.length_append, List.length_append, List.length_cons, Nat.add_assoc]
  refine ⟨?_, ?_⟩
  · rintro rfl
    exact hlist.ne_zero c hmem hc
  exact {
    collected := fun y hy => hx.collected.operands y (hsub.subset hy)
    nonconstant := hnone
    holds := fun y hy => hholds y (hsub.subset hy)
    factorList := hlist.sublist hsub hnone
    sorted := hsorted.sublist hsub
    ne_nil := List.ne_nil_of_length_pos (by omega)
    not_sum := by
      intro y hy
      by_contra hsum
      rw [Bool.not_eq_false] at hsum
      -- Only the constant and the sum: then the constant would have gone into the sum.
      have h3 := hlist.three_le c hmem (by rw [hc]; exact Option.some_ne_none q) y
        (hsub.subset (by simp [hy])) hsum
      rw [hlen', hy] at h3
      exact absurd h3 (by simp) }

theorem extractCoefficient_bare (hg : g.WellFormed) (hx : Term F g x)
    (hv : g.value? x = none) :
    Meets Overflow (extractCoefficient x) g fun r g' =>
      r.1 ≠ 0 ∧ r.1 = g.coefficient x ∧ Bare F g' r.2 ∧ g'.factors r.2 = g.bareFactors x := by
  apply Meets.get
  cases hs : g.splitFactors (g.factors x) with
  | none =>
    have hnone := splitFactors_eq_none_iff.1 hs
    apply Meets.pure hg
    exact ⟨one_ne_zero, (coefficient_of_nonconstant hnone).symm,
      ⟨hx.collected, hnone, hx.not_sum, hx.holds⟩, (bareFactors_of_nonconstant hnone).symm⟩
  | some s =>
    obtain ⟨q, ys⟩ := s
    have hbare : g.bareFactors x = ys := by rw [bareFactors, hs]
    have hcoefficient : g.coefficient x = q := by rw [coefficient, hs]
    obtain ⟨hq, hrest⟩ := hx.rest hv hs
    apply (hrest.product hg).bind
    rintro r g' hg' - ⟨hr, hfr⟩
    exact .pure hg' ⟨hq, hcoefficient.symm, hr, hfr.trans hbare.symm⟩

theorem Extends.bareFactors_eq (hx : g.Extends g') (hg : g.WellFormed) (h : x < g.size) :
    g'.bareFactors x = g.bareFactors x := (hx.agree hg).bareFactors_eq h

theorem Extends.coefficient_eq (hx : g.Extends g') (hg : g.WellFormed) (h : x < g.size) :
    g'.coefficient x = g.coefficient x := (hx.agree hg).coefficient_eq h

/-- The factors of a bare term beside a constant that is not one. -/
theorem Bare.factorList_cons (h : Bare F g r) (hc : g.value? c = some w) (h0 : w ≠ 0)
    (h1 : w ≠ 1) : g.FactorList (c :: g.factors r) := by
  have hr := h.factorList
  have hne : g.value? c ≠ none := by rw [hc]; exact Option.some_ne_none w
  refine ⟨List.forall_mem_cons.2 ⟨isOpenProduct_of_value? hc, hr.not_product⟩,
    List.forall_mem_cons.2 ⟨by simp [hc, h0], hr.ne_zero⟩,
    List.forall_mem_cons.2 ⟨by simp [hc, h1], hr.ne_one⟩, List.pairwise_cons.2 ⟨?_, hr.unlike⟩, ?_⟩
  · intro f hf hlike
    exact hne (hlike.1.2 (h.nonconstant f hf))
  · intro x _ _ y hy hs
    rcases List.mem_cons.1 hy with rfl | hy
    · rw [isOpenSum_of_value? hc] at hs
      cases hs
    rw [List.length_cons]
    by_contra hlen
    -- The only factor would be the term itself, which is no sum.
    have ho : (g.node r).isOpenProduct = false := by
      rw [Bool.eq_false_iff]
      intro ho
      have hlen' := h.collected.two_le_factors ho
      omega
    rw [factors_of_not_product ho, List.mem_singleton] at hy
    rw [hy, h.not_sum] at hs
    cases hs

/-- The factors of a bare term and a constant, without the constant if it is one. -/
theorem Bare.flattenProduct (hr : Bare F g r) (hc : g.Collected c) (hcv : g.value? c = some w)
    (hw : w ≠ 0) (hp : xs.Perm [c, r]) :
    ∃ ys, (w = 1 ∧ ys = g.factors r ∨ ys = c :: g.factors r) ∧ (g.flattenProduct xs).Perm ys ∧
      g.FactorList ys ∧ ys.Pairwise fun x y => g.productLe x y := by
  have hmap := hp.flatMap_right g.factors
  simp only [List.flatMap_cons, List.flatMap_nil, List.append_nil,
    factors_of_not_product (isOpenProduct_of_value? hcv), List.singleton_append] at hmap
  have hrest : (g.factors r).filter (fun x => !g.hasValue 1 x) = g.factors r := by
    rw [List.filter_eq_self]
    intro f hf
    simp [hasValue, hr.nonconstant f hf]
  have hfilter := hmap.filter fun x => !g.hasValue 1 x
  rw [← flattenProduct_eq_filter] at hfilter
  have hle := hr.collected.sorted_factors
  by_cases h1 : w = 1
  · rw [List.filter_cons_of_neg (by simp [hasValue, hcv, h1]), hrest] at hfilter
    exact ⟨_, .inl ⟨h1, rfl⟩, hfilter, hr.factorList, hle⟩
  · rw [List.filter_cons_of_pos (by simp [hasValue, hcv, h1]), hrest] at hfilter
    refine ⟨_, .inr rfl, hfilter, hr.factorList_cons hcv hw h1, List.pairwise_cons.2 ⟨?_, hle⟩⟩
    intro f hf
    exact productLe_of_value? hcv hc.isLoop_eq (hr.nonconstant f hf)
      (hr.collected.factors f hf).isLoop_eq

theorem Bare.term (h : Bare F g x) : Term F g x where
  collected := h.collected
  not_sum := h.not_sum
  ne_zero := by simp [h.value?_eq]
  holds := h.holds

/-- A product of a constant with the factors of a bare term. -/
theorem Bare.term_of_cons {z : NodeId} (hr : Bare F g r) (hg : g.WellFormed) (hext : g.Extends g')
    (hc : g.Collected c) (hcv : g.value? c = some w) (hz : g'.Collected z)
    (hfz : g'.factors z = c :: g.factors r) :
    Term F g' z ∧ g'.value? z = none ∧ g'.bareFactors z = g.factors r ∧ g'.coefficient z = w := by
  have ho : (g'.node z).isOpenProduct = true := by
    by_contra ho
    rw [factors_of_not_product (Bool.eq_false_iff.2 ho)] at hfz
    exact factors_ne_nil hr.collected (List.cons_eq_cons.1 hfz).2.symm
  have hs := (isOpenProduct_iff.1 ho).1
  have hvalue : g'.value? z = none := by
    rw [value?, hs]
    rfl
  have hholds : ∀ f ∈ g'.factors z, F.Holds g' f := by
    rw [hfz, List.forall_mem_cons]
    constructor
    · exact F.of_extends hg hext hc.lt_size (F.of_value? hcv)
    · exact fun f hf => F.of_extends hg hext (hr.collected.factors f hf).lt_size (hr.holds f hf)
  have hsplit : g'.splitFactors (g'.factors z) = some (w, g.factors r) := by
    rw [hfz, splitFactors, hext.value?_eq hc.lt_size, hcv]
  rw [bareFactors, coefficient, hsplit]
  refine ⟨⟨hz, isOpenSum_of_shape ?_, by simp [hvalue], hholds⟩, hvalue, rfl, rfl⟩
  rw [hs]
  exact Shape.noConfusion

/-- A bare term times a number that is not zero. -/
theorem product_bare (hg : g.WellFormed) (hr : Bare F g r) (hc : g.Collected c)
    (hcv : g.value? c = some w) (hw : w ≠ 0) (hp : xs.Perm [c, r]) :
    Meets Overflow (product xs) g fun z g' =>
      Term F g' z ∧ g'.value? z = none ∧ g'.bareFactors z = g.factors r ∧
        g'.coefficient z = w := by
  obtain ⟨ys, hys, hflat, hlist, hsorted⟩ := hr.flattenProduct hc hcv hw hp
  have hcollected : ∀ y ∈ ys, g.Collected y := by
    rcases hys with ⟨-, rfl⟩ | rfl
    · exact hr.collected.factors
    · exact List.forall_mem_cons.2 ⟨hc, hr.collected.factors⟩
  have hne : ys ≠ [] := by
    rcases hys with ⟨-, rfl⟩ | rfl
    · exact factors_ne_nil hr.collected
    · exact List.cons_ne_nil _ _
  have hlt : ∀ x ∈ xs, x < g.size := by
    intro x hx
    rcases List.mem_pair.1 (hp.subset hx) with rfl | rfl
    · exact hc.lt_size
    · exact hr.collected.lt_size
  apply (product_collected hg hlt hflat hcollected hlist hsorted).mono
  rintro z g' hg' hext ⟨hz, hfz⟩
  replace hfz := (hfz.resolve_left fun h => hne h.1).2
  rcases hys with ⟨rfl, rfl⟩ | rfl
  · have hr' := hr.extends hg hext
    have hfr := hext.factors_eq hg hr.collected.lt_size
    obtain rfl := eq_of_factors hg' hz hr'.collected (hfz.trans hfr.symm)
    exact ⟨hr'.term, hr'.value?_eq, hr'.bareFactors_eq.trans hfr,
      coefficient_of_nonconstant hr'.nonconstant⟩
  · exact hr.term_of_cons hg hext hc hcv hz hfz

theorem constant_term (hg : g.WellFormed) (hq : q ≠ 0) :
    Meets Overflow (constant q) g fun z g' => Term F g' z ∧ g'.value? z = some q := by
  apply (constant_collected hg q).mono
  rintro z g' - - ⟨hz, hv⟩
  refine ⟨⟨hz, isOpenSum_of_value? hv, by simp [hv, hq], ?_⟩, hv⟩
  rw [factors_of_not_product (isOpenProduct_of_value? hv)]
  intro f hf
  rw [List.mem_singleton.1 hf]
  exact F.of_value? hv

theorem scaleTerm_collected (hg : g.WellFormed) (hx : Term F g x) (hw : w ≠ 0) :
    Meets Overflow (scaleTerm w x) g fun z g' => Term F g' z ∧
      g'.bareFactors z = g.bareFactors x ∧ g'.coefficient z = g.coefficient x * w := by
  apply Meets.get
  cases hv : g.value? x with
  | some q =>
    have hq : q ≠ 0 := by
      rintro rfl
      exact hx.ne_zero hv
    apply (constant_term hg (mul_ne_zero hq hw)).mono
    rintro z g' - - ⟨hz, hzv⟩
    rw [bareFactors_of_value? hzv, bareFactors_of_value? hv, coefficient_of_value? hzv,
      coefficient_of_value? hv]
    exact ⟨hz, rfl, rfl⟩
  | none =>
    apply (extractCoefficient_bare hg hx hv).bind
    rintro ⟨q, r⟩ g₁ hg₁ - ⟨hq, hqx, hr, hfr⟩
    apply (constant_collected hg₁ (q * w)).bind
    rintro c g₂ hg₂ hx₂ ⟨hc, hcv⟩
    have hfr₂ := hx₂.factors_eq hg₁ hr.collected.lt_size
    apply (product_bare hg₂ (hr.extends hg₁ hx₂) hc hcv (mul_ne_zero hq hw) (.refl _)).mono
    rintro z g₃ - - ⟨hz, -, hbare, hcoefficient⟩
    exact ⟨hz, by rw [hbare, hfr₂, hfr], by rw [hcoefficient, ← hqx]⟩

/-! ### Sums of terms -/

/-- The factors of the terms of an expression are of a class. -/
def OverTerms (F : Stable) (g : Graph) (x : NodeId) : Prop :=
  ∀ y ∈ g.terms x, ∀ f ∈ g.factors y, F.Holds g f

theorem overTerms_of_value? (h : g.value? x = some q) : OverTerms F g x := by
  intro y hy
  rw [terms_of_not_sum (isOpenSum_of_value? h), List.mem_singleton] at hy
  subst hy
  rw [factors_of_not_product (isOpenProduct_of_value? h)]
  exact fun f hf => List.mem_singleton.1 hf ▸ F.of_value? h

theorem map_eq_map_of_forall₂ {α β γ : Type} {h : α → γ} {k : β → γ} {as : List α} {bs : List β}
    (hab : List.Forall₂ (fun a b => k b = h a) as bs) : bs.map k = as.map h := by
  induction hab with
  | nil => rfl
  | cons he _ ih => rw [List.map_cons, List.map_cons, he, ih]

theorem termList_of_terms (hxs : ∀ x ∈ xs, Term F g x) (hd : (xs.map g.bareFactors).Nodup) :
    g.TermList xs :=
  ⟨fun x hx => (hxs x hx).not_sum, fun x hx => (hxs x hx).ne_zero, List.pairwise_map.1 hd⟩

/-- The sum of terms that are not alike. -/
theorem sum_terms (hg : g.WellFormed) (hxs : ∀ x ∈ xs, Term F g x)
    (hd : (xs.map g.bareFactors).Nodup) :
    Meets Overflow (sum xs) g fun z g' =>
      g'.Collected z ∧ OverTerms F g' z ∧
        (2 ≤ xs.length → (g'.node z).isOpenSum ∧ (g'.terms z).Perm xs) := by
  have hlist := termList_of_terms hxs hd
  have hperm := List.mergeSort_perm xs g.sumLe
  have hmem : ∀ y ∈ xs.mergeSort g.sumLe, Term F g y := fun y hy => hxs y (hperm.subset hy)
  have htrans : ∀ a b c, g.sumLe a b → g.sumLe b c → g.sumLe a c := fun _ _ _ => hg.sumLe_trans
  have hsum := sum_collected hg (fun x hx => (hxs x hx).collected.lt_size)
    (by rw [hlist.flattenSum_eq]; exact hperm.symm) (fun y hy => (hmem y hy).collected)
    (hlist.perm hperm) (List.pairwise_mergeSort htrans hg.sumLe_total xs)
  apply hsum.mono
  rintro z g' hg' hext ⟨hz, hterms⟩
  refine ⟨hz, ?_, ?_⟩
  · rcases hterms with ⟨-, rfl⟩ | ⟨-, hterms⟩
    · exact overTerms_of_value? (value?_eq_some.2 (congrArg Node.shape hg'.node_zero))
    · intro y hy
      rw [hterms] at hy
      exact ((hmem y hy).extends hg hext).holds
  · intro hlen
    rw [← hperm.length_eq] at hlen
    have hne : xs.mergeSort g.sumLe ≠ [] := List.ne_nil_of_length_pos (by omega)
    replace hterms := (hterms.resolve_left fun h => hne h.1).2
    refine ⟨?_, hterms ▸ hperm⟩
    by_contra ho
    rw [← hterms, terms_of_not_sum (Bool.eq_false_iff.2 ho)] at hlen
    exact absurd hlen (by simp)

theorem OverTerms.term {t : NodeId} (h : OverTerms F g x) (hx : g.Collected x) (ht : t ∈ g.terms x)
    (h0 : g.value? t ≠ some 0) : Term F g t :=
  ⟨hx.terms t ht, hx.not_sum_of_mem_terms ht, h0, h t ht⟩

/-- Terms times a number, one after another. -/
theorem scaleTerms_collected (hg : g.WellFormed) (hxs : ∀ x ∈ xs, Term F g x) (hw : w ≠ 0) :
    Meets Overflow (xs.mapM (scaleTerm w)) g fun zs g' => List.Forall₂ (fun x z => Term F g' z ∧
      g'.bareFactors z = g.bareFactors x ∧ g'.coefficient z = g.coefficient x * w) xs zs := by
  refine Meets.mapM
    (P := fun g' x => Term F g' x ∧ g'.bareFactors x = g.bareFactors x ∧
      g'.coefficient x = g.coefficient x)
    (R := fun g' x z => Term F g' z ∧ g'.bareFactors z = g.bareFactors x ∧
      g'.coefficient z = g.coefficient x * w)
    ?_ ?_ ?_ hg fun x hx => ⟨hxs x hx, rfl, rfl⟩
  · rintro g₁ g₂ x hg₁ hx₁ ⟨hx, hb, hc⟩
    have hlt := hx.collected.lt_size
    exact ⟨hx.extends hg₁ hx₁, (hx₁.bareFactors_eq hg₁ hlt).trans hb,
      (hx₁.coefficient_eq hg₁ hlt).trans hc⟩
  · rintro g₁ g₂ x z hg₁ hx₁ ⟨hz, hb, hc⟩
    have hlt := hz.collected.lt_size
    exact ⟨hz.extends hg₁ hx₁, (hx₁.bareFactors_eq hg₁ hlt).trans hb,
      (hx₁.coefficient_eq hg₁ hlt).trans hc⟩
  · rintro g₁ x hg₁ ⟨hx, hb, hc⟩
    apply (scaleTerm_collected hg₁ hx hw).mono
    rintro z g₂ - - ⟨hz, hzb, hzc⟩
    exact ⟨hz, hzb.trans hb, hc ▸ hzc⟩

theorem Extends.scaledTerms_eq (hx : g.Extends g') (hg : g.WellFormed) (hc : g.Collected x)
    (w : Rat) : g'.scaledTerms w x = g.scaledTerms w x := by
  rw [scaledTerms, scaledTerms, (hx.agree hg).terms_eq hc.lt_size]
  refine List.map_congr_left fun t ht => ?_
  have hlt := (hc.terms t ht).lt_size
  rw [hx.coefficient_eq hg hlt, hx.bareFactors_eq hg hlt]

/-- A sum times a number is the sum of its terms times the number. -/
theorem scaleSum_collected (hg : g.WellFormed) (hx : g.Collected x) (ho : (g.node x).isOpenSum)
    (hF : OverTerms F g x) (hw : w ≠ 0) :
    Meets Overflow (scaleSum w x) g fun z g' =>
      g'.Collected z ∧ (g'.node z).isOpenSum ∧ OverTerms F g' z ∧ g'.Scaled w x z := by
  obtain ⟨hlist, hlen, -⟩ := hx.tidy_sum ho
  have hterms : g.terms x = g.operands x := by rw [terms, if_pos ho]
  have hmem : ∀ t ∈ g.terms x, Term F g t := fun t ht =>
    hF.term hx ht (hlist.ne_zero t (hterms ▸ ht))
  apply Meets.get
  apply (scaleTerms_collected hg hmem hw).bind
  intro zs g' hg' hext hzs
  have hzmem : ∀ z ∈ zs, Term F g' z := by
    intro z hz
    obtain ⟨_, -, h⟩ := exists_of_forall₂ hzs hz
    exact h.1
  have hd : (zs.map g'.bareFactors).Nodup := by
    rw [map_eq_map_of_forall₂ (hzs.imp fun _ _ h => h.2.1), hterms]
    exact List.pairwise_map.2 hlist.unlike
  apply (sum_terms hg' hzmem hd).mono
  rintro z g'' - hext' ⟨hz, hover, hopen⟩
  obtain ⟨hsum, hperm⟩ := hopen (by rwa [← hzs.length_eq, hterms])
  refine ⟨hz, hsum, hover, ?_⟩
  have hscaled : zs.map (fun t => (g''.coefficient t * 1, g''.bareFactors t)) =
      g.scaledTerms w x := by
    apply map_eq_map_of_forall₂
    refine hzs.imp fun t t' ht' => ?_
    obtain ⟨ht', hb, hc⟩ := ht'
    have hlt := ht'.collected.lt_size
    rw [hext'.coefficient_eq hg' hlt, hext'.bareFactors_eq hg' hlt, hb, hc, mul_one]
  rw [Scaled, (hext.trans hext').scaledTerms_eq hg hx, ← hscaled]
  exact hperm.map _

/-! ### Reading terms -/

/-- The bare terms that were read, one entry for each. -/
structure Terms.Tidy (F : Stable) (g : Graph) (ts : Terms) : Prop where
  distinct : ts.bare.Distinct
  bare : ∀ k ∈ ts.bare.keys, Bare F g k

theorem Terms.Tidy.extends {ts : Terms} (h : ts.Tidy F g) (hg : g.WellFormed)
    (hx : g.Extends g') : ts.Tidy F g' :=
  ⟨h.distinct, fun k hk => (h.bare k hk).extends hg hx⟩

theorem Terms.read_tidy {ts : Terms} (hg : g.WellFormed) (hts : ts.Tidy F g) (hx : g.Collected x)
    (hs : (g.node x).isOpenSum = false) (hF : ∀ f ∈ g.factors x, F.Holds g f) :
    Meets Overflow (ts.read x) g fun ts' g' => ts'.Tidy F g' := by
  apply Meets.get
  cases hv : g.value? x with
  | some q => exact .pure hg ⟨hts.distinct, hts.bare⟩
  | none =>
    apply (extractCoefficient_bare hg ⟨hx, hs, by simp [hv], hF⟩ hv).bind
    rintro ⟨q, r⟩ g' hg' hext ⟨-, -, hr, -⟩
    refine .pure hg' ⟨hts.distinct.add r q, fun k hk => ?_⟩
    rcases (ts.bare.mem_keys_add r q k).1 hk with rfl | hk
    · exact hr
    · exact (hts.bare k hk).extends hg hext

theorem OverTerms.extends (h : OverTerms F g x) (hg : g.WellFormed) (hx : g.Extends g')
    (hc : g.Collected x) : OverTerms F g' x := by
  intro y hy
  rw [(hx.agree hg).terms_eq hc.lt_size] at hy
  exact hx.holds hg (hc.terms y hy) (h y hy)

theorem Terms.readAddend_tidy {ts : Terms} (hg : g.WellFormed) (hts : ts.Tidy F g)
    (hx : g.Collected x) (hF : OverTerms F g x) :
    Meets Overflow (ts.readAddend x) g fun ts' g' => ts'.Tidy F g' := by
  apply Meets.get
  have hterms : ∀ t ∈ g.terms x, g.Collected t ∧ (g.node t).isOpenSum = false ∧
      ∀ f ∈ g.factors t, F.Holds g f := fun t ht =>
    ⟨hx.terms t ht, hx.not_sum_of_mem_terms ht, hF t ht⟩
  apply Meets.foldlM (I := Terms.Tidy F) (P := fun g t => g.Collected t ∧
    (g.node t).isOpenSum = false ∧ ∀ f ∈ g.factors t, F.Holds g f) ?_ ?_ hg hts hterms
  · rintro g₁ g₂ t hg₁ hx₁ ⟨ht, hs, hF⟩
    refine ⟨hx₁.collected hg₁ ht, ?_, hx₁.holds hg₁ ht hF⟩
    rwa [hx₁.node_eq t ht.lt_size]
  · rintro g₁ ts t hg₁ hts ⟨ht, hs, hF⟩
    exact Terms.read_tidy hg₁ hts ht hs hF

/-! ### Building the sum -/

/-- An entry that becomes a term: a bare term with any coefficient, or a constant as it is. -/
def TermEntry (F : Stable) (g : Graph) (r : NodeId × Rat) : Prop :=
  Bare F g r.1 ∨ (Term F g r.1 ∧ g.value? r.1 ≠ none ∧ r.2 = 1)

theorem TermEntry.extends {r : NodeId × Rat} (h : TermEntry F g r) (hg : g.WellFormed)
    (hx : g.Extends g') : TermEntry F g' r := by
  rcases h with h | ⟨h, hv, h1⟩
  · exact .inl (h.extends hg hx)
  · refine .inr ⟨h.extends hg hx, ?_, h1⟩
    rwa [hx.value?_eq h.collected.lt_size]

theorem TermEntry.lt_size {r : NodeId × Rat} (h : TermEntry F g r) : r.1 < g.size := by
  rcases h with h | ⟨h, -⟩
  · exact h.collected.lt_size
  · exact h.collected.lt_size

theorem weightedTerm?_collected {r : NodeId × Rat} (hg : g.WellFormed) (h : TermEntry F g r) :
    Meets Overflow (weightedTerm? r) g fun o g' =>
      (decide (r.2 ≠ 0) = false ∧ o = none) ∨ (decide (r.2 ≠ 0) = true ∧ ∃ z, o = some z ∧
        Term F g' z ∧ g'.bareFactors z = g.bareFactors r.1) := by
  apply Meets.ite
  · intro h0
    exact .pure hg (.inl ⟨by simp [h0], rfl⟩)
  intro h0
  have hkeep : decide (r.2 ≠ 0) = true := decide_eq_true h0
  apply (checked_meets hg h.lt_size).bind
  rintro _ _ - - ⟨rfl, rfl⟩
  apply Meets.ite
  · intro h1
    refine .pure hg (.inr ⟨hkeep, r.1, rfl, ?_, rfl⟩)
    rcases h with h | ⟨h, -⟩
    · exact ⟨h.collected, h.not_sum, by simp [h.value?_eq], h.holds⟩
    · exact h
  intro h1
  have hr := h.resolve_right fun h => h1 h.2.2
  apply (constant_collected hg r.2).bind
  rintro c g₁ hg₁ hx₁ ⟨hc, hcv⟩
  apply (product_bare hg₁ (hr.extends hg hx₁) hc hcv h0 (.swap ..)).bind
  rintro z g₂ hg₂ hx₂ ⟨hz, -, hb, -⟩
  refine .pure hg₂ (.inr ⟨hkeep, z, rfl, hz, ?_⟩)
  rw [hb, hx₁.factors_eq hg hr.collected.lt_size, hr.bareFactors_eq]

/-- The sum of entries that are not alike. -/
theorem sum_entries {es : List (NodeId × Rat)} (hg : g.WellFormed)
    (hes : ∀ r ∈ es, TermEntry F g r) (hd : (es.map fun r => g.bareFactors r.1).Nodup) :
    Meets Overflow (do sum (← es.filterMapM weightedTerm?)) g fun z g' =>
      g'.Collected z ∧ OverTerms F g' z := by
  have hmap := Meets.filterMapM (E := Overflow) (f := weightedTerm?) (g := g) (l := es)
    (P := fun g' r => TermEntry F g' r ∧ g'.bareFactors r.1 = g.bareFactors r.1)
    (R := fun g' r z => Term F g' z ∧ g'.bareFactors z = g.bareFactors r.1)
    (p := fun r => decide (r.2 ≠ 0)) ?_ ?_ ?_ hg fun r hr => ⟨hes r hr, rfl⟩
  · apply hmap.bind
    intro zs g' hg' _ hzs
    have hbare := map_eq_map_of_forall₂ (hzs.imp fun _ _ h => h.2)
    have hd' : (zs.map g'.bareFactors).Nodup := by
      rw [hbare]
      exact hd.sublist (List.filter_sublist.map _)
    have hmem : ∀ z ∈ zs, Term F g' z := by
      intro z hz
      obtain ⟨_, -, h⟩ := exists_of_forall₂ hzs hz
      exact h.1
    exact (sum_terms hg' hmem hd').mono fun _ _ _ _ h => ⟨h.1, h.2.1⟩
  · rintro g₁ g₂ r hg₁ hx₁ ⟨hr, hb⟩
    exact ⟨hr.extends hg₁ hx₁, (hx₁.bareFactors_eq hg₁ hr.lt_size).trans hb⟩
  · rintro g₁ g₂ r z hg₁ hx₁ ⟨hz, hb⟩
    exact ⟨hz.extends hg₁ hx₁, (hx₁.bareFactors_eq hg₁ hz.collected.lt_size).trans hb⟩
  · rintro g₁ r hg₁ ⟨hr, hb⟩
    apply (weightedTerm?_collected hg₁ hr).mono
    rintro o g₂ - - (h | ⟨hk, z, rfl, hz, hzb⟩)
    · exact .inl h
    · exact .inr ⟨hk, z, rfl, hz, hzb.trans hb⟩

theorem Terms.Tidy.nodup {ts : Terms} (h : ts.Tidy F g) (hg : g.WellFormed) :
    (ts.bare.entries.map fun r => g.bareFactors r.1).Nodup := by
  have hkeys : (ts.bare.keys.map g.bareFactors).Nodup := by
    apply List.Nodup.map_on _ h.distinct
    intro x hx y hy hxy
    rw [(h.bare x hx).bareFactors_eq, (h.bare y hy).bareFactors_eq] at hxy
    exact eq_of_factors hg (h.bare x hx).collected (h.bare y hy).collected hxy
  rwa [Weights.keys, List.map_map] at hkeys

theorem Terms.emit_collected {ts : Terms} (hg : g.WellFormed) (hts : ts.Tidy F g) :
    Meets Overflow ts.emit g fun z g' => g'.Collected z ∧ OverTerms F g' z := by
  have hentry : ∀ {g' : Graph}, ts.Tidy F g' → ∀ r ∈ ts.bare.entries, TermEntry F g' r :=
    fun h r hr => .inl (h.bare r.1 (List.mem_map_of_mem hr))
  unfold Terms.emit
  apply Meets.ite
  · intro _
    exact sum_entries hg (hentry hts) (hts.nodup hg)
  intro h0
  apply (constant_term hg h0).bind
  rintro c g' hg' hx ⟨hc, hcv⟩
  have hts' := hts.extends hg hx
  have hnew : c ∉ ts.bare.keys := by
    intro hmem
    rw [(hts'.bare c hmem).value?_eq] at hcv
    cases hcv
  have hadd := Weights.add_of_notMem hnew 1
  apply sum_entries hg'
  · rw [hadd]
    intro r hr
    rcases List.mem_append.1 hr with hr | hr
    · exact hentry hts' r hr
    · rw [List.mem_singleton.1 hr]
      exact .inr ⟨hc, by simp [hcv], rfl⟩
  · rw [hadd, List.map_append, List.nodup_append]
    refine ⟨hts'.nodup hg', List.nodup_singleton _, ?_⟩
    rintro ys hys zs hzs rfl
    obtain ⟨r, hr, rfl⟩ := List.mem_map.1 hys
    have hk := hts'.bare r.1 (List.mem_map_of_mem hr)
    simp only [List.map_cons, List.map_nil, List.mem_singleton, bareFactors_of_value? hcv,
      hk.bareFactors_eq] at hzs
    exact factors_ne_nil hk.collected hzs

/-- Combining like terms of collected expressions leaves a collected expression. -/
theorem combineTerms_collected (hg : g.WellFormed)
    (hxs : ∀ x ∈ xs, g.Collected x ∧ OverTerms F g x) :
    Meets Overflow (combineTerms xs) g fun z g' => g'.Collected z ∧ OverTerms F g' z := by
  have hnil : Terms.Tidy F g {} := ⟨List.nodup_nil, fun _ hk => absurd hk List.not_mem_nil⟩
  have hread := Meets.foldlM (E := Overflow) (f := Terms.readAddend) (I := Terms.Tidy F)
    (P := fun g x => g.Collected x ∧ OverTerms F g x) ?_ ?_ hg hnil hxs
  · exact hread.bind fun ts g' hg' _ hts => Terms.emit_collected hg' hts
  · exact fun hg hx h => ⟨hx.collected hg h.1, h.2.extends hg hx h.1⟩
  · exact fun hg hts h => Terms.readAddend_tidy hg hts h.1 h.2

end ExactAlgebra.Graph
