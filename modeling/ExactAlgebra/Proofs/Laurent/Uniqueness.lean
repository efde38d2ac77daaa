import ExactAlgebra.Proofs.Collection.Scaling
import ExactAlgebra.Proofs.Laurent.Normal

/-!
Two collected sums of products of powers of symbols from which the same polynomial can be read are
one node: factors are known from their names and exponents, terms from their factors and
coefficients, and their order is canonical.
-/

namespace ExactAlgebra.Graph

variable {V : Vocabulary} {g : Graph} {x y f f' t t' : NodeId} {q : Rat}

/-! ### Sums over different keys -/

section Singles

variable {α K M : Type} [AddCommMonoid M] {key : α → K} {val : α → M} {as bs : List α} {a : α}

theorem sum_single_apply_of_ne {k : K} (h : ∀ b ∈ bs, k ≠ key b) :
    (bs.map fun a => Finsupp.single (key a) (val a)).sum k = 0 := by
  induction bs with
  | nil => rfl
  | cons b bs ih =>
    rw [List.forall_mem_cons] at h
    rw [List.map_cons, List.sum_cons, Finsupp.add_apply, ih h.2, Finsupp.single_eq_of_ne h.1,
      zero_add]

/-- In a sum over different keys, each has its own value. -/
theorem sum_single_apply (h : as.Pairwise fun a b => key a ≠ key b) (ha : a ∈ as) :
    (as.map fun a => Finsupp.single (key a) (val a)).sum (key a) = val a := by
  induction as with
  | nil => cases ha
  | cons b as ih =>
    rw [List.pairwise_cons] at h
    rw [List.map_cons, List.sum_cons, Finsupp.add_apply]
    rcases List.mem_cons.1 ha with rfl | ha
    · rw [Finsupp.single_eq_same, sum_single_apply_of_ne h.1, add_zero]
    · rw [Finsupp.single_eq_of_ne (h.1 a ha).symm, zero_add, ih h.2 ha]

theorem exists_of_sum_single_eq (has : as.Pairwise fun a b => key a ≠ key b)
    (hbs : bs.Pairwise fun a b => key a ≠ key b)
    (h : (as.map fun a => Finsupp.single (key a) (val a)).sum =
      (bs.map fun a => Finsupp.single (key a) (val a)).sum) (ha : a ∈ as) (h0 : val a ≠ 0) :
    ∃ b ∈ bs, key a = key b ∧ val a = val b := by
  have hval : (as.map fun a => Finsupp.single (key a) (val a)).sum (key a) = val a :=
    sum_single_apply has ha
  rw [h] at hval
  by_contra hne
  push Not at hne
  by_cases hkey : ∃ b ∈ bs, key a = key b
  · obtain ⟨b, hb, hab⟩ := hkey
    rw [hab, sum_single_apply hbs hb] at hval
    exact hne b hb hab hval.symm
  · push Not at hkey
    rw [sum_single_apply_of_ne hkey] at hval
    exact h0 hval.symm

end Singles

/-! ### Powers of symbols -/

theorem Named.eq_of_shape_eq (h : g.Named V) (hx : g.Elementary V x) (hy : g.Elementary V y)
    (hs : g.shape x = g.shape y) (hops : g.operands x = g.operands y) : x = y := by
  apply h.eq_of_tree_eq hx hy
  rw [hx.tree_eq h.wellFormed, hy.tree_eq h.wellFormed, hs, hops]

/-- Constants and symbols are one node each. -/
theorem Named.eq_of_leaf (h : g.Named V) (hx : g.Elementary V x) (hy : g.Elementary V y)
    (hs : g.shape x = g.shape y)
    (hleaf : (∃ q, g.shape x = .constant q) ∨ ∃ name, g.shape x = .symbol name) : x = y := by
  have hnil : ∀ z, g.shape z = g.shape x → g.operands z = [] := by
    intro z hz
    have harity := h.wellFormed.arity z
    rw [hz] at harity
    rcases hleaf with ⟨q, hq⟩ | ⟨name, hname⟩
    · rw [hq] at harity
      exact List.length_eq_zero_iff.1 harity
    · rw [hname] at harity
      exact List.length_eq_zero_iff.1 harity
  exact h.eq_of_shape_eq hx hy hs ((hnil x rfl).trans (hnil y hs.symm).symm)

theorem Named.eq_of_value? (h : g.Named V) (hx : g.Elementary V x) (hy : g.Elementary V y)
    (hq : g.value? x = some q) (hq' : g.value? y = some q) : x = y := by
  rw [value?_eq_some] at hq hq'
  exact h.eq_of_leaf hx hy (hq.trans hq'.symm) (.inl ⟨q, hq⟩)

/-- A power of a symbol with an integer exponent, or the symbol. -/
structure SymbolPower (V : Vocabulary) (g : Graph) (f : NodeId) : Prop where
  elementary : g.Elementary V f
  collected : g.Collected f
  isSymbol : (g.shape (g.baseOf f)).IsSymbol
  integral : (g.exponentOf f).den = 1

theorem SymbolPower.base (h : g.SymbolPower V f) : g.Elementary V (g.baseOf f) := by
  rw [baseOf]
  cases hp : g.constantPower? f with
  | none => exact h.elementary
  | some r => exact h.elementary.operands r.1 (constantPower?_mem_operands hp)

/-- A power has an exponent other than `0` and `1`. -/
theorem Collected.exponent_ne {b : NodeId} {e : Rat} (h : g.Collected f)
    (hp : g.constantPower? f = some (b, e)) : e ≠ 0 ∧ e ≠ 1 := by
  obtain ⟨hs, -, y, hops, hy⟩ := constantPower?_eq_some hp
  have ht := h.tidy
  rw [Tidy, hs] at ht
  have hraised := ht b y hops
  have h0 := hraised.ne_zero
  have h1 := hraised.ne_one
  rw [hy] at h0 h1
  exact ⟨fun he => h0 (congrArg some he), fun he => h1 (congrArg some he)⟩

theorem SymbolPower.num_ne_zero (h : g.SymbolPower V f) : (g.exponentOf f).num ≠ 0 := by
  rw [Rat.num_ne_zero, exponentOf]
  cases hp : g.constantPower? f with
  | none => exact one_ne_zero
  | some r => exact (h.collected.exponent_ne hp).1

theorem SymbolPower.baseOf_eq (hV : g.Named V) (h : g.SymbolPower V f) (h' : g.SymbolPower V f')
    (hname : g.baseName f = g.baseName f') : g.baseOf f = g.baseOf f' := by
  have hs := baseName_eq h.isSymbol
  have hs' := baseName_eq h'.isSymbol
  exact hV.eq_of_leaf h.base h'.base (by rw [hs, hs', hname]) (.inr ⟨_, hs⟩)

/-- A power of a symbol is known from its name and its exponent. -/
theorem SymbolPower.eq (hV : g.Named V) (h : g.SymbolPower V f) (h' : g.SymbolPower V f')
    (hname : g.baseName f = g.baseName f')
    (hnum : (g.exponentOf f).num = (g.exponentOf f').num) : f = f' := by
  have hbase := h.baseOf_eq hV h' hname
  have hexp : g.exponentOf f = g.exponentOf f' :=
    Rat.ext hnum (h.integral.trans h'.integral.symm)
  simp only [baseOf] at hbase
  simp only [exponentOf] at hexp
  cases hp : g.constantPower? f with
  | none =>
    cases hp' : g.constantPower? f' with
    | none => rwa [hp, hp'] at hbase
    | some r' =>
      rw [hp, hp'] at hexp
      exact absurd hexp.symm (h'.collected.exponent_ne hp').2
  | some r =>
    cases hp' : g.constantPower? f' with
    | none =>
      rw [hp, hp'] at hexp
      exact absurd hexp (h.collected.exponent_ne hp).2
    | some r' =>
      obtain ⟨b, e⟩ := r
      obtain ⟨b', e'⟩ := r'
      rw [hp, hp'] at hbase hexp
      obtain rfl : b = b' := hbase
      obtain rfl : e = e' := hexp
      obtain ⟨hs, -, y, hops, hy⟩ := constantPower?_eq_some hp
      obtain ⟨hs', -, y', hops', hy'⟩ := constantPower?_eq_some hp'
      have hye : g.Elementary V y := h.elementary.operands y (by simp [hops])
      have hye' : g.Elementary V y' := h'.elementary.operands y' (by simp [hops'])
      obtain rfl := hV.eq_of_value? hye hye' hy hy'
      exact hV.eq_of_shape_eq h.elementary h'.elementary (hs.trans hs'.symm)
        (hops.trans hops'.symm)

/-! ### Terms -/

/-- A constant times powers of symbols. -/
structure SymbolTerm (V : Vocabulary) (g : Graph) (t : NodeId) : Prop where
  elementary : g.Elementary V t
  collected : g.Collected t
  powers : ∀ f ∈ g.bareFactors t, g.SymbolPower V f

namespace SymbolTerm

theorem pairwise_baseName (hV : g.Named V) (h : g.SymbolTerm V t) :
    (g.bareFactors t).Pairwise fun f f' => g.baseName f ≠ g.baseName f' :=
  h.collected.bareList.unlike.imp_of_mem fun hf hf' hne hname =>
    hne ((h.powers _ hf).baseOf_eq hV (h.powers _ hf') hname)

theorem nodup_bareFactors (h : g.SymbolTerm V t) : (g.bareFactors t).Nodup :=
  h.collected.bareList.unlike.imp fun hne he => hne (congrArg g.baseOf he)

/-- The exponents tell the factors. -/
theorem bareFactors_eq (hV : g.Named V) (h : g.SymbolTerm V t) (h' : g.SymbolTerm V t')
    (he : g.exponents t = g.exponents t') : g.bareFactors t = g.bareFactors t' := by
  have hsub : ∀ {t t'}, g.SymbolTerm V t → g.SymbolTerm V t' → g.exponents t = g.exponents t' →
      ∀ f ∈ g.bareFactors t, f ∈ g.bareFactors t' := by
    intro t t' h h' he f hf
    obtain ⟨f', hf', hname, hnum⟩ := exists_of_sum_single_eq (h.pairwise_baseName hV)
      (h'.pairwise_baseName hV) he hf (h.powers f hf).num_ne_zero
    rwa [(h.powers f hf).eq hV (h'.powers f' hf') hname hnum]
  have hperm : (g.bareFactors t).Perm (g.bareFactors t') :=
    (List.perm_ext_iff_of_nodup h.nodup_bareFactors h'.nodup_bareFactors).2 fun f =>
      ⟨hsub h h' he f, hsub h' h he.symm f⟩
  refine hperm.eq_of_pairwise (fun f f' hf hf' => ?_) h.collected.bareList.sorted
    h'.collected.bareList.sorted
  exact hV.wellFormed.productLe_antisymm (h.powers f hf).elementary.lt_size
    (h'.powers f' hf').elementary.lt_size

end SymbolTerm

/-- Exponents and coefficient tell the term. -/
theorem SymbolTerm.eq (hV : g.Named V) (h : g.SymbolTerm V t) (h' : g.SymbolTerm V t')
    (he : g.exponents t = g.exponents t') (hc : g.coefficient t = g.coefficient t') : t = t' :=
  h.collected.eq_of_coefficient h'.collected hV.wellFormed hc (h.bareFactors_eq hV h' he)

/-! ### Sums -/

theorem Combined.symbolTerm (h : g.Combined V x) (hi : g.Integral x) (ht : t ∈ g.terms x) :
    g.SymbolTerm V t := by
  have hte := h.elementary.terms t ht
  have htc := h.collected.terms t ht
  refine ⟨hte, htc, fun f hf => ?_⟩
  have hfactor := (g.bareFactors_sublist t).subset hf
  have hv := htc.bareList.nonconstant f hf
  exact ⟨hte.factors f hfactor, htc.factors f hfactor, (h.overTerms t ht f hfactor hv).1,
    hi t ht f hfactor hv⟩

theorem coeff_expansion (hx : g.Collected x) :
    (g.expansion x).coeff =
      ((g.terms x).map fun t => Finsupp.single (g.exponents t) (g.coefficient t)).sum := by
  have hmap := map_list_sum (AddMonoidAlgebra.coeffAddEquiv (R := ℚ) (M := String →₀ ℤ))
    ((g.terms x).map g.termPolynomial)
  rw [List.map_map] at hmap
  refine hmap.trans (congrArg List.sum (List.map_congr_left fun t ht => ?_))
  exact congrArg AddMonoidAlgebra.coeff (termPolynomial_eq (hx.terms t ht).bareList.nonconstant)

theorem terms_ne_nil (h : g.Collected x) : g.terms x ≠ [] := by
  rw [terms]
  split
  · next ho =>
    have hlen := (h.tidy_sum ho).2.1
    intro hnil
    rw [hnil] at hlen
    exact absurd hlen (by decide)
  · exact List.cons_ne_nil _ _

theorem Collected.term_ne_zero (hx : g.Collected x) (h0 : g.value? x ≠ some 0)
    (ht : t ∈ g.terms x) : g.value? t ≠ some 0 := by
  rw [Graph.terms] at ht
  split at ht
  · next ho => exact (hx.tidy_sum ho).1.ne_zero t ht
  · rwa [List.mem_singleton.1 ht]

theorem Collected.coefficient_ne_zero (ht : g.Collected t) (h0 : g.value? t ≠ some 0) :
    g.coefficient t ≠ 0 := by
  cases hv : g.value? t with
  | some q =>
    rw [coefficient_of_value? hv]
    rintro rfl
    exact h0 hv
  | none =>
    have hlist := ht.factorList h0 (by simp [hv])
    rcases g.factors_cases t with ⟨hone, -⟩ | ⟨c, hcv, hp⟩
    · rw [hone]
      exact one_ne_zero
    · intro hzero
      rw [hzero] at hcv
      exact hlist.ne_zero c (hp.symm.subset (by simp)) hcv

/-- The terms of a sum have different exponents. -/
theorem Combined.pairwise_exponents (hV : g.Named V) (hx : g.Combined V x) (hi : g.Integral x) :
    (g.terms x).Pairwise fun t t' => g.exponents t ≠ g.exponents t' :=
  hx.collected.unlike_terms.imp_of_mem fun ht ht' hne he =>
    hne ((hx.symbolTerm hi ht).bareFactors_eq hV (hx.symbolTerm hi ht') he)

/-- A term with a coefficient is found in every node from which the same polynomial is read. -/
theorem Combined.mem_terms (hV : g.Named V) (hx : g.Combined V x) (hy : g.Combined V y)
    (hix : g.Integral x) (hiy : g.Integral y) (he : g.expansion x = g.expansion y)
    (ht : t ∈ g.terms x) (h0 : g.value? t ≠ some 0) : t ∈ g.terms y := by
  have hsum := (coeff_expansion hx.collected).symm.trans
    ((congrArg AddMonoidAlgebra.coeff he).trans (coeff_expansion hy.collected))
  obtain ⟨t', ht', hexp, hcoef⟩ := exists_of_sum_single_eq (hx.pairwise_exponents hV hix)
    (hy.pairwise_exponents hV hiy) hsum ht ((hx.collected.terms t ht).coefficient_ne_zero h0)
  rwa [(hx.symbolTerm hix ht).eq hV (hy.symbolTerm hiy ht') hexp hcoef]

/-- Only from the constant `0` the polynomial `0` is read. -/
theorem Combined.value?_eq_zero (hV : g.Named V) (hx : g.Combined V x) (hy : g.Combined V y)
    (hix : g.Integral x) (hiy : g.Integral y) (he : g.expansion x = g.expansion y)
    (h0 : g.value? y = some 0) : g.value? x = some 0 := by
  by_contra hne
  obtain ⟨t, ht⟩ := List.exists_mem_of_ne_nil _ (terms_ne_nil hx.collected)
  have htne := hx.collected.term_ne_zero hne ht
  have hty := hx.mem_terms hV hy hix hiy he ht htne
  rw [terms_of_not_sum (isOpenSum_of_value? h0), List.mem_singleton] at hty
  rw [hty] at htne
  exact htne h0

theorem Combined.eq_of_expansion (hV : g.Named V) (hx : g.Combined V x) (hy : g.Combined V y)
    (hix : g.Integral x) (hiy : g.Integral y) (he : g.expansion x = g.expansion y) : x = y := by
  by_cases hx0 : g.value? x = some 0
  · exact hV.eq_of_value? hx.elementary hy.elementary hx0
      (hy.value?_eq_zero hV hx hiy hix he.symm hx0)
  by_cases hy0 : g.value? y = some 0
  · exact absurd (hx.value?_eq_zero hV hy hix hiy he hy0) hx0
  have hnodup : ∀ {z}, g.Combined V z → g.Integral z → (g.terms z).Nodup := fun hz hi =>
    (hz.pairwise_exponents hV hi).imp fun hne he => hne (congrArg g.exponents he)
  apply eq_of_terms_perm hV.wellFormed hx.collected hy.collected
  refine (List.perm_ext_iff_of_nodup (hnodup hx hix) (hnodup hy hiy)).2 fun t => ⟨?_, ?_⟩
  · exact fun ht => hx.mem_terms hV hy hix hiy he ht (hx.collected.term_ne_zero hx0 ht)
  · exact fun ht => hy.mem_terms hV hx hiy hix he.symm ht (hy.collected.term_ne_zero hy0 ht)

end ExactAlgebra.Graph
