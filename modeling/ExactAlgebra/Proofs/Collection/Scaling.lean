import ExactAlgebra.Proofs.Collection.CollectedTerms

/-!
Numbers act on collected sums. A term is told apart by its coefficient and by what stands beside it,
and a sum by its terms; multiplying by a number changes the coefficients only. So it makes no
difference whether a sum is multiplied by two numbers, one after the other, or by their product.
-/

namespace ExactAlgebra.Graph

variable {F : Stable} {g g' : Graph} {x y z c : NodeId} {q v w : Rat}

/-! ### Terms -/

theorem eq_of_value? (hg : g.WellFormed) (hx : g.Collected x) (hy : g.Collected y)
    (hxq : g.value? x = some q) (hyq : g.value? y = some q) : x = y := by
  have hnode : ∀ {z}, g.Collected z → g.value? z = some q → g.node z = { shape := .constant q } := by
    intro z hz hzq
    have hs := value?_eq_some.1 hzq
    have hn : g.node z = ⟨g.shape z, g.operands z, g.isLoop z⟩ := rfl
    rw [hn, hs, hg.constant_operands hs, hz.isLoop_eq]
  apply hg.eq_of_node_eq hx.lt_size hy.lt_size hx.isLoop_eq
  · rw [value?_eq_some.1 hxq]
    exact id
  · rw [hnode hx hxq, hnode hy hyq]

/-- The factors of a term are its bare factors, and its coefficient if there is one. -/
theorem factors_cases (g : Graph) (t : NodeId) :
    (g.coefficient t = 1 ∧ g.factors t = g.bareFactors t) ∨
      ∃ c, g.value? c = some (g.coefficient t) ∧ (g.factors t).Perm (c :: g.bareFactors t) := by
  rw [coefficient, bareFactors]
  cases hs : g.splitFactors (g.factors t) with
  | none => exact .inl ⟨rfl, rfl⟩
  | some s =>
    obtain ⟨q, rest⟩ := s
    obtain ⟨ys, c, zs, hfactors, rfl, hc, -⟩ := splitFactors_eq_some hs
    exact .inr ⟨c, hc, hfactors ▸ List.perm_middle⟩

theorem eq_of_factors_perm (hg : g.WellFormed) (hx : g.Collected x) (hy : g.Collected y)
    (hp : (g.factors x).Perm (g.factors y)) : x = y := by
  apply eq_of_factors hg hx hy
  refine hp.eq_of_pairwise (fun f f' hf hf' => ?_) hx.sorted_factors hy.sorted_factors
  exact hg.productLe_antisymm (hx.factors f hf).lt_size (hy.factors f' hf').lt_size

/-- A term with a coefficient of `1` has factors besides, none of them constant. -/
theorem Collected.value?_ne_one (hx : g.Collected x) (hc : c ∈ g.factors x)
    (hne : g.bareFactors x ≠ []) : g.value? c ≠ some 1 := by
  have hv : g.value? x = none := by
    by_contra hv
    obtain ⟨q, hq⟩ := Option.ne_none_iff_exists'.1 hv
    exact hne (bareFactors_of_value? hq)
  exact (hx.factorList (by simp [hv]) (by simp [hv])).ne_one c hc

/-- Terms with the same bare factors, one of which has a coefficient among its factors. -/
theorem coefficient_ne (hx : g.Collected x) (hy : g.Collected y)
    (hbare : g.bareFactors x = g.bareFactors y) (hfactors : g.factors x = g.bareFactors x)
    (hc : c ∈ g.factors y) : g.value? c ≠ some 1 := by
  apply hy.value?_ne_one hc
  rw [← hbare, ← hfactors]
  exact factors_ne_nil hx

/-- A term is told apart by its coefficient and by what stands beside it. -/
theorem Collected.eq_of_coefficient (hx : g.Collected x) (hy : g.Collected y) (hg : g.WellFormed)
    (hc : g.coefficient x = g.coefficient y) (hb : g.bareFactors x = g.bareFactors y) : x = y := by
  apply eq_of_factors_perm hg hx hy
  rcases g.factors_cases x with ⟨hone, hf⟩ | ⟨c, hcv, hp⟩ <;>
    rcases g.factors_cases y with ⟨hone', hf'⟩ | ⟨c', hcv', hp'⟩
  · rw [hf, hf', hb]
  · rw [← hc, hone] at hcv'
    exact absurd hcv' (coefficient_ne hx hy hb hf (hp'.symm.subset (by simp)))
  · rw [hc, hone'] at hcv
    exact absurd hcv (coefficient_ne hy hx hb.symm hf' (hp.symm.subset (by simp)))
  · have hcc := hx.factors c (hp.symm.subset (by simp))
    have hcc' := hy.factors c' (hp'.symm.subset (by simp))
    rw [← hc] at hcv'
    obtain rfl := eq_of_value? hg hcc hcc' hcv hcv'
    exact (hb ▸ hp).trans hp'.symm

/-! ### Sums -/

/-- The terms of a sum tell the sum. -/
theorem eq_of_terms (hg : g.WellFormed) (hx : g.Collected x) (hy : g.Collected y)
    (h : g.terms x = g.terms y) : x = y := by
  have hlen : ∀ {z}, g.Collected z → (g.node z).isOpenSum → 2 ≤ (g.terms z).length := by
    intro z hz ho
    rw [terms, if_pos ho]
    exact (hz.tidy_sum ho).2.1
  cases hox : (g.node x).isOpenSum <;> cases hoy : (g.node y).isOpenSum
  · rw [terms_of_not_sum hox, terms_of_not_sum hoy] at h
    exact List.singleton_inj.1 h
  · have h2 := hlen hy hoy
    rw [← h, terms_of_not_sum hox] at h2
    exact absurd h2 (by simp)
  · have h2 := hlen hx hox
    rw [h, terms_of_not_sum hoy] at h2
    exact absurd h2 (by simp)
  · rw [terms, terms, if_pos hox, if_pos hoy] at h
    obtain ⟨hsx, hlx⟩ := isOpenSum_iff.1 hox
    obtain ⟨hsy, hly⟩ := isOpenSum_iff.1 hoy
    apply hg.eq_of_node_eq hx.lt_size hy.lt_size hlx
    · rw [hsx]
      exact id
    · have hnode : ∀ z, g.node z = ⟨g.shape z, g.operands z, g.isLoop z⟩ := fun _ => rfl
      rw [hnode x, hnode y, hsx, hsy, hlx, hly, h]

theorem Collected.sorted_terms (h : g.Collected x) :
    (g.terms x).Pairwise fun x y => g.sumLe x y := by
  rw [Graph.terms]
  split
  · next ho => exact (h.tidy_sum ho).2.2
  · exact List.pairwise_singleton ..

theorem eq_of_terms_perm (hg : g.WellFormed) (hx : g.Collected x) (hy : g.Collected y)
    (hp : (g.terms x).Perm (g.terms y)) : x = y := by
  apply eq_of_terms hg hx hy
  refine hp.eq_of_pairwise (fun t t' ht ht' => ?_) hx.sorted_terms hy.sorted_terms
  exact hg.sumLe_antisymm (hx.terms t ht).lt_size (hy.terms t' ht').lt_size

theorem Collected.unlike_terms (hx : g.Collected x) :
    (g.terms x).Pairwise fun t t' => g.bareFactors t ≠ g.bareFactors t' := by
  rw [Graph.terms]
  split
  · next ho => exact (hx.tidy_sum ho).1.unlike
  · exact List.pairwise_singleton ..

/-- A sum is told apart by the coefficients of its terms and what stands beside them. -/
theorem Collected.eq_of_scaledTerms (hx : g.Collected x) (hy : g.Collected y) (hg : g.WellFormed)
    (h : g.Scaled 1 x y) : x = y := by
  have hnodup : ∀ {z}, g.Collected z → (g.terms z).Nodup := fun hz =>
    hz.unlike_terms.imp fun hne he => hne (congrArg g.bareFactors he)
  have hsub : ∀ {x y}, g.Collected x → g.Collected y →
      (g.scaledTerms 1 x).Perm (g.scaledTerms 1 y) → ∀ t ∈ g.terms x, t ∈ g.terms y := by
    intro x y hx hy hp t ht
    have hmem : (g.coefficient t * 1, g.bareFactors t) ∈ g.scaledTerms 1 y :=
      hp.subset (List.mem_map_of_mem ht)
    obtain ⟨t', ht', he⟩ := List.mem_map.1 hmem
    simp only [mul_one, Prod.mk.injEq] at he
    rwa [← (hy.terms t' ht').eq_of_coefficient (hx.terms t ht) hg he.1 he.2]
  apply eq_of_terms_perm hg hx hy
  rw [List.perm_ext_iff_of_nodup (hnodup hx) (hnodup hy)]
  exact fun t => ⟨hsub hx hy h.symm t, hsub hy hx h t⟩

theorem scaledTerms_mul (g : Graph) (v w : Rat) (x : NodeId) :
    g.scaledTerms (v * w) x = (g.scaledTerms v x).map fun p => (p.1 * w, p.2) := by
  rw [scaledTerms, scaledTerms, List.map_map]
  refine List.map_congr_left fun t _ => ?_
  rw [Function.comp_apply, mul_assoc]

/-- `z` is the sum `x` times a number. -/
structure IsMultiple (g : Graph) (w : Rat) (x z : NodeId) : Prop where
  collected : g.Collected z
  isOpenSum : (g.node z).isOpenSum
  scaled : g.Scaled w x z

theorem IsMultiple.one (hx : g.Collected x) (ho : (g.node x).isOpenSum) : g.IsMultiple 1 x x :=
  ⟨hx, ho, .refl _⟩

theorem IsMultiple.trans (h : g.IsMultiple v x y) (h' : g.IsMultiple w y z) : g.IsMultiple (v * w) x z where
  collected := h'.collected
  isOpenSum := h'.isOpenSum
  scaled := by
    have hstep := h.scaled.map fun p => (p.1 * w, p.2)
    rw [← scaledTerms_mul, ← scaledTerms_mul, one_mul] at hstep
    exact h'.scaled.trans hstep

theorem IsMultiple.extends (h : g.IsMultiple w x z) (hg : g.WellFormed) (hx : g.Collected x)
    (hext : g.Extends g') : g'.IsMultiple w x z where
  collected := hext.collected hg h.collected
  isOpenSum := by
    rw [hext.node_eq z h.collected.lt_size]
    exact h.isOpenSum
  scaled := by
    rw [Scaled, hext.scaledTerms_eq hg h.collected, hext.scaledTerms_eq hg hx]
    exact h.scaled

/-- There is one sum that is `x` times a number. -/
theorem IsMultiple.unique (h : g.IsMultiple w x y) (h' : g.IsMultiple w x z) (hg : g.WellFormed) : y = z :=
  h.collected.eq_of_scaledTerms h'.collected hg (h'.scaled.trans h.scaled.symm)

theorem scaleSum_isMultiple (hg : g.WellFormed) (hx : g.Collected x) (ho : (g.node x).isOpenSum)
    (hw : w ≠ 0) : Meets Overflow (scaleSum w x) g fun z g' => g'.IsMultiple w x z :=
  (scaleSum_collected (F := .all) hg hx ho (fun _ _ _ _ => trivial) hw).mono
    fun _ _ _ _ h => ⟨h.1, h.2.1, h.2.2.2⟩

/-- A sum times a number, times another one. -/
def scaleTwice (v w : Rat) (x : NodeId) : Build NodeId := do scaleSum w (← scaleSum v x)

theorem scaleTwice_isMultiple (hg : g.WellFormed) (hx : g.Collected x)
    (ho : (g.node x).isOpenSum) (hv : v ≠ 0) (hw : w ≠ 0) :
    Meets Overflow (scaleTwice v w x) g fun z g' => g'.IsMultiple (v * w) x z := by
  apply (scaleSum_isMultiple hg hx ho hv).bind
  intro y g' hg' hext hy
  apply (scaleSum_isMultiple hg' hy.collected hy.isOpenSum hw).mono
  intro z g'' _ hext' hz
  exact (hy.extends hg' (hext.collected hg hx) hext').trans hz

end ExactAlgebra.Graph
