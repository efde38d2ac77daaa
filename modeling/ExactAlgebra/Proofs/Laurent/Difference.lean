import ExactAlgebra.Proofs.Laurent.Uniqueness

/-!
Expanded expressions in, expanded expressions out: what evaluation makes of an expanded expression is
expanded, and so is the difference of two of them, which stands for the difference of their
polynomials.
-/

namespace ExactAlgebra.Graph

variable {V : Vocabulary} {g g' : Graph} {x y c f t : NodeId} {p q : Laurent} {xs ys : List NodeId}

/-- A monomial, whatever its polynomial is. -/
def IsMonomial (g : Graph) (x : NodeId) : Prop := ∃ p, g.Monomial x p

/-- An expanded expression, whatever its polynomial is. -/
def IsExpanded (g : Graph) (x : NodeId) : Prop := ∃ p, g.Expanded x p

theorem IsMonomial.isExpanded : g.IsMonomial x → g.IsExpanded x := fun ⟨p, h⟩ => ⟨p, .monomial h⟩

theorem isMonomial_of_value? (h : g.value? x ≠ none) : g.IsMonomial x := by
  obtain ⟨q, hq⟩ := Option.ne_none_iff_exists'.1 h
  exact ⟨_, .constant hq⟩

theorem IsMonomial.product (hs : g.shape x = .product) (hops : ∀ y ∈ g.operands x, g.IsMonomial y) :
    g.IsMonomial x := by
  choose! p hp using hops
  exact ⟨_, .product p hs hp⟩

theorem IsExpanded.sum (hs : g.shape x = .sum) (hops : ∀ y ∈ g.operands x, g.IsExpanded y) :
    g.IsExpanded x := by
  choose! p hp using hops
  exact ⟨_, .sum p hs hp⟩

/-! ### Larger graphs -/

theorem Monomial.extends (h : g.Monomial x p) (hx : g.Elementary V x) (hext : g.Extends g') :
    g'.Monomial x p := by
  induction h with
  | constant hq => exact .constant ((hext.value?_eq hx.lt_size).trans hq)
  | symbol hs => exact .symbol ((hext.shape_eq hx.lt_size).trans hs)
  | @power x s e name n hs hops hname hn =>
    have hxs := hx.operands
    rw [hops] at hxs
    exact .power ((hext.shape_eq hx.lt_size).trans hs) ((hext.operands_eq hx.lt_size).trans hops)
      ((hext.shape_eq (hxs s (by simp)).lt_size).trans hname)
      ((hext.value?_eq (hxs e (by simp)).lt_size).trans hn)
  | @product x p hs hops ih =>
    rw [← hext.operands_eq hx.lt_size]
    refine .product p ((hext.shape_eq hx.lt_size).trans hs) fun y hy => ?_
    rw [hext.operands_eq hx.lt_size] at hy
    exact ih y hy (hx.operands y hy)

theorem Expanded.extends (h : g.Expanded x p) (hx : g.Elementary V x) (hext : g.Extends g') :
    g'.Expanded x p := by
  induction h with
  | monomial h => exact .monomial (h.extends hx hext)
  | @sum x p hs hops ih =>
    rw [← hext.operands_eq hx.lt_size]
    refine .sum p ((hext.shape_eq hx.lt_size).trans hs) fun y hy => ?_
    rw [hext.operands_eq hx.lt_size] at hy
    exact ih y hy (hx.operands y hy)
  | @scaled x y p xs ys q hs hops hq _ ih =>
    have hxs := hx.operands
    rw [hops] at hxs
    refine .scaled q ((hext.shape_eq hx.lt_size).trans hs)
      ((hext.operands_eq hx.lt_size).trans hops) (fun c hc => ?_) (ih (hxs y (by simp)))
    have hmem : c ∈ xs ++ y :: ys := List.perm_middle.symm.subset (List.mem_cons_of_mem y hc)
    exact (hext.value?_eq (hxs c hmem).lt_size).trans (hq c hc)

theorem IsExpanded.extends (h : g.IsExpanded x) (hx : g.Elementary V x) (hext : g.Extends g') :
    g'.IsExpanded x := h.imp fun _ hp => hp.extends hx hext

/-! ### Operands -/

theorem not_sum_of_monomial (h : g.Monomial x p) : g.shape x ≠ .sum := by
  cases h with
  | constant hq =>
    rw [value?_eq_some.1 hq]
    exact Shape.noConfusion
  | symbol hs | power hs | product _ hs =>
    rw [hs]
    exact Shape.noConfusion

/-- The terms of an expanded expression are expanded. -/
theorem IsExpanded.terms (h : g.IsExpanded x) (ht : t ∈ g.terms x) : g.IsExpanded t := by
  rw [Graph.terms] at ht
  split at ht
  · next ho =>
    obtain ⟨p, h⟩ := h
    have hs := (isOpenSum_iff.1 ho).1
    cases h with
    | monomial h => exact absurd hs (not_sum_of_monomial h)
    | sum p _ hops => exact ⟨_, hops t ht⟩
    | scaled _ hs' =>
      rw [hs] at hs'
      cases hs'
  · rwa [List.mem_singleton.1 ht]

/-- What the operands of an expanded product are: monomials, or constants beside one other
expression. -/
def Scales (g : Graph) (xs : List NodeId) : Prop :=
  (∀ x ∈ xs, g.IsMonomial x) ∨
    ∃ y cs, xs.Perm (y :: cs) ∧ g.IsExpanded y ∧ ∀ c ∈ cs, g.value? c ≠ none

theorem IsExpanded.scales (h : g.IsExpanded x) : g.Scales [x] :=
  .inr ⟨x, [], .refl _, h, fun _ hc => absurd hc List.not_mem_nil⟩

theorem IsExpanded.factors (h : g.IsExpanded x) : g.Scales (g.factors x) := by
  rw [Graph.factors]
  split
  swap
  · exact h.scales
  next ho =>
    have hs := (isOpenProduct_iff.1 ho).1
    obtain ⟨p, hp⟩ := h
    cases hp with
    | monomial h =>
      cases h with
      | constant hq =>
        rw [value?_eq_some.1 hq] at hs
        cases hs
      | symbol hs' | power hs' =>
        rw [hs] at hs'
        cases hs'
      | product p _ hops => exact .inl fun y hy => ⟨_, hops y hy⟩
    | sum _ hs' =>
      rw [hs] at hs'
      cases hs'
    | @scaled _ y p xs ys q _ hops hq hy =>
      refine .inr ⟨y, xs ++ ys, hops ▸ List.perm_middle, ⟨p, hy⟩, fun c hc => ?_⟩
      rw [hq c hc]
      exact Option.some_ne_none _

namespace Scales

theorem perm (h : g.Scales xs) (hp : ys.Perm xs) : g.Scales ys := by
  rcases h with h | ⟨y, cs, hp', hy, hcs⟩
  · exact .inl fun x hx => h x (hp.subset hx)
  · exact .inr ⟨y, cs, hp.trans hp', hy, hcs⟩

theorem cons (h : g.Scales xs) (hc : g.value? c ≠ none) : g.Scales (c :: xs) := by
  rcases h with h | ⟨y, cs, hp, hy, hcs⟩
  · exact .inl (List.forall_mem_cons.2 ⟨isMonomial_of_value? hc, h⟩)
  · exact .inr ⟨y, c :: cs, (hp.cons c).trans (.swap y c cs), hy, List.forall_mem_cons.2 ⟨hc, hcs⟩⟩

theorem filter (h : g.Scales xs) (keep : NodeId → Bool) : g.Scales (xs.filter keep) := by
  rcases h with h | ⟨y, cs, hp, hy, hcs⟩
  · exact .inl fun x hx => h x (List.mem_filter.1 hx).1
  have hrest : ∀ c ∈ cs.filter keep, g.value? c ≠ none := fun c hc =>
    hcs c (List.mem_filter.1 hc).1
  have hfilter := hp.filter keep
  rw [List.filter_cons] at hfilter
  split at hfilter
  · exact .inr ⟨y, cs.filter keep, hfilter, hy, hrest⟩
  · exact .inl fun x hx => isMonomial_of_value? (hrest x (hfilter.subset hx))

theorem single (h : g.Scales [x]) : g.IsExpanded x := by
  rcases h with h | ⟨y, cs, hp, hy, -⟩
  · exact (h x (by simp)).isExpanded
  · obtain ⟨rfl, -⟩ := List.cons_eq_cons.1 (List.perm_singleton.1 hp.symm)
    exact hy

theorem isExpanded (h : g.Scales (g.operands x)) (hs : g.shape x = .product) : g.IsExpanded x := by
  rcases h with h | ⟨y, cs, hp, ⟨p, hy⟩, hcs⟩
  · exact (IsMonomial.product hs h).isExpanded
  obtain ⟨us, vs, hops⟩ := List.append_of_mem (hp.symm.subset (List.mem_cons_self : y ∈ y :: cs))
  have hrest : (us ++ vs).Perm cs := by
    rw [hops] at hp
    exact (List.perm_middle.symm.trans hp).cons_inv
  have hvalue : ∀ c ∈ us ++ vs, ∃ v, g.value? c = some v := fun c hc =>
    Option.ne_none_iff_exists'.1 (hcs c (hrest.subset hc))
  choose! q hq using hvalue
  exact ⟨_, .scaled q hs hops hq hy⟩

end Scales

theorem Scales.extends (h : g.Scales xs) (hxs : ∀ x ∈ xs, g.Elementary V x) (hext : g.Extends g') :
    g'.Scales xs := by
  rcases h with h | ⟨y, cs, hp, hy, hcs⟩
  · exact .inl fun x hx => (h x hx).imp fun _ hm => hm.extends (hxs x hx) hext
  · refine .inr ⟨y, cs, hp, hy.extends (hxs y (hp.symm.subset (by simp))) hext, fun c hc => ?_⟩
    rw [hext.value?_eq (hxs c (hp.symm.subset (List.mem_cons_of_mem y hc))).lt_size]
    exact hcs c hc

/-! ### Collected sums -/

theorem SymbolPower.isMonomial (h : g.SymbolPower V f) : g.IsMonomial f := by
  have hname := baseName_eq h.isSymbol
  have hint := h.integral
  rw [exponentOf] at hint
  rw [baseOf] at hname
  cases hp : g.constantPower? f with
  | none =>
    rw [hp] at hname
    exact ⟨_, .symbol hname⟩
  | some r =>
    obtain ⟨b, e⟩ := r
    rw [hp] at hname hint
    obtain ⟨hs, -, y, hops, hy⟩ := constantPower?_eq_some hp
    refine ⟨_, .power hs hops hname (n := e.num) ?_⟩
    rw [hy, Rat.coe_int_num_of_den_eq_one hint]

/-- A sum with nothing left to combine is expanded, if its exponents are integers. -/
theorem Combined.isExpanded (h : g.Combined V x) (hi : g.Integral x) : g.IsExpanded x := by
  have hfactor : ∀ t ∈ g.terms x, ∀ f ∈ g.factors t, g.IsMonomial f := by
    intro t ht f hf
    cases hv : g.value? f with
    | some q => exact ⟨_, .constant hv⟩
    | none =>
      have hpower : g.SymbolPower V f :=
        ⟨(h.elementary.terms t ht).factors f hf, (h.collected.terms t ht).factors f hf,
          (h.overTerms t ht f hf hv).1, hi t ht f hf hv⟩
      exact hpower.isMonomial
  have hterm : ∀ t ∈ g.terms x, g.IsExpanded t := by
    intro t ht
    cases ho : (g.node t).isOpenProduct with
    | false =>
      refine (hfactor t ht t ?_).isExpanded
      rw [Graph.factors, ho]
      exact List.mem_singleton_self t
    | true =>
      have hall := hfactor t ht
      rw [Graph.factors, if_pos ho] at hall
      exact (IsMonomial.product (isOpenProduct_iff.1 ho).1 hall).isExpanded
  cases ho : (g.node x).isOpenSum with
  | false =>
    apply hterm
    rw [Graph.terms, ho]
    exact List.mem_singleton_self x
  | true =>
    rw [Graph.terms, if_pos ho] at hterm
    exact .sum (isOpenSum_iff.1 ho).1 hterm

/-! ### Differences -/

theorem Meets.forall {ι α : Type} [Nonempty ι] {E : Error → Graph → Prop} {m : Build α}
    {Q : ι → α → Graph → Prop} (h : ∀ i, Meets E m g (Q i)) :
    Meets E m g fun a g' => ∀ i, Q i a g' := by
  have h₀ := h (Classical.arbitrary ι)
  unfold Meets at h h₀ ⊢
  cases he : m g with
  | ok a g' =>
    simp only [he] at h h₀ ⊢
    exact ⟨h₀.1, h₀.2.1, fun i => (h i).2.2⟩
  | error e g' =>
    simp only [he] at h₀ ⊢
    exact h₀

theorem negate_isExpanded (hg : g.WellFormed) (hx : g.Elementary V x) (h : g.IsExpanded x) :
    Meets Overflow (negate x) g fun y g' => g'.IsExpanded y := by
  apply (constant_meets hg (-1)).bind
  rintro c g₁ hg₁ hext₁ ⟨hlt, hc⟩
  have hvalue : g₁.value? c = some (-1) := by
    rw [value?_eq_some, shape, hc]
  have hx₁ := hext₁.elementary hx
  have hce : g₁.Elementary V c := .of_node hlt hc trivial fun _ hy => absurd hy List.not_mem_nil
  have hpair : ∀ y ∈ [c, x], g₁.Elementary V y := by
    simp only [List.mem_cons, List.not_mem_nil, or_false, forall_eq_or_imp, forall_eq]
    exact ⟨hce, hx₁⟩
  have hflat : g₁.Scales (g₁.flattenProduct [c, x]) := by
    have hfactors : [c, x].flatMap g₁.factors = c :: g₁.factors x := by
      have hopen : (g₁.node c).isOpenProduct = false := by rw [hc]; rfl
      rw [List.flatMap_cons, List.flatMap_singleton, Graph.factors, hopen]
      rfl
    rw [flattenProduct_eq_filter, hfactors]
    apply Scales.filter
    apply Scales.cons ((h.extends hx hext₁).factors)
    rw [hvalue]
    exact Option.some_ne_none _
  have helem := elementary_flattenProduct hpair
  apply (product_meets hg₁ fun y hy => (hpair y hy).lt_size).mono
  rintro y g₂ hg₂ hext₂ (⟨-, rfl⟩ | ⟨-, hy⟩)
  · exact ⟨_, .monomial (.constant (value?_eq_some.2 (congrArg Node.shape hg₂.node_zero)))⟩
  generalize g₁.flattenProduct [c, x] = zs at hflat helem hy
  cases hy with
  | nil => exact ⟨_, .monomial (.constant (value?_eq_some.2 (congrArg Node.shape hg₂.node_one)))⟩
  | single => exact (hflat.extends helem hext₂).single
  | node _ _ hn =>
    refine Scales.isExpanded ?_ (congrArg Node.shape hn)
    rw [operands, hn]
    exact (hflat.extends helem hext₂).perm (List.mergeSort_perm _ _)

theorem sum_isExpanded (hg : g.WellFormed) (hxs : ∀ x ∈ xs, g.Elementary V x)
    (h : ∀ x ∈ xs, g.IsExpanded x) : Meets Overflow (sum xs) g fun y g' => g'.IsExpanded y := by
  have helem := elementary_flattenSum hxs
  have hflat : ∀ y ∈ g.flattenSum xs, g.IsExpanded y := by
    intro y hy
    rw [flattenSum_eq_filter] at hy
    obtain ⟨x, hx, hy⟩ := List.mem_flatMap.1 (List.mem_filter.1 hy).1
    exact (h x hx).terms hy
  apply (sum_meets hg fun y hy => (hxs y hy).lt_size).mono
  intro y g' hg' hext hy
  generalize g.flattenSum xs = zs at hflat helem hy
  cases hy with
  | nil => exact ⟨_, .monomial (.constant (value?_eq_some.2 (congrArg Node.shape hg'.node_zero)))⟩
  | single => exact (hflat y (by simp)).extends (helem y (by simp)) hext
  | node _ _ hn =>
    refine .sum (congrArg Node.shape hn) fun z hz => ?_
    rw [operands, hn] at hz
    have hz := List.mem_mergeSort.1 hz
    exact (hflat z hz).extends (helem z hz) hext

theorem negate_elementary (hg : g.WellFormed) (hx : g.Elementary V x) :
    Replays V (negate x) g fun y g' => g'.Elementary V y := by
  have hconstant : Replays V (constant (-1)) g fun c g' => g'.Elementary V c :=
    constant_replays V hg (-1)
  apply hconstant.bind
  intro c g' hg' hext hc
  apply product_replays hg'
  simp only [List.mem_cons, List.not_mem_nil, or_false, forall_eq_or_imp, forall_eq]
  exact ⟨hc, hext.elementary hx⟩

theorem negate_denotes {M : Semantics} {v : Rat} (hg : g.WellFormed) (hx : g.Denotes M [] x v) :
    Meets Overflow (negate x) g fun y g' => g'.Denotes M [] y (-v) := by
  apply (constant_denotes M hg (-1)).bind
  intro c g' hg' hext hc
  have hm := product_denotes hg' (.pair hc (hx.extends hg hext))
  rwa [List.prod_pair, neg_one_mul] at hm

theorem subtract_denotes {M : Semantics} {v w : Rat} (hg : g.WellFormed) (hx : g.Denotes M [] x v)
    (hy : g.Denotes M [] y w) :
    Meets Overflow (subtract x y) g fun z g' => g'.Denotes M [] z (v - w) := by
  apply (negate_denotes hg hy).bind
  intro n g' hg' hext hn
  have hm := sum_denotes hg' (.pair (hx.extends hg hext) hn)
  rwa [List.sum_pair, ← sub_eq_add_neg] at hm

/-- The difference of expanded expressions is an expanded expression, for the difference of their
polynomials. -/
theorem subtract_expanded (hg : g.WellFormed) (hx : g.Elementary V x) (hy : g.Elementary V y)
    (hp : g.Expanded x p) (hq : g.Expanded y q) :
    Meets Overflow (subtract x y) g fun z g' => g'.Elementary V z ∧ g'.Expanded z (p - q) := by
  have hshape : Meets Overflow (subtract x y) g fun z g' => g'.Elementary V z ∧ g'.IsExpanded z := by
    apply ((negate_isExpanded hg hy ⟨q, hq⟩).and (negate_elementary hg hy)).bind
    rintro n g₁ hg₁ hext₁ ⟨hn, hne, -⟩
    have hxs : ∀ z ∈ [x, n], g₁.Elementary V z ∧ g₁.IsExpanded z := by
      simp only [List.mem_cons, List.not_mem_nil, or_false, forall_eq_or_imp, forall_eq]
      exact ⟨⟨hext₁.elementary hx, p, hp.extends hx hext₁⟩, hne, hn⟩
    have hsum := sum_isExpanded hg₁ (fun z hz => (hxs z hz).1) fun z hz => (hxs z hz).2
    apply (hsum.and (sum_replays hg₁ fun z hz => (hxs z hz).1)).mono
    exact fun _ _ _ _ h => ⟨h.2.1, h.1⟩
  have hvalue : ∀ ρ, Meets Overflow (subtract x y) g fun z g' =>
      g'.Denotes (atUnits .silent ρ) [] z ((p - q).value ρ) := by
    intro ρ
    rw [map_sub]
    exact subtract_denotes hg (hp.denotes hg hx) (hq.denotes hg hy)
  apply (hshape.and (.forall hvalue)).mono
  rintro z g' hg' - ⟨⟨hz, r, hr⟩, hv⟩
  have heq : r = p - q := Laurent.eq_of_value fun ρ =>
    have hr' : g'.Denotes (atUnits .silent ρ) [] z (r.value ρ) := hr.denotes hg' hz
    hr'.unique (hv ρ)
  exact ⟨hz, heq ▸ hr⟩

end ExactAlgebra.Graph
