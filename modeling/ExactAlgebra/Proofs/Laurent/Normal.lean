import ExactAlgebra.Proofs.Collection.CollectedFactors
import ExactAlgebra.Proofs.Evaluation.Termination
import ExactAlgebra.Proofs.Laurent.Expansion

/-!
Collected sums of products of powers of symbols, and the Laurent polynomials that can be read from
them: every term has a coefficient and exponents.
-/

namespace ExactAlgebra.Graph

variable {V : Vocabulary} {g g' : Graph} {x y f f' t t' : NodeId} {q : Rat} {library : Library}
variable {ρ : String → ℚˣ} {xs : List NodeId} {v : Rat}

/-- Constants, and powers of symbols. -/
def symbolPowers : Stable where
  Holds g f := g.value? f = none → (g.shape (g.baseOf f)).IsSymbol ∧ g.baseOf f < g.size
  of_extends hg hx hlt h := by
    rw [hx.value?_eq hlt, (hx.agree hg).baseOf_eq hlt]
    exact fun hv => ⟨(hx.shape_eq (h hv).2).symm ▸ (h hv).1, hx.lt_size (h hv).2⟩
  of_value? h hv := by
    rw [h] at hv
    cases hv

/-- A sum of products of powers of symbols, with nothing left to combine. -/
structure Combined (V : Vocabulary) (g : Graph) (x : NodeId) : Prop where
  elementary : g.Elementary V x
  collected : g.Collected x
  overTerms : OverTerms symbolPowers g x

theorem Combined.extends (h : g.Combined V x) (hg : g.WellFormed) (hx : g.Extends g') :
    g'.Combined V x where
  elementary := hx.elementary h.elementary
  collected := hx.collected hg h.collected
  overTerms := h.overTerms.extends hg hx h.collected

/-! ### Reading polynomials -/

/-- The exponent of a factor. -/
def exponentOf (g : Graph) (f : NodeId) : Rat :=
  match g.constantPower? f with
  | some (_, e) => e
  | none => 1

/-- The name of the symbol that a factor is a power of. -/
def baseName (g : Graph) (f : NodeId) : String :=
  match g.shape (g.baseOf f) with
  | .symbol name => name
  | _ => ""

noncomputable def factorPolynomial (g : Graph) (f : NodeId) : Laurent :=
  match g.value? f with
  | some q => .constant q
  | none => .power (g.baseName f) (g.exponentOf f).num

noncomputable def termPolynomial (g : Graph) (t : NodeId) : Laurent :=
  ((g.factors t).map g.factorPolynomial).prod

/-- The polynomial that can be read from a node. -/
noncomputable def expansion (g : Graph) (x : NodeId) : Laurent :=
  ((g.terms x).map g.termPolynomial).sum

theorem AllDenote.eq_map {M : Semantics} {vs : List Rat} {h : NodeId → Rat}
    (hvs : g.AllDenote M xs vs) (hxs : ∀ x ∈ xs, ∀ v, g.Denotes M [] x v → v = h x) :
    vs = xs.map h := by
  induction hvs with
  | nil => rfl
  | cons hv _ ih =>
    rw [List.map_cons, ← hxs _ (by simp) _ hv, ← ih fun x hx => hxs x (List.mem_cons_of_mem _ hx)]

theorem Denotes.eq_of_symbol {name : String} (h : g.Denotes (atUnits library ρ) [] x v)
    (hs : g.shape x = .symbol name) : v = ρ name := by
  obtain ⟨-, vs, -, hv⟩ := h.operands
  rw [hs] at hv
  exact (Option.some.inj hv).symm

theorem baseName_eq (hs : (g.shape (g.baseOf f)).IsSymbol) :
    g.shape (g.baseOf f) = .symbol (g.baseName f) := by
  rw [baseName]
  cases h : g.shape (g.baseOf f) with
  | symbol => rfl
  | _ =>
    rw [h] at hs
    exact hs.elim

/-- The value of a power of a symbol, which has an integer exponent if it has a value. -/
theorem Denotes.of_symbolPower (h : g.Denotes (atUnits library ρ) [] f v)
    (hs : (g.shape (g.baseOf f)).IsSymbol) :
    (g.exponentOf f).den = 1 ∧ v = (ρ (g.baseName f) : ℚ) ^ (g.exponentOf f).num := by
  have hname := baseName_eq hs
  rw [exponentOf]
  rw [baseOf] at hname
  cases hp : g.constantPower? f with
  | none =>
    rw [hp] at hname
    exact ⟨rfl, by rw [h.eq_of_symbol hname]; exact (zpow_one _).symm⟩
  | some r =>
    obtain ⟨b, e⟩ := r
    rw [hp] at hname
    obtain ⟨hshape, -, y, hops, hy⟩ := constantPower?_eq_some hp
    obtain ⟨u, e', hu, he, hpower⟩ := h.power_operands rfl hshape hops
    obtain rfl := he.eq_of_value? hy
    obtain ⟨k, rfl, -, rfl⟩ := integerPower?_eq_some.1 hpower
    exact ⟨rfl, by rw [hu.eq_of_symbol hname]; rfl⟩

/-- Exponents that are integers, as those of an expression with a value are. -/
def Integral (g : Graph) (x : NodeId) : Prop :=
  ∀ t ∈ g.terms x, ∀ f ∈ g.factors t, g.value? f = none → (g.exponentOf f).den = 1

theorem Denotes.eq_factorPolynomial (h : g.Denotes (atUnits library ρ) [] f v)
    (hf : symbolPowers.Holds g f) : v = (g.factorPolynomial f).value ρ := by
  rw [factorPolynomial]
  cases hv : g.value? f with
  | some q => rw [Laurent.value_constant, h.eq_of_value? hv]
  | none => rw [Laurent.value_power, (h.of_symbolPower (hf hv).1).2]

theorem Denotes.eq_termPolynomial (h : g.Denotes (atUnits library ρ) [] t v)
    (ht : ∀ f ∈ g.factors t, symbolPowers.Holds g f) : v = (g.termPolynomial t).value ρ := by
  obtain ⟨vs, hvs, rfl⟩ := h.factors
  rw [hvs.eq_map fun f hf v hv => hv.eq_factorPolynomial (ht f hf), termPolynomial, map_list_prod,
    List.map_map]
  rfl

/-- The value of an expression is that of the polynomial that can be read from it. -/
theorem Denotes.eq_expansion (h : g.Denotes (atUnits library ρ) [] x v)
    (hx : OverTerms symbolPowers g x) : v = (g.expansion x).value ρ := by
  obtain ⟨vs, hvs, rfl⟩ := h.terms
  rw [hvs.eq_map fun t ht v hv => hv.eq_termPolynomial (hx t ht), expansion, map_list_sum,
    List.map_map]
  rfl

theorem AllDenote.exists_of_mem {M : Semantics} {vs : List Rat} (h : g.AllDenote M xs vs)
    (hx : x ∈ xs) : ∃ v, g.Denotes M [] x v := by
  obtain ⟨v, -, hv⟩ := exists_of_forall₂ h.flip hx
  exact ⟨v, hv⟩

theorem Denotes.integral (h : g.Denotes (atUnits library ρ) [] x v)
    (hx : OverTerms symbolPowers g x) : g.Integral x := by
  intro t ht f hf hv
  obtain ⟨vs, hvs, -⟩ := h.terms
  obtain ⟨w, hw⟩ := hvs.exists_of_mem ht
  obtain ⟨us, hus, -⟩ := hw.factors
  obtain ⟨u, hu⟩ := hus.exists_of_mem hf
  exact (hu.of_symbolPower (hx t ht f hf hv).1).1

/-! ### Coefficients and exponents -/

noncomputable def exponents (g : Graph) (t : NodeId) : String →₀ ℤ :=
  ((g.bareFactors t).map fun f => Finsupp.single (g.baseName f) (g.exponentOf f).num).sum

theorem prod_factorPolynomial (hxs : ∀ f ∈ xs, g.value? f = none) :
    (xs.map g.factorPolynomial).prod = AddMonoidAlgebra.single
      (xs.map fun f => Finsupp.single (g.baseName f) (g.exponentOf f).num).sum 1 := by
  induction xs with
  | nil => rfl
  | cons f xs ih =>
    rw [List.forall_mem_cons] at hxs
    rw [List.map_cons, List.map_cons, List.prod_cons, List.sum_cons, ih hxs.2, factorPolynomial,
      hxs.1, Laurent.power, AddMonoidAlgebra.single_mul_single, one_mul]

theorem termPolynomial_eq (ht : ∀ f ∈ g.bareFactors t, g.value? f = none) :
    g.termPolynomial t = AddMonoidAlgebra.single (g.exponents t) (g.coefficient t) := by
  rw [exponents, coefficient, termPolynomial]
  rw [bareFactors] at ht ⊢
  cases hs : g.splitFactors (g.factors t) with
  | none => exact prod_factorPolynomial (splitFactors_eq_none_iff.1 hs)
  | some s =>
    obtain ⟨q, rest⟩ := s
    rw [hs] at ht
    obtain ⟨ys, c, zs, hfactors, rfl, hc, -⟩ := splitFactors_eq_some hs
    have hconst : g.factorPolynomial c = .constant q := by rw [factorPolynomial, hc]
    have hrest := prod_factorPolynomial ht
    rw [List.map_append, List.prod_append] at hrest
    rw [hfactors, List.map_append, List.map_cons, List.prod_append, List.prod_cons, hconst,
      mul_left_comm, hrest, Laurent.constant, AddMonoidAlgebra.single_mul_single, zero_add, mul_one]

/-- What stands beside the coefficient of a term: the bases are different, and in order. -/
structure BareList (g : Graph) (xs : List NodeId) : Prop where
  nonconstant : ∀ f ∈ xs, g.value? f = none
  unlike : xs.Pairwise fun f f' => g.baseOf f ≠ g.baseOf f'
  sorted : xs.Pairwise fun f f' => g.productLe f f'

theorem bareFactors_sublist (g : Graph) (t : NodeId) :
    (g.bareFactors t).Sublist (g.factors t) := by
  rw [bareFactors]
  cases hs : g.splitFactors (g.factors t) with
  | none => exact .refl _
  | some s =>
    obtain ⟨q, rest⟩ := s
    obtain ⟨ys, c, zs, hfactors, rfl, -⟩ := splitFactors_eq_some hs
    rw [hfactors]
    exact (List.sublist_cons_self c zs).append_left ys

theorem Collected.bareList (ht : g.Collected t) : g.BareList (g.bareFactors t) := by
  cases hv : g.value? t with
  | some q =>
    rw [bareFactors_of_value? hv]
    exact ⟨fun _ hf => absurd hf List.not_mem_nil, .nil, .nil⟩
  | none =>
    have hlist := ht.factorList (by simp [hv]) (by simp [hv])
    have hnonconstant : ∀ f ∈ g.bareFactors t, g.value? f = none := by
      rw [bareFactors]
      cases hs : g.splitFactors (g.factors t) with
      | none => exact splitFactors_eq_none_iff.1 hs
      | some s => exact hlist.nonconstant hs
    refine ⟨hnonconstant, ?_, ht.sorted_factors.sublist (g.bareFactors_sublist t)⟩
    refine (hlist.unlike.sublist (g.bareFactors_sublist t)).imp_of_mem ?_
    intro f f' hf hf' hunlike hbase
    exact hunlike ⟨iff_of_true (hnonconstant f hf) (hnonconstant f' hf'), fun _ => hbase⟩

end ExactAlgebra.Graph
