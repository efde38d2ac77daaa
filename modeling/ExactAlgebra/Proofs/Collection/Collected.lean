import ExactAlgebra.Proofs.Collection.Factors
import ExactAlgebra.Proofs.Collection.Replay
import ExactAlgebra.Proofs.Graph.Sharing

/-!
Sums without like terms and products without like factors, in canonical order: the expressions that
evaluation leaves. Constructions from the operands of such expressions lead to such expressions
again, as long as no two of the operands are alike.
-/

namespace ExactAlgebra.Graph

variable {g g' t : Graph} {x y z f b e c k : NodeId} {q : Rat} {xs ys zs : List NodeId}
variable {P : NodeId → Prop}

/-- The factors of a term without its first constant one. -/
def bareFactors (g : Graph) (t : NodeId) : List NodeId :=
  match g.splitFactors (g.factors t) with
  | some (_, rest) => rest
  | none => g.factors t

/-- The first constant factor of a term, or one. -/
def coefficient (g : Graph) (t : NodeId) : Rat :=
  match g.splitFactors (g.factors t) with
  | some (q, _) => q
  | none => 1

/-- The terms of an expression times a number: their coefficients, and what stands beside them. -/
def scaledTerms (g : Graph) (w : Rat) (x : NodeId) : List (Rat × List NodeId) :=
  (g.terms x).map fun t => (g.coefficient t * w, g.bareFactors t)

/-- The terms of `z` are those of `x` times a number, in any order. -/
def Scaled (g : Graph) (w : Rat) (x z : NodeId) : Prop :=
  (g.scaledTerms 1 z).Perm (g.scaledTerms w x)

/-- The left operand of a power with a constant exponent, else the factor itself. -/
def baseOf (g : Graph) (f : NodeId) : NodeId :=
  match g.constantPower? f with
  | some (b, _) => b
  | none => f

/-- Terms whose coefficients can be added. -/
def LikeTerms (g : Graph) (x y : NodeId) : Prop := g.bareFactors x = g.bareFactors y

/-- Two constants, or two other factors whose exponents can be added. -/
def LikeFactors (g : Graph) (x y : NodeId) : Prop :=
  (g.value? x = none ↔ g.value? y = none) ∧ (g.value? x = none → g.baseOf x = g.baseOf y)

/-- Terms that a sum keeps as they are, but for their order. -/
structure TermList (g : Graph) (xs : List NodeId) : Prop where
  not_sum : ∀ x ∈ xs, (g.node x).isOpenSum = false
  ne_zero : ∀ x ∈ xs, g.value? x ≠ some 0
  unlike : xs.Pairwise fun x y => ¬ g.LikeTerms x y

/-- Factors that a product keeps as they are, but for their order. A constant that stands beside
nothing but a sum would go into the sum. -/
structure FactorList (g : Graph) (xs : List NodeId) : Prop where
  not_product : ∀ x ∈ xs, (g.node x).isOpenProduct = false
  ne_zero : ∀ x ∈ xs, g.value? x ≠ some 0
  ne_one : ∀ x ∈ xs, g.value? x ≠ some 1
  unlike : xs.Pairwise fun x y => ¬ g.LikeFactors x y
  three_le : ∀ x ∈ xs, g.value? x ≠ none → ∀ y ∈ xs, (g.node y).isOpenSum → 3 ≤ xs.length

/-- A base that an exponent can be put on: no product, and no power with an exponent to add to. -/
structure IsBase (g : Graph) (b : NodeId) : Prop where
  not_product : (g.node b).isOpenProduct = false
  not_power : g.constantPower? b = none

/-- Operands of a power that no rule takes apart. -/
structure IsRaised (g : Graph) (b e : NodeId) : Prop extends IsBase g b where
  ne_zero : g.value? e ≠ some 0
  ne_one : g.value? e ≠ some 1

/-- What the shape of a node asks of its operands. -/
def Tidy (g : Graph) (x : NodeId) : Prop :=
  match g.shape x with
  | .sum => g.TermList (g.operands x) ∧ 2 ≤ (g.operands x).length
  | .product => g.FactorList (g.operands x) ∧ 2 ≤ (g.operands x).length
  | .power => ∀ b e, g.operands x = [b, e] → g.IsRaised b e
  | .binary op => op ≠ .substitution
  | _ => True

/-- Everything in an expression is collected: its terms, its factors and its exponents. -/
inductive Collected (g : Graph) : NodeId → Prop
  | node {x : NodeId} (hx : x < g.size) (hl : g.isLoop x = false) (ht : g.Tidy x)
      (hs : g.Sorted (g.operands x) (g.shape x)) (hops : ∀ y ∈ g.operands x, Collected g y) :
      Collected g x

/-! ### Graphs that agree -/

namespace Agree

theorem bareFactors_eq (h : Agree P g t) (hx : P x) : t.bareFactors x = g.bareFactors x := by
  rw [bareFactors, bareFactors, h.factors_eq hx, h.splitFactors_eq (h.of_mem_factors hx)]

theorem coefficient_eq (h : Agree P g t) (hx : P x) : t.coefficient x = g.coefficient x := by
  rw [coefficient, coefficient, h.factors_eq hx, h.splitFactors_eq (h.of_mem_factors hx)]

theorem baseOf_eq (h : Agree P g t) (hx : P x) : t.baseOf x = g.baseOf x := by
  rw [baseOf, baseOf, h.constantPower?_eq hx]

theorem termList (h : Agree P g t) (hxs : ∀ x ∈ xs, P x) (hl : g.TermList xs) : t.TermList xs where
  not_sum x hx := by
    rw [h.node_eq x (hxs x hx)]
    exact hl.not_sum x hx
  ne_zero x hx := by
    rw [h.value?_eq (hxs x hx)]
    exact hl.ne_zero x hx
  unlike := hl.unlike.imp_of_mem fun {x y} hx hy hxy => by
    rwa [LikeTerms, h.bareFactors_eq (hxs x hx), h.bareFactors_eq (hxs y hy)]

theorem factorList (h : Agree P g t) (hxs : ∀ x ∈ xs, P x) (hl : g.FactorList xs) :
    t.FactorList xs where
  not_product x hx := by
    rw [h.node_eq x (hxs x hx)]
    exact hl.not_product x hx
  ne_zero x hx := by
    rw [h.value?_eq (hxs x hx)]
    exact hl.ne_zero x hx
  ne_one x hx := by
    rw [h.value?_eq (hxs x hx)]
    exact hl.ne_one x hx
  unlike := hl.unlike.imp_of_mem fun {x y} hx hy hxy => by
    rwa [LikeFactors, h.value?_eq (hxs x hx), h.value?_eq (hxs y hy), h.baseOf_eq (hxs x hx),
      h.baseOf_eq (hxs y hy)]
  three_le x hx hv y hy ho := by
    rw [h.value?_eq (hxs x hx)] at hv
    rw [h.node_eq y (hxs y hy)] at ho
    exact hl.three_le x hx hv y hy ho

theorem isBase (h : Agree P g t) (hx : P x) (hb : g.IsBase x) : t.IsBase x := by
  refine ⟨?_, ?_⟩
  · rw [h.node_eq x hx]
    exact hb.not_product
  · rw [h.constantPower?_eq hx]
    exact hb.not_power

theorem isRaised (h : Agree P g t) (hb : P b) (he : P e) (hr : g.IsRaised b e) :
    t.IsRaised b e where
  toIsBase := h.isBase hb hr.toIsBase
  ne_zero := by
    rw [h.value?_eq he]
    exact hr.ne_zero
  ne_one := by
    rw [h.value?_eq he]
    exact hr.ne_one

theorem tidy (h : Agree P g t) (hx : P x) (ht : g.Tidy x) : t.Tidy x := by
  have hops := h.operands x hx
  unfold Tidy at ht ⊢
  rw [h.shape_eq hx, h.operands_eq hx]
  cases hs : g.shape x with
  | sum =>
    rw [hs] at ht
    exact ⟨h.termList hops ht.1, ht.2⟩
  | product =>
    rw [hs] at ht
    exact ⟨h.factorList hops ht.1, ht.2⟩
  | power =>
    rw [hs] at ht
    intro b e hbe
    exact h.isRaised (hops b (by simp [hbe])) (hops e (by simp [hbe])) (ht b e hbe)
  | binary op =>
    rw [hs] at ht
    exact ht
  | _ => trivial

end Agree

theorem Collected.lt_size (h : g.Collected x) : x < g.size := by
  cases h
  assumption

theorem Collected.isLoop_eq (h : g.Collected x) : g.isLoop x = false := by
  cases h
  assumption

theorem Collected.tidy (h : g.Collected x) : g.Tidy x := by
  cases h
  assumption

theorem Collected.sorted (h : g.Collected x) : g.Sorted (g.operands x) (g.shape x) := by
  cases h
  assumption

theorem Collected.operands (h : g.Collected x) : ∀ y ∈ g.operands x, g.Collected y := by
  cases h
  assumption

theorem Extends.collected (hx : g.Extends g') (hg : g.WellFormed) (h : g.Collected x) :
    g'.Collected x := by
  induction h with
  | @node x hlt hl ht hs _ ih =>
    refine .node (hx.lt_size hlt) ?_ ((hx.agree hg).tidy hlt ht) ?_ ?_
    · rwa [hx.isLoop_eq hlt]
    · rw [hx.operands_eq hlt, hx.shape_eq hlt]
      exact hx.sorted hg (hg.operands_lt_size x) hs
    · rwa [hx.operands_eq hlt]


/-! ### Terms and factors -/

theorem factors_of_not_product (h : (g.node x).isOpenProduct = false) : g.factors x = [x] := by
  rw [factors, h, if_neg Bool.false_ne_true]

theorem terms_of_not_sum (h : (g.node x).isOpenSum = false) : g.terms x = [x] := by
  rw [terms, h, if_neg Bool.false_ne_true]

theorem isOpenProduct_of_value? (h : g.value? x = some q) : (g.node x).isOpenProduct = false := by
  apply isOpenProduct_of_shape
  rw [value?_eq_some.1 h]
  exact Shape.noConfusion

theorem isOpenSum_of_value? (h : g.value? x = some q) : (g.node x).isOpenSum = false := by
  apply isOpenSum_of_shape
  rw [value?_eq_some.1 h]
  exact Shape.noConfusion

theorem isOpenProduct_of_isOpenSum (h : (g.node x).isOpenSum) :
    (g.node x).isOpenProduct = false := by
  apply isOpenProduct_of_shape
  rw [(isOpenSum_iff.1 h).1]
  exact Shape.noConfusion

namespace Collected

theorem factors (h : g.Collected x) : ∀ f ∈ g.factors x, g.Collected f := by
  intro f hf
  rw [Graph.factors] at hf
  split at hf
  · exact h.operands f hf
  · exact List.mem_singleton.1 hf ▸ h

theorem terms (h : g.Collected x) : ∀ f ∈ g.terms x, g.Collected f := by
  intro f hf
  rw [Graph.terms] at hf
  split at hf
  · exact h.operands f hf
  · exact List.mem_singleton.1 hf ▸ h

theorem tidy_product (h : g.Collected x) (ho : (g.node x).isOpenProduct) :
    g.FactorList (g.operands x) ∧ 2 ≤ (g.operands x).length ∧
      (g.operands x).Pairwise fun x y => g.productLe x y := by
  have hs := (isOpenProduct_iff.1 ho).1
  have ht := h.tidy
  have hsorted := h.sorted
  rw [hs] at hsorted
  rw [Tidy, hs] at ht
  exact ⟨ht.1, ht.2, hsorted⟩

theorem tidy_sum (h : g.Collected x) (ho : (g.node x).isOpenSum) :
    g.TermList (g.operands x) ∧ 2 ≤ (g.operands x).length ∧
      (g.operands x).Pairwise fun x y => g.sumLe x y := by
  have hs := (isOpenSum_iff.1 ho).1
  have ht := h.tidy
  have hsorted := h.sorted
  rw [hs] at hsorted
  rw [Tidy, hs] at ht
  exact ⟨ht.1, ht.2, hsorted⟩

/-- A product of one factor would be that factor. -/
theorem two_le_factors (h : g.Collected x) (ho : (g.node x).isOpenProduct) :
    2 ≤ (g.factors x).length := by
  rw [Graph.factors, if_pos ho]
  exact (h.tidy_product ho).2.1

theorem sorted_factors (h : g.Collected x) :
    (g.factors x).Pairwise fun x y => g.productLe x y := by
  rw [Graph.factors]
  split
  · next ho => exact (h.tidy_product ho).2.2
  · exact List.pairwise_singleton ..

/-- The factors of a node that is neither `0` nor `1` make a product as they are. -/
theorem factorList (h : g.Collected x) (h0 : g.value? x ≠ some 0) (h1 : g.value? x ≠ some 1) :
    g.FactorList (g.factors x) := by
  rw [Graph.factors]
  split
  · next ho => exact (h.tidy_product ho).1
  · next ho =>
    have hmem : ∀ y ∈ [x], y = x := fun y hy => List.mem_singleton.1 hy
    refine ⟨fun y hy => ?_, fun y hy => ?_, fun y hy => ?_, List.pairwise_singleton .., ?_⟩
    · rw [hmem y hy]
      exact Bool.eq_false_iff.2 ho
    · rwa [hmem y hy]
    · rwa [hmem y hy]
    · intro y hy hv z hz hs
      obtain ⟨q, hq⟩ := Option.ne_none_iff_exists'.1 hv
      rw [hmem y hy] at hq
      rw [hmem z hz, isOpenSum_of_value? hq] at hs
      cases hs

theorem not_product_of_mem_factors (h : g.Collected x) (hf : f ∈ g.factors x) :
    (g.node f).isOpenProduct = false := by
  rw [Graph.factors] at hf
  split at hf
  · next ho => exact (h.tidy_product ho).1.not_product f hf
  · next ho =>
    rw [List.mem_singleton.1 hf]
    exact Bool.eq_false_iff.2 ho

theorem not_sum_of_mem_terms (h : g.Collected x) (hf : f ∈ g.terms x) :
    (g.node f).isOpenSum = false := by
  rw [Graph.terms] at hf
  split at hf
  · next ho => exact (h.tidy_sum ho).1.not_sum f hf
  · next ho =>
    rw [List.mem_singleton.1 hf]
    exact Bool.eq_false_iff.2 ho

end Collected

theorem LikeFactors.symm (h : g.LikeFactors x y) : g.LikeFactors y x :=
  ⟨h.1.symm, fun hy => (h.2 (h.1.2 hy)).symm⟩

theorem FactorList.perm (h : g.FactorList xs) (hp : ys.Perm xs) : g.FactorList ys where
  not_product x hx := h.not_product x (hp.subset hx)
  ne_zero x hx := h.ne_zero x (hp.subset hx)
  ne_one x hx := h.ne_one x (hp.subset hx)
  unlike := (hp.pairwise_iff fun hxy hyx => hxy hyx.symm).2 h.unlike
  three_le x hx hv y hy ho := hp.length_eq ▸ h.three_le x (hp.subset hx) hv y (hp.subset hy) ho

theorem TermList.perm (h : g.TermList xs) (hp : ys.Perm xs) : g.TermList ys where
  not_sum x hx := h.not_sum x (hp.subset hx)
  ne_zero x hx := h.ne_zero x (hp.subset hx)
  unlike := (hp.pairwise_iff fun hxy hyx => hxy (Eq.symm hyx)).2 h.unlike

/-- Without constants among them, some of the factors of a product make a product again. -/
theorem FactorList.sublist (h : g.FactorList xs) (hs : ys.Sublist xs)
    (hys : ∀ y ∈ ys, g.value? y = none) : g.FactorList ys where
  not_product x hx := h.not_product x (hs.subset hx)
  ne_zero x hx := h.ne_zero x (hs.subset hx)
  ne_one x hx := h.ne_one x (hs.subset hx)
  unlike := h.unlike.sublist hs
  three_le x hx hv := absurd (hys x hx) hv

theorem flatMap_eq_self {h : NodeId → List NodeId} (hxs : ∀ x ∈ xs, h x = [x]) :
    xs.flatMap h = xs := by
  rw [List.flatMap_congr hxs, List.flatMap_singleton']

theorem FactorList.flattenProduct_eq (h : g.FactorList xs) : g.flattenProduct xs = xs := by
  rw [flattenProduct_eq_filter,
    flatMap_eq_self fun x hx => factors_of_not_product (h.not_product x hx), List.filter_eq_self]
  intro x hx
  simp [hasValue, h.ne_one x hx]

theorem TermList.flattenSum_eq (h : g.TermList xs) : g.flattenSum xs = xs := by
  rw [flattenSum_eq_filter, flatMap_eq_self fun x hx => terms_of_not_sum (h.not_sum x hx),
    List.filter_eq_self]
  intro x hx
  simp [hasValue, h.ne_zero x hx]

/-! ### Coefficients -/

theorem splitFactors_eq_none_iff : g.splitFactors xs = none ↔ ∀ x ∈ xs, g.value? x = none := by
  induction xs with
  | nil => simp [splitFactors]
  | cons x xs ih =>
    rw [splitFactors, List.forall_mem_cons]
    cases g.value? x with
    | some q => simp
    | none => simp [ih]

/-- What stands around the first constant. -/
theorem splitFactors_eq_some {rest : List NodeId} (h : g.splitFactors xs = some (q, rest)) :
    ∃ ys c zs, xs = ys ++ c :: zs ∧ rest = ys ++ zs ∧ g.value? c = some q ∧
      ∀ y ∈ ys, g.value? y = none := by
  induction xs generalizing rest with
  | nil => cases h
  | cons x xs ih =>
    rw [splitFactors] at h
    cases hx : g.value? x with
    | some p =>
      rw [hx] at h
      cases h
      exact ⟨[], x, xs, rfl, rfl, hx, fun _ hy => absurd hy List.not_mem_nil⟩
    | none =>
      rw [hx] at h
      obtain ⟨⟨p, rest'⟩, hs, he⟩ := Option.map_eq_some_iff.1 h
      cases he
      obtain ⟨ys, c, zs, rfl, rfl, hc, hys⟩ := ih hs
      exact ⟨x :: ys, c, zs, rfl, rfl, hc, List.forall_mem_cons.2 ⟨hx, hys⟩⟩

theorem bareFactors_of_nonconstant (h : ∀ f ∈ g.factors x, g.value? f = none) :
    g.bareFactors x = g.factors x := by
  rw [bareFactors, splitFactors_eq_none_iff.2 h]

theorem bareFactors_of_value? (h : g.value? x = some q) : g.bareFactors x = [] := by
  rw [bareFactors, factors_of_not_product (isOpenProduct_of_value? h), splitFactors, h]

theorem coefficient_of_nonconstant (h : ∀ f ∈ g.factors x, g.value? f = none) :
    g.coefficient x = 1 := by
  rw [coefficient, splitFactors_eq_none_iff.2 h]

theorem coefficient_of_value? (h : g.value? x = some q) : g.coefficient x = q := by
  rw [coefficient, factors_of_not_product (isOpenProduct_of_value? h), splitFactors, h]

/-- A product has no more than one constant factor. -/
theorem FactorList.nonconstant {rest : List NodeId} (h : g.FactorList xs)
    (hs : g.splitFactors xs = some (q, rest)) : ∀ f ∈ rest, g.value? f = none := by
  obtain ⟨ys, c, zs, rfl, rfl, hc, hys⟩ := splitFactors_eq_some hs
  intro f hf
  rcases List.mem_append.1 hf with hf | hf
  · exact hys f hf
  have hpair := (List.pairwise_cons.1 (List.pairwise_append.1 h.unlike).2.1).1 f hf
  by_contra hne
  exact hpair (by simp [LikeFactors, hc, hne])

/-! ### Building collected expressions -/

theorem collected_constant (hx : x < g.size) (hn : g.node x = { shape := .constant q }) :
    g.Collected x := by
  have hs : g.shape x = .constant q := congrArg Node.shape hn
  refine .node hx (congrArg Node.isLoop hn) ?_ ?_ ?_
  · rw [Tidy, hs]
    trivial
  · rw [hs]
    trivial
  · rw [operands, hn]
    exact fun _ hy => absurd hy List.not_mem_nil

theorem WellFormed.collected_zero (hg : g.WellFormed) : g.Collected zero :=
  collected_constant hg.zero_lt_size hg.node_zero

theorem WellFormed.collected_one (hg : g.WellFormed) : g.Collected one :=
  collected_constant hg.one_lt_size hg.node_one

theorem constant_collected (hg : g.WellFormed) (q : Rat) :
    Meets Overflow (constant q) g fun x g' => g'.Collected x ∧ g'.value? x = some q :=
  (constant_meets hg q).mono fun _ _ _ _ h =>
    ⟨collected_constant h.1 h.2, value?_eq_some.2 (congrArg Node.shape h.2)⟩

/-- Constants come first among factors. -/
theorem productLe_of_value? (hc : g.value? c = some q) (hlc : g.isLoop c = false)
    (hx : g.value? x = none) (hlx : g.isLoop x = false) : g.productLe c x = true := by
  have hne : c ≠ x := by
    rintro rfl
    rw [hc] at hx
    cases hx
  have hs := value?_eq_some.1 hc
  rw [productLe, order, compareWithin, if_neg hne, hlc, hlx, hs]
  rw [value?] at hx
  cases hsx : g.shape x with
  | constant p =>
    rw [hsx] at hx
    cases hx
  | _ => rfl

theorem product_collected (hg : g.WellFormed) (hxs : ∀ x ∈ xs, x < g.size)
    (hp : (g.flattenProduct xs).Perm ys) (hys : ∀ y ∈ ys, g.Collected y) (hl : g.FactorList ys)
    (hs : ys.Pairwise fun x y => g.productLe x y) :
    Meets Overflow (product xs) g fun z g' => g'.Collected z ∧
      (ys = [] ∧ z = one ∨ ys ≠ [] ∧ g'.factors z = ys) := by
  have hlt : ∀ y ∈ ys, y < g.size := fun y hy => (hys y hy).lt_size
  apply (product_meets hg hxs).mono
  intro z g' hg' hx hz
  rcases hz with ⟨⟨y, hy, hy0⟩, -⟩ | ⟨-, hz⟩
  · exact absurd hy0 (hl.ne_zero y (hp.subset hy))
  generalize g.flattenProduct xs = zs at hp hz
  cases hz with
  | nil => exact ⟨hg'.collected_one, .inl ⟨List.nil_perm.1 hp, rfl⟩⟩
  | single =>
    obtain rfl := List.singleton_perm.1 hp
    have hmem := List.mem_singleton.2 (Eq.refl z)
    refine ⟨hx.collected hg (hys z hmem), .inr ⟨List.cons_ne_nil z [], factors_of_not_product ?_⟩⟩
    rw [hx.node_eq z (hlt z hmem)]
    exact hl.not_product z hmem
  | node hzlt hlen hn =>
    rw [hg.mergeSort_productLe hlt hp hs] at hn
    have hshape : g'.shape z = .product := congrArg Node.shape hn
    have hops : g'.operands z = ys := congrArg Node.operands hn
    have hloop : g'.isLoop z = false := congrArg Node.isLoop hn
    rw [hp.length_eq] at hlen
    refine ⟨.node hzlt hloop ?_ ?_ ?_, .inr ⟨List.ne_nil_of_length_pos (by omega), ?_⟩⟩
    · rw [Tidy, hshape, hops]
      exact ⟨(hx.agree hg).factorList hlt hl, hlen⟩
    · rw [hops, hshape]
      exact hx.sorted hg hlt (s := .product) hs
    · rw [hops]
      exact fun y hy => hx.collected hg (hys y hy)
    · rw [factors, isOpenProduct_iff.2 ⟨hshape, hloop⟩, if_pos rfl, hops]

theorem sum_collected (hg : g.WellFormed) (hxs : ∀ x ∈ xs, x < g.size)
    (hp : (g.flattenSum xs).Perm ys) (hys : ∀ y ∈ ys, g.Collected y) (hl : g.TermList ys)
    (hs : ys.Pairwise fun x y => g.sumLe x y) :
    Meets Overflow (sum xs) g fun z g' => g'.Collected z ∧
      (ys = [] ∧ z = zero ∨ ys ≠ [] ∧ g'.terms z = ys) := by
  have hlt : ∀ y ∈ ys, y < g.size := fun y hy => (hys y hy).lt_size
  apply (sum_meets hg hxs).mono
  intro z g' hg' hx hz
  generalize g.flattenSum xs = zs at hp hz
  cases hz with
  | nil => exact ⟨hg'.collected_zero, .inl ⟨List.nil_perm.1 hp, rfl⟩⟩
  | single =>
    obtain rfl := List.singleton_perm.1 hp
    have hmem := List.mem_singleton.2 (Eq.refl z)
    refine ⟨hx.collected hg (hys z hmem), .inr ⟨List.cons_ne_nil z [], terms_of_not_sum ?_⟩⟩
    rw [hx.node_eq z (hlt z hmem)]
    exact hl.not_sum z hmem
  | node hzlt hlen hn =>
    rw [hg.mergeSort_sumLe hlt hp hs] at hn
    have hshape : g'.shape z = .sum := congrArg Node.shape hn
    have hops : g'.operands z = ys := congrArg Node.operands hn
    have hloop : g'.isLoop z = false := congrArg Node.isLoop hn
    rw [hp.length_eq] at hlen
    refine ⟨.node hzlt hloop ?_ ?_ ?_, .inr ⟨List.ne_nil_of_length_pos (by omega), ?_⟩⟩
    · rw [Tidy, hshape, hops]
      exact ⟨(hx.agree hg).termList hlt hl, hlen⟩
    · rw [hops, hshape]
      exact hx.sorted hg hlt (s := .sum) hs
    · rw [hops]
      exact fun y hy => hx.collected hg (hys y hy)
    · rw [terms, isOpenSum_iff.2 ⟨hshape, hloop⟩, if_pos rfl, hops]

end ExactAlgebra.Graph
