import ExactAlgebra.Proofs.Graph.Arithmetic
import ExactAlgebra.Proofs.Real.Power

/-!
The real values of expressions, whose powers have rational exponents. The base of a power with an
even root has no negative part, so that its factors have that root too.
-/

namespace ExactAlgebra

variable {ρ : String → Option Rat} {s : Substitution} {g g' : Graph} {x y b : NodeId} {u u' : Bool}
variable {v w p : ℝ} {e f q : Rat} {xs ys : List NodeId} {vs ws : List ℝ}

/-- Whether a power with this exponent takes an even root. -/
def evenRoot (e : Rat) : Bool := decide (Even e.den)

theorem evenRoot_eq_false : evenRoot e = false ↔ Odd e.den := by
  rw [evenRoot, decide_eq_false_iff_not, Nat.not_even_iff_odd]

theorem evenRoot_one : evenRoot 1 = false := by decide

/-- Sums of exponents take even roots only if one of the exponents does. -/
theorem evenRoot_add (h : evenRoot (e + f) = true) : evenRoot e = true ∨ evenRoot f = true := by
  by_contra hor
  rw [not_or, Bool.not_eq_true, Bool.not_eq_true, evenRoot_eq_false, evenRoot_eq_false] at hor
  rw [evenRoot_eq_false.2 (odd_den_add hor.1 hor.2)] at h
  cases h

theorem evenRoot_mul (h : evenRoot (e * f) = true) : evenRoot e = true ∨ evenRoot f = true := by
  by_contra hor
  rw [not_or, Bool.not_eq_true, Bool.not_eq_true, evenRoot_eq_false, evenRoot_eq_false] at hor
  rw [evenRoot_eq_false.2 (odd_den_mul hor.1 hor.2)] at h
  cases h

/-- The rational that a shape without operands stands for, if symbols stand for those of `ρ`. -/
def Shape.leafValue? (ρ : String → Option Rat) : Shape → Option Rat
  | .constant q => some q
  | .symbol name => ρ name
  | _ => none

namespace Graph

/-- The rational that a constant, a symbol or a bound node stands for. -/
def leafValue? (ρ : String → Option Rat) (s : Substitution) (g : Graph) (x : NodeId) : Option Rat :=
  match s.value? x with
  | some y => g.plainValue? y
  | none => if g.isLoop x then none else (g.shape x).leafValue? ρ

/-- A node with a shape that is neither self-referential nor bound. -/
structure Plain (s : Substitution) (g : Graph) (x : NodeId) (σ : Shape) : Prop where
  lt_size : x < g.size
  not_loop : g.isLoop x = false
  not_bound : s.value? x = none
  shape_eq : g.shape x = σ

/-- The real value of an expression. If it is read as unsigned, no part of it is negative, besides
exponents, which have rational values. -/
inductive Measures (ρ : String → Option Rat) (s : Substitution) (g : Graph) :
    Bool → NodeId → ℝ → Prop
  | leaf {unsigned : Bool} {x : NodeId} {q : Rat} (hx : x < g.size)
      (hq : g.leafValue? ρ s x = some q) (hn : unsigned = true → 0 ≤ q) : Measures ρ s g unsigned x q
  | sum {unsigned : Bool} {x : NodeId} (v : NodeId → ℝ) (hx : Plain s g x .sum)
      (hops : ∀ y ∈ g.operands x, Measures ρ s g unsigned y (v y)) :
      Measures ρ s g unsigned x ((g.operands x).map v).sum
  | product {unsigned : Bool} {x : NodeId} (v : NodeId → ℝ) (hx : Plain s g x .product)
      (hops : ∀ y ∈ g.operands x, Measures ρ s g unsigned y (v y)) :
      Measures ρ s g unsigned x ((g.operands x).map v).prod
  | power {unsigned : Bool} {x b y : NodeId} {e : Rat} {w : ℝ} (hx : Plain s g x .power)
      (hops : g.operands x = [b, y]) (he : Measures ρ s g false y e)
      (hb : Measures ρ s g (unsigned || evenRoot e) b w) (hw : w ≠ 0 ∨ 0 < e) :
      Measures ρ s g unsigned x (realPower w e)

theorem leafValue?_of_not_bound (hs : s.value? x = none) (hl : g.isLoop x = false) :
    g.leafValue? ρ s x = (g.shape x).leafValue? ρ := by
  rw [leafValue?, hs]
  simp only [hl, Bool.false_eq_true, if_false]

theorem Plain.not_leaf {σ : Shape} (h : Plain s g x σ) (hσ : σ.leafValue? ρ = none) :
    g.leafValue? ρ s x ≠ some q := by
  rw [leafValue?_of_not_bound h.not_bound h.not_loop, h.shape_eq, hσ]
  exact (Option.some_ne_none q).symm

theorem not_leaf_of_shape {σ : Shape} (hx : g.shape x = σ) (hσ : σ.leafValue? ρ = none) :
    g.leafValue? ρ [] x ≠ some q := by
  intro h
  change (if g.isLoop x then none else (g.shape x).leafValue? ρ) = some q at h
  rw [hx, hσ, ite_self] at h
  cases h

namespace Measures

theorem lt_size (h : Measures ρ s g u x v) : x < g.size := by
  cases h with
  | leaf hx => exact hx
  | sum _ hx | product _ hx | power hx => exact hx.lt_size

theorem not_loop (h : Measures ρ s g u x v) (hs : s.value? x = none) : g.isLoop x = false := by
  cases h with
  | leaf _ hq =>
    by_contra hl
    simp only [leafValue?, hs, Bool.not_eq_false _ ▸ hl, if_true] at hq
    cases hq
  | sum _ hx | product _ hx | power hx => exact hx.not_loop

/-- Unsigned values are values. -/
theorem mono (h : Measures ρ s g u x v) (hu : u' = true → u = true) : Measures ρ s g u' x v := by
  induction h generalizing u' with
  | leaf hx hq hn => exact .leaf hx hq fun h => hn (hu h)
  | sum v hx _ ih => exact .sum v hx fun y hy => ih y hy hu
  | product v hx _ ih => exact .product v hx fun y hy => ih y hy hu
  | power hx hops he _ hw _ ih =>
    apply Measures.power hx hops he (ih _) hw
    simp only [Bool.or_eq_true]
    exact fun h => h.imp_left hu

theorem nonneg (h : Measures ρ s g true x v) : 0 ≤ v := by
  generalize hu : true = u at h
  induction h with
  | leaf _ _ hn => exact Rat.cast_nonneg.2 (hn hu.symm)
  | sum v _ _ ih =>
    apply List.sum_nonneg
    intro w hw
    obtain ⟨y, hy, rfl⟩ := List.mem_map.1 hw
    exact ih y hy hu
  | product v _ _ ih =>
    apply List.prod_nonneg
    intro w hw
    obtain ⟨y, hy, rfl⟩ := List.mem_map.1 hw
    exact ih y hy hu
  | power _ _ _ _ _ _ ih =>
    apply realPower_nonneg
    apply ih
    rw [← hu, Bool.true_or]

/-- Values in which roots are taken have those roots. -/
theorem rootable (h : Measures ρ s g (u || evenRoot e) x v) : Rootable v e := by
  cases he : evenRoot e with
  | true =>
    rw [he, Bool.or_true] at h
    exact .inl h.nonneg
  | false => exact .inr (evenRoot_eq_false.1 he)

theorem unique (h : Measures ρ s g u x v) (h' : Measures ρ s g u' x w) : v = w := by
  induction h generalizing u' w with
  | leaf _ hq =>
    cases h' with
    | leaf _ hq' => rw [Option.some.inj (hq.symm.trans hq')]
    | sum _ hx | product _ hx | power hx => exact absurd hq (hx.not_leaf rfl)
  | @sum _ x v hx _ ih =>
    cases h' with
    | leaf _ hq => exact absurd hq (hx.not_leaf rfl)
    | sum v' _ hops' =>
      congr 1
      exact List.map_congr_left fun y hy => ih y hy (hops' y hy)
    | product _ hx' | power hx' => cases hx.shape_eq.symm.trans hx'.shape_eq
  | @product _ x v hx _ ih =>
    cases h' with
    | leaf _ hq => exact absurd hq (hx.not_leaf rfl)
    | product v' _ hops' =>
      congr 1
      exact List.map_congr_left fun y hy => ih y hy (hops' y hy)
    | sum _ hx' | power hx' => cases hx.shape_eq.symm.trans hx'.shape_eq
  | power hx hops _ _ _ ihe ih =>
    cases h' with
    | leaf _ hq => exact absurd hq (hx.not_leaf rfl)
    | power hx' hops' he' hb' =>
      cases hops.symm.trans hops'
      rw [Rat.cast_inj.1 (ihe he'), ih hb']
    | sum _ hx' | product _ hx' => cases hx.shape_eq.symm.trans hx'.shape_eq

end Measures

theorem Plain.extends {σ : Shape} (h : Plain s g x σ) (hx : g.Extends g') : Plain s g' x σ where
  lt_size := hx.lt_size h.lt_size
  not_loop := (hx.isLoop_eq h.lt_size).trans h.not_loop
  not_bound := h.not_bound
  shape_eq := (hx.shape_eq h.lt_size).trans h.shape_eq

theorem Extends.leafValue?_eq (h : g.Extends g') (hx : x < g.size) :
    g'.leafValue? ρ [] x = g.leafValue? ρ [] x := by
  change (if _ then _ else _) = if _ then _ else _
  rw [h.isLoop_eq hx, h.shape_eq hx]

theorem Measures.extends (h : Measures ρ [] g u x v) (hx : g.Extends g') :
    Measures ρ [] g' u x v := by
  induction h with
  | leaf hlt hq hn => exact .leaf (hx.lt_size hlt) ((hx.leafValue?_eq hlt).trans hq) hn
  | sum v hp _ ih =>
    rw [← hx.operands_eq hp.lt_size] at ih ⊢
    exact .sum v (hp.extends hx) ih
  | product v hp _ ih =>
    rw [← hx.operands_eq hp.lt_size] at ih ⊢
    exact .product v (hp.extends hx) ih
  | power hp hops _ _ hw ihe ih =>
    rw [← hx.operands_eq hp.lt_size] at hops
    exact .power (hp.extends hx) hops ihe ih hw

/-- Values do not change while the graph grows. -/
theorem Extends.measures_iff (h : g.Extends g') (hg : g.WellFormed) (hx : x < g.size) :
    Measures ρ [] g' u x v ↔ Measures ρ [] g u x v := by
  refine ⟨fun hv => ?_, fun hv => hv.extends h⟩
  have hplain : ∀ {x σ}, x < g.size → Plain [] g' x σ → Plain [] g x σ := fun hx hp =>
    ⟨hx, (h.isLoop_eq hx).symm.trans hp.not_loop, rfl, (h.shape_eq hx).symm.trans hp.shape_eq⟩
  induction hv with
  | leaf _ hq hn => exact .leaf hx ((h.leafValue?_eq hx).symm.trans hq) hn
  | @sum _ x v hp _ ih =>
    rw [h.operands_eq hx] at ih ⊢
    exact .sum v (hplain hx hp) fun y hy => ih y hy (hg.operands_lt_size x y hy)
  | @product _ x v hp _ ih =>
    rw [h.operands_eq hx] at ih ⊢
    exact .product v (hplain hx hp) fun y hy => ih y hy (hg.operands_lt_size x y hy)
  | @power _ x b y _ _ hp hops _ _ hw ihe ih =>
    rw [h.operands_eq hx] at hops
    have hlt : ∀ z ∈ [b, y], z < g.size := hops ▸ hg.operands_lt_size x
    exact .power (hplain hx hp) hops (ihe (hlt y (by simp))) (ih (hlt b (by simp))) hw

/-! ### Lists -/

/-- The real values of the nodes of a list. -/
abbrev AllMeasure (ρ : String → Option Rat) (s : Substitution) (g : Graph) (u : Bool) :
    List NodeId → List ℝ → Prop :=
  List.Forall₂ (Measures ρ s g u)

theorem AllMeasure.of_forall {v : NodeId → ℝ} (h : ∀ x ∈ xs, Measures ρ s g u x (v x)) :
    AllMeasure ρ s g u xs (xs.map v) :=
  List.forall₂_map_right_iff.2 (List.forall₂_same.2 h)

/-- Since a node has one value only, the values of a list are those of a function. -/
theorem AllMeasure.exists_map (h : AllMeasure ρ s g u xs vs) :
    ∃ v : NodeId → ℝ, vs = xs.map v ∧ ∀ x ∈ xs, Measures ρ s g u x (v x) := by
  have hchoice : ∀ x, ∃ v, ∀ w, Measures ρ s g u x w → Measures ρ s g u x v ∧ w = v := by
    intro x
    by_cases hx : ∃ w, Measures ρ s g u x w
    · obtain ⟨v, hv⟩ := hx
      exact ⟨v, fun w hw => ⟨hv, hw.unique hv⟩⟩
    · exact ⟨0, fun w hw => absurd ⟨w, hw⟩ hx⟩
  choose v hv using hchoice
  refine ⟨v, ?_⟩
  induction h with
  | nil => exact ⟨rfl, fun x hx => absurd hx List.not_mem_nil⟩
  | @cons x w xs ws hw _ ih =>
    obtain ⟨hx, rfl⟩ := hv x w hw
    constructor
    · rw [List.map_cons, ← ih.1]
    · exact List.forall_mem_cons.2 ⟨hx, ih.2⟩

theorem AllMeasure.extends (h : AllMeasure ρ [] g u xs vs) (hx : g.Extends g') :
    AllMeasure ρ [] g' u xs vs :=
  h.imp fun _ _ hv => hv.extends hx

theorem AllMeasure.lt_size (h : AllMeasure ρ s g u xs vs) : ∀ x ∈ xs, x < g.size := by
  obtain ⟨v, -, hv⟩ := h.exists_map
  exact fun x hx => (hv x hx).lt_size

/-! ### Nodes -/

theorem Plain.of_node {σ : Shape} (hx : x < g.size)
    (hn : g.node x = { shape := σ, operands := xs }) : Plain [] g x σ :=
  ⟨hx, congrArg Node.isLoop hn, rfl, congrArg Node.shape hn⟩

theorem Measures.product_node (hx : Plain s g x .product)
    (h : AllMeasure ρ s g u (g.operands x) vs) : Measures ρ s g u x vs.prod := by
  obtain ⟨v, rfl, hv⟩ := h.exists_map
  exact .product v hx hv

theorem Measures.sum_operands (h : Measures ρ [] g u x v) (hx : g.shape x = .sum) :
    ∃ vs, AllMeasure ρ [] g u (g.operands x) vs ∧ vs.sum = v := by
  cases h with
  | leaf _ hq => exact absurd hq (not_leaf_of_shape hx rfl)
  | sum v _ hops => exact ⟨_, .of_forall hops, rfl⟩
  | product _ hx' | power hx' => cases hx.symm.trans hx'.shape_eq

theorem Measures.product_operands (h : Measures ρ [] g u x v) (hx : g.shape x = .product) :
    ∃ vs, AllMeasure ρ [] g u (g.operands x) vs ∧ vs.prod = v := by
  cases h with
  | leaf _ hq => exact absurd hq (not_leaf_of_shape hx rfl)
  | product v _ hops => exact ⟨_, .of_forall hops, rfl⟩
  | sum _ hx' | power hx' => cases hx.symm.trans hx'.shape_eq

theorem Measures.power_operands (h : Measures ρ [] g u x v) (hx : g.shape x = .power)
    (hops : g.operands x = [b, y]) :
    ∃ (e : Rat) (w : ℝ), Measures ρ [] g false y e ∧ Measures ρ [] g (u || evenRoot e) b w ∧ (w ≠ 0 ∨ 0 < e) ∧
      v = realPower w e := by
  cases h with
  | leaf _ hq => exact absurd hq (not_leaf_of_shape hx rfl)
  | power _ hops' he hb hw =>
    cases hops.symm.trans hops'
    exact ⟨_, _, he, hb, hw, rfl⟩
  | sum _ hx' | product _ hx' => cases hx.symm.trans hx'.shape_eq

/-- A constant stands for itself. -/
theorem Measures.of_value? (h : Measures ρ [] g u x v) (hq : g.value? x = some q) :
    v = q ∧ (u = true → 0 ≤ q) := by
  have hs := value?_eq_some.1 hq
  cases h with
  | leaf _ hp hn =>
    change (if g.isLoop x then none else (g.shape x).leafValue? ρ) = _ at hp
    rw [hs] at hp
    split at hp
    · cases hp
    · cases hp
      exact ⟨rfl, hn⟩
  | sum _ hx | product _ hx | power hx => cases hs.symm.trans hx.shape_eq

theorem Measures.constant (hq : g.plainValue? x = some q) (hn : u = true → 0 ≤ q) :
    Measures ρ [] g u x q := by
  obtain ⟨hx, hl, hq⟩ := plainValue?_eq_some.1 hq
  apply Measures.leaf hx _ hn
  rw [leafValue?_of_not_bound rfl hl, value?_eq_some.1 hq, Shape.leafValue?]

theorem measures_constant (hx : x < g.size) (hn : g.node x = { shape := .constant q })
    (hq : u = true → 0 ≤ q) : Measures ρ [] g u x q := by
  apply Measures.constant (plainValue?_eq_some.2 ⟨hx, congrArg Node.isLoop hn, ?_⟩) hq
  rw [value?, shape, hn]
  rfl

theorem WellFormed.measures_zero (hg : g.WellFormed) : Measures ρ [] g u zero 0 := by
  have h := measures_constant (ρ := ρ) (u := u) hg.zero_lt_size hg.node_zero fun _ => le_refl 0
  rwa [Rat.cast_zero] at h

theorem WellFormed.measures_one (hg : g.WellFormed) : Measures ρ [] g u one 1 := by
  have h := measures_constant (ρ := ρ) (u := u) hg.one_lt_size hg.node_one fun _ => zero_le_one
  rwa [Rat.cast_one] at h

theorem constant_measures (ρ : String → Option Rat) (hg : g.WellFormed) (hq : u = true → 0 ≤ q) :
    Meets Overflow (constant q) g fun x g' => Measures ρ [] g' u x q :=
  (constant_meets hg q).mono fun _ _ _ _ h => measures_constant h.1 h.2 hq

/-! ### Sums, products and powers -/

theorem Measures.terms (h : Measures ρ [] g u x v) :
    ∃ vs, AllMeasure ρ [] g u (g.terms x) vs ∧ vs.sum = v := by
  rw [Graph.terms]
  split
  · next ho => exact h.sum_operands (isOpenSum_iff.1 ho).1
  · exact ⟨[v], .cons h .nil, List.sum_singleton⟩

theorem Measures.factors (h : Measures ρ [] g u x v) :
    ∃ vs, AllMeasure ρ [] g u (g.factors x) vs ∧ vs.prod = v := by
  rw [Graph.factors]
  split
  · next ho => exact h.product_operands (isOpenProduct_iff.1 ho).1
  · exact ⟨[v], .cons h .nil, List.prod_singleton⟩

theorem Measures.eq_zero (h : Measures ρ [] g u x v) (hx : g.value? x = some 0) : v = 0 :=
  (h.of_value? hx).1.trans Rat.cast_zero

theorem Measures.eq_one (h : Measures ρ [] g u x v) (hx : g.value? x = some 1) : v = 1 :=
  (h.of_value? hx).1.trans Rat.cast_one

theorem AllMeasure.singleton (h : AllMeasure ρ s g u [x] vs) :
    ∃ v, Measures ρ s g u x v ∧ vs = [v] := by
  obtain ⟨v, vs, hv, hvs, rfl⟩ := List.forall₂_cons_left_iff.1 h
  obtain rfl := List.forall₂_nil_left_iff.1 hvs
  exact ⟨v, hv, rfl⟩

theorem product_measures (hg : g.WellFormed) (h : AllMeasure ρ [] g u xs vs) :
    Meets Overflow (product xs) g fun y g' => Measures ρ [] g' u y vs.prod := by
  obtain ⟨ws, hws, hprod⟩ := flattenProduct_values (fun _ _ => Measures.eq_one)
    (fun _ _ => Measures.factors) h
  apply (product_meets hg h.lt_size).mono
  intro y g' hg' hx hy
  rw [← hprod]
  rcases hy with ⟨⟨z, hz, hz0⟩, rfl⟩ | ⟨-, hy⟩
  · obtain ⟨i, hi, rfl⟩ := List.getElem_of_mem hz
    have hi' : i < ws.length := hws.length_eq ▸ hi
    have h0 : ws[i] = 0 := Measures.eq_zero (hws.get hi hi') hz0
    rw [List.prod_eq_zero (h0 ▸ List.getElem_mem hi')]
    exact hg'.measures_zero
  generalize hzs : g.flattenProduct xs = zs at hws hy
  cases hy with
  | nil =>
    cases hws
    exact hg'.measures_one
  | single hz =>
    obtain ⟨v, hv, rfl⟩ := AllMeasure.singleton hws
    rw [List.prod_singleton]
    exact hv.extends hx
  | node hlt _ hn =>
    obtain ⟨us, hus, hp⟩ := List.perm_comp_forall₂ (List.mergeSort_perm _ g.productLe) hws
    rw [← hp.prod_eq]
    apply Measures.product_node (.of_node hlt hn)
    rw [operands, hn]
    exact AllMeasure.extends hus hx

/-- A base raised to an exponent, whether or not there is a node for that. -/
structure MeasuresPower (ρ : String → Option Rat) (g : Graph) (u : Bool) (x : NodeId) (e : Rat) (p : ℝ) :
    Prop where
  exists_base : ∃ w, Measures ρ [] g (u || evenRoot e) x w ∧ (w ≠ 0 ∨ 0 < e) ∧ p = realPower w e

theorem MeasuresPower.one_iff : MeasuresPower ρ g u x 1 v ↔ Measures ρ [] g u x v := by
  constructor
  · intro h
    obtain ⟨w, hw, -, rfl⟩ := h.exists_base
    rwa [realPower_one, ← Bool.or_false u]
  · intro h
    refine ⟨v, ?_, .inr one_pos, (realPower_one v).symm⟩
    rwa [evenRoot_one, Bool.or_false]

theorem power_measures (hg : g.WellFormed) (hx : MeasuresPower ρ g u x e p)
    (hy : Measures ρ [] g false y e) :
    Meets Overflow (power x y) g fun z g' => Measures ρ [] g' u z p := by
  have hx' := hx
  obtain ⟨w, hw, hw0, rfl⟩ := hx
  apply (power_meets hg hw.lt_size hy.lt_size).mono
  intro z g' _ hext hz
  rcases hz with ⟨hy1, rfl⟩ | ⟨-, hz, hn⟩
  · obtain rfl := Rat.cast_inj.1 (hy.of_value? hy1).1
    exact (MeasuresPower.one_iff.1 hx').extends hext
  · apply Measures.power (.of_node hz hn) _ (hy.extends hext) (hw.extends hext) hw0
    rw [operands, hn]

end Graph

end ExactAlgebra
