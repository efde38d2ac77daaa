import ExactAlgebra.Proofs.Evaluation.Exact
import ExactAlgebra.Proofs.Matrix.Elimination

/-!
Row operations on constants, which evaluate to constants again.
-/

namespace ExactAlgebra

open ExactAlgebra.Graph (Overflow)

variable {g : Graph}

/-! ### Arithmetic on constants -/

theorem exactPower?_neg_one {v : Rat} (hv : v ≠ 0) : exactPower? v (-1) = some v⁻¹ := by
  rw [exactPower?, if_neg hv]
  by_cases h1 : v = 1
  · rw [if_pos h1, h1, inv_one]
  · rw [if_neg h1, if_neg (by norm_num), if_neg (by norm_num)]
    have hpow : Rational.power v (-1) = .ok (some v⁻¹) := by
      rw [Rational.power, if_neg (by decide), if_neg hv]
      simp [Rational.root?, Rational.integerPower]
    rw [hpow]
    rfl

namespace Graph

variable {x y z : NodeId} {v w u : Rat} {d : Nat}

theorem hasValue_of_plainValue? (hx : g.plainValue? x = some v) (q : Rat) :
    g.hasValue q x = decide (v = q) := by
  rw [hasValue, (plainValue?_eq_some.1 hx).2.2]
  simp

theorem WellFormed.valuesWithin_pair (hg : g.WellFormed) (hx : g.plainValue? x = some v)
    (hy : g.plainValue? y = some w) (M : Semantics) :
    g.ValuesWithin M (d + 1) [x, y] [v, w] :=
  .cons (hg.valueWithin?_plain hx) (.cons (hg.valueWithin?_plain hy) .nil)

theorem powerOf_neg_one_value (library : Library) (hg : g.WellFormed)
    (hx : g.plainValue? x = some v) (hv : v ≠ 0) :
    Meets Overflow (powerOf x (-1)) g fun y g' =>
      g'.valueWithin? (.exact library) [] 2 y = some v⁻¹ := by
  apply (constant_plainValue? hg (-1)).bind
  intro c g' hg' hext hc
  have hx' := plainValue?_evolves hx hext.evolves
  exact power_valueWithin? exactPower?_one hg' (hg'.valueWithin?_plain hx')
    (hg'.valueWithin?_plain hc) (exactPower?_neg_one hv)

theorem product_pair_value (M : Semantics) (hg : g.WellFormed) (hx : g.plainValue? x = some v)
    (hy : g.plainValue? y = some w) :
    Meets Overflow (product [x, y]) g fun z g' => g'.valueWithin? M [] 2 z = some (v * w) := by
  have hm := product_valueWithin? hg (hg.valuesWithin_pair (d := 0) hx hy M)
  rwa [List.prod_pair] at hm

theorem subtract_product_value (M : Semantics) (hg : g.WellFormed)
    (hx : g.plainValue? x = some v) (hy : g.plainValue? y = some w)
    (hz : g.plainValue? z = some u) :
    Meets Overflow (do subtract x (← product [z, y])) g fun r g' =>
      g'.valueWithin? M [] 4 r = some (v - u * w) := by
  apply (product_pair_value M hg hz hy).bind
  intro p g₁ hg₁ hext₁ hp
  have hnegate : Meets Overflow (negate p) g₁ fun q g' =>
      g'.valueWithin? M [] 3 q = some (-1 * (u * w)) := by
    apply (constant_plainValue? hg₁ (-1)).bind
    intro c g₂ hg₂ hext₂ hc
    have hpair : g₂.ValuesWithin M 2 [c, p] [-1, u * w] :=
      .cons (hg₂.valueWithin?_plain hc) (.cons (valueWithin?_extends hp hg₁ hext₂) .nil)
    have hm := product_valueWithin? hg₂ hpair
    rwa [List.prod_pair] at hm
  apply hnegate.bind
  intro q g₂ hg₂ hext₂ hq
  have hx' := plainValue?_evolves hx (hext₁.trans hext₂).evolves
  have hpair : g₂.ValuesWithin M 3 [x, q] [v, -1 * (u * w)] :=
    .cons (hg₂.valueWithin?_plain hx') (.cons hq .nil)
  have hm := sum_valueWithin? hg₂ hpair
  rwa [List.sum_pair, neg_one_mul, ← sub_eq_add_neg] at hm

end Graph

/-- The values of constants; nothing but want of room keeps evaluation from computing with them. -/
def Valuation.exact (library : Library) {depth : Nat} (hd : 4 ≤ depth) :
    Valuation library depth where
  contract := Evaluation.computes library True
  Has g x v := g.plainValue? x = some v
  Promises g x v := g.valueWithin? (.exact library) [] depth x = some v
  replies := Evaluation.evaluateIn_computes library depth
  fails_overflow h _ := h
  has_frame _ hx h := Graph.plainValue?_evolves h hx
  has_extends _ hx h := Graph.plainValue?_evolves h hx.evolves
  eq_zero h h0 := of_decide_eq_true ((Graph.hasValue_of_plainValue? h 0).symm.trans h0)
  asks h _ := ⟨_, h⟩
  has_of_answers hg hx hv hy :=
    hy _ ((Graph.Evolves.denotes_iff hx (fun _ => rfl) hg (Graph.lt_size_of_valueWithin? hv)).2
      ⟨_, hv⟩)
  constant q hg := Graph.constant_plainValue? hg q
  invert hg hx hv :=
    (Graph.powerOf_neg_one_value library hg hx hv).mono fun _ _ _ _ h =>
      Graph.valueWithin?_mono h (Nat.le_of_succ_le (Nat.le_of_succ_le hd))
  multiply hg hx hy :=
    (Graph.product_pair_value (.exact library) hg hx hy).mono fun _ _ _ _ h =>
      Graph.valueWithin?_mono h (Nat.le_of_succ_le (Nat.le_of_succ_le hd))
  subtractProduct hg hx hy hz :=
    (Graph.subtract_product_value (.exact library) hg hx hy hz).mono fun _ _ _ _ h =>
      Graph.valueWithin?_mono h hd

end ExactAlgebra
