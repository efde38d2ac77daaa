import ExactAlgebra.Proofs.Evaluation.Soundness
import ExactAlgebra.Proofs.Graph.Twins
import ExactAlgebra.Proofs.Laurent.Polynomial

/-!
Expressions that are written as expanded Laurent polynomials, in any order and nesting, and the
polynomials that they stand for.
-/

namespace ExactAlgebra.Graph

variable {V : Vocabulary} {g : Graph} {x y : NodeId} {p : Laurent} {library : Library}
variable {ρ : String → ℚˣ} {xs : List NodeId}

/-- The symbols that are found by their names, and no functions or two-place operators. -/
def names (g : Graph) : Vocabulary where
  symbols := g.interned.symbols
  callees _ := False
  operators _ := False

theorem WellFormed.named_names (hg : g.WellFormed) : g.Named g.names where
  wellFormed := hg
  lt_size := hg.named.lt_size
  unique := hg.named.unique
  no_callees _ := id

/-- Constants, symbols, symbols with integer exponents, and products of those. -/
inductive Monomial (g : Graph) : NodeId → Laurent → Prop
  | constant {x : NodeId} {q : Rat} (hq : g.value? x = some q) : Monomial g x (.constant q)
  | symbol {x : NodeId} {name : String} (hs : g.shape x = .symbol name) :
      Monomial g x (.power name 1)
  | power {x s e : NodeId} {name : String} {n : ℤ} (hs : g.shape x = .power)
      (hops : g.operands x = [s, e]) (hname : g.shape s = .symbol name)
      (hn : g.value? e = some (n : Rat)) : Monomial g x (.power name n)
  | product {x : NodeId} (p : NodeId → Laurent) (hs : g.shape x = .product)
      (hops : ∀ y ∈ g.operands x, Monomial g y (p y)) :
      Monomial g x ((g.operands x).map p).prod

/-- Monomials, sums, and products of one such expression with constants. -/
inductive Expanded (g : Graph) : NodeId → Laurent → Prop
  | monomial {x : NodeId} {p : Laurent} (h : g.Monomial x p) : Expanded g x p
  | sum {x : NodeId} (p : NodeId → Laurent) (hs : g.shape x = .sum)
      (hops : ∀ y ∈ g.operands x, Expanded g y (p y)) : Expanded g x ((g.operands x).map p).sum
  | scaled {x y : NodeId} {p : Laurent} {xs ys : List NodeId} (q : NodeId → Rat)
      (hs : g.shape x = .product) (hops : g.operands x = xs ++ y :: ys)
      (hq : ∀ c ∈ xs ++ ys, g.value? c = some (q c)) (hy : Expanded g y p) :
      Expanded g x (.constant ((xs ++ ys).map q).prod * p)

/-! ### Values -/

/-- The values of expressions at a point where no symbol is zero. -/
abbrev atUnits (library : Library) (ρ : String → ℚˣ) : Semantics :=
  .atPoint library fun name => some (ρ name)

theorem Elementary.denotes {M : Semantics} {vs : List Rat} {v : Rat} (hx : g.Elementary V x)
    (hvs : g.AllDenote M (g.operands x) vs) (hv : M.combine (g.shape x) vs = some v) :
    g.Denotes M [] x v := by
  obtain ⟨d, hd⟩ := hvs.valuesWithin
  exact ⟨d + 1, valueWithin?_succ.2 (.node hx.lt_size rfl hx.isLoop_eq hd hv)⟩

theorem Elementary.denotes_constant {M : Semantics} {q : Rat} (hg : g.WellFormed)
    (hx : g.Elementary V x) (hq : g.value? x = some q) : g.Denotes M [] x q := by
  have hs := value?_eq_some.1 hq
  have hnil := hg.arity x
  rw [hs] at hnil
  have hvs : g.AllDenote M (g.operands x) [] := by
    rw [List.length_eq_zero_iff.1 hnil]
    exact .nil
  exact hx.denotes hvs (by rw [hs]; rfl)

theorem Elementary.denotes_symbol {name : String} (hg : g.WellFormed) (hx : g.Elementary V x)
    (hs : g.shape x = .symbol name) : g.Denotes (atUnits library ρ) [] x (ρ name) := by
  have hnil := hg.arity x
  rw [hs] at hnil
  have hvs : g.AllDenote (atUnits library ρ) (g.operands x) [] := by
    rw [List.length_eq_zero_iff.1 hnil]
    exact .nil
  exact hx.denotes hvs (by rw [hs]; rfl)

theorem AllDenote.of_forall {M : Semantics} {v : NodeId → Rat}
    (h : ∀ x ∈ xs, g.Denotes M [] x (v x)) : g.AllDenote M xs (xs.map v) :=
  List.forall₂_map_right_iff.2 (List.forall₂_same.2 h)

theorem Monomial.denotes (hg : g.WellFormed) (h : g.Monomial x p) (hx : g.Elementary V x) :
    g.Denotes (atUnits library ρ) [] x (p.value ρ) := by
  induction h with
  | constant hq =>
    rw [Laurent.value_constant]
    exact hx.denotes_constant hg hq
  | symbol hs =>
    rw [Laurent.value_power, zpow_one]
    exact hx.denotes_symbol hg hs
  | @power x s e name n hs hops hname hn =>
    have hxs := hx.operands
    rw [hops] at hxs
    have hpower : integerPower? (ρ name) n = some ((ρ name : ℚ) ^ n) :=
      integerPower?_eq_some.2 ⟨n, rfl, .inl (ρ name).ne_zero, rfl⟩
    have hvs : g.AllDenote (atUnits library ρ) (g.operands x) [(ρ name : ℚ), (n : ℚ)] := by
      rw [hops]
      exact .pair ((hxs s (by simp)).denotes_symbol hg hname)
        ((hxs e (by simp)).denotes_constant hg hn)
    rw [Laurent.value_power]
    exact hx.denotes hvs (by rw [hs]; exact hpower)
  | @product x p hs hops ih =>
    rw [map_list_prod, List.map_map]
    exact hx.denotes (.of_forall fun y hy => ih y hy (hx.operands y hy)) (by rw [hs]; rfl)

/-- At a point without zeros, an expanded expression has the value of its polynomial. -/
theorem Expanded.denotes (hg : g.WellFormed) (h : g.Expanded x p) (hx : g.Elementary V x) :
    g.Denotes (atUnits library ρ) [] x (p.value ρ) := by
  induction h with
  | monomial h => exact h.denotes hg hx
  | @sum x p hs hops ih =>
    rw [map_list_sum, List.map_map]
    exact hx.denotes (.of_forall fun y hy => ih y hy (hx.operands y hy)) (by rw [hs]; rfl)
  | @scaled x y p xs ys q hs hops hq _ ih =>
    have hxs := hx.operands
    rw [hops] at hxs
    have hconst : ∀ zs, zs ⊆ xs ++ ys → zs ⊆ xs ++ y :: ys →
        g.AllDenote (atUnits library ρ) zs (zs.map q) := fun zs hsub hsub' =>
      .of_forall fun c hc => (hxs c (hsub' hc)).denotes_constant hg (hq c (hsub hc))
    have hvs : g.AllDenote (atUnits library ρ) (xs ++ y :: ys)
        (xs.map q ++ p.value ρ :: ys.map q) :=
      List.rel_append (hconst xs (by simp) (by simp))
        (.cons (ih (hxs y (by simp))) (hconst ys (by simp) (by simp)))
    refine hx.denotes (hops ▸ hvs) ?_
    rw [hs, map_mul, Laurent.value_constant, Semantics.combine, List.map_append, List.prod_append,
      List.prod_append, List.prod_cons, mul_assoc, mul_comm (p.value ρ)]

/-- An expression stands for one polynomial only. -/
theorem Expanded.unique {q : Laurent} (hg : g.WellFormed) (hx : g.Elementary V x)
    (hp : g.Expanded x p) (hq : g.Expanded x q) : p = q :=
  Laurent.eq_of_value fun ρ =>
    have h : g.Denotes (atUnits .silent ρ) [] x (p.value ρ) := hp.denotes hg hx
    h.unique (hq.denotes hg hx)

end ExactAlgebra.Graph
