import ExactAlgebra.Proofs.Evaluation.Soundness
import ExactAlgebra.Proofs.Matrix.Entries

/-!
Inversion of matrices of arbitrary expressions, whose entries have values at a point. The pivots are
found by their form, and the result is right wherever none of them has the value zero.
-/

namespace ExactAlgebra

open ExactAlgebra.Graph (AllDenote Overflow)

variable {library : Library} {depth k n : Nat} {ρ : String → Option Rat} {ws : Workspace}
variable {A : RatMatrix n} {entries : Grid n n Handle}

namespace Graph

variable {M : Semantics} {g : Graph} {x y z : NodeId} {v w u : Rat}

theorem powerOf_neg_one_denotes (hM : M.power = integerPower?) (hg : g.WellFormed)
    (hx : g.Denotes M [] x v) (hv : v ≠ 0) :
    Meets Overflow (powerOf x (-1)) g fun y g' => g'.Denotes M [] y v⁻¹ := by
  apply (constant_denotes M hg (-1)).bind
  intro c g' hg' hext hc
  have hone : ∀ b, M.power b 1 = some b := fun b => by rw [hM, integerPower?_one]
  have hpow : M.power v (-1) = some v⁻¹ := by
    rw [hM]
    exact integerPower?_eq_some.2 ⟨-1, by norm_num, .inl hv, (zpow_neg_one v).symm⟩
  exact power_denotes hone hg' (hx.extends hg hext) hc hpow

theorem product_pair_denotes (hg : g.WellFormed) (hx : g.Denotes M [] x v)
    (hy : g.Denotes M [] y w) :
    Meets Overflow (product [x, y]) g fun z g' => g'.Denotes M [] z (v * w) := by
  have hm := product_denotes hg (.pair hx hy)
  rwa [List.prod_pair] at hm

theorem subtract_product_denotes (hg : g.WellFormed) (hx : g.Denotes M [] x v)
    (hy : g.Denotes M [] y w) (hz : g.Denotes M [] z u) :
    Meets Overflow (do subtract x (← product [z, y])) g fun r g' =>
      g'.Denotes M [] r (v - u * w) := by
  apply (product_pair_denotes hg hz hy).bind
  intro p g₁ hg₁ hext₁ hp
  have hnegate : Meets Overflow (negate p) g₁ fun q g' => g'.Denotes M [] q (-1 * (u * w)) := by
    apply (constant_denotes M hg₁ (-1)).bind
    intro c g₂ hg₂ hext₂ hc
    exact product_pair_denotes hg₂ hc (hp.extends hg₁ hext₂)
  apply hnegate.bind
  intro q g₂ hg₂ hext₂ hq
  have hsum := sum_denotes hg₂ (.pair (hx.extends hg (hext₁.trans hext₂)) hq)
  rwa [List.sum_pair, neg_one_mul, ← sub_eq_add_neg] at hsum

end Graph

/-- The values of expressions at a point. -/
def Valuation.atPoint (library : Library) (ρ : String → Option Rat) (depth : Nat) :
    Valuation library depth where
  contract := Evaluation.keepsValues (.atPoint library ρ)
  Has g x v := g.Denotes (.atPoint library ρ) [] x v
  Promises g x v := g.Denotes (.atPoint library ρ) [] x v
  replies := Evaluation.evaluateIn_keeps rfl rfl depth
  fails_overflow h := .inl h
  has_frame hg hx h := Graph.Denotes.extends h hg hx
  has_extends hg hx h := Graph.Denotes.extends h hg hx
  eq_zero h h0 := h.eq_of_value? (of_decide_eq_true h0)
  asks h := ⟨_, h⟩
  has_of_answers hg hx hv hy := hy _ (Graph.Denotes.extends hv hg hx)
  constant q hg := Graph.constant_denotes _ hg q
  invert hg hx hv := Graph.powerOf_neg_one_denotes rfl hg hx hv
  multiply hg hx hy := Graph.product_pair_denotes hg hx hy
  subtractProduct hg hx hy hz := Graph.subtract_product_denotes hg hx hy hz

/-- The entries are expressions of graph `k`, with the values at the point `ρ` that `A` has. -/
def Grid.HasValuesAt (library : Library) (ρ : String → Option Rat) (entries : Grid n n Handle)
    (ws : Workspace) (k : Nat) (A : RatMatrix n) : Prop :=
  ∀ i j, ∃ x, entries.get i j = .node k x ∧
    (ws.graph k).Denotes (.atPoint library ρ) [] x (A i j)

namespace Matrix

/-- The entries of a matrix keep their values when they are evaluated. -/
theorem evaluateEntries_ends {state : Workspace × Transformer (Array Fault)}
    (hs : Transforming.Settled (Valuation.atPoint library ρ depth).contract k state)
    (hA : entries.HasValuesAt library ρ state.1 k A) :
    Ends (Grid.generate fun i j => Transforming.evaluate library depth (entries.get i j)) state
      (fun entries' state' =>
        Transforming.Settled (Valuation.atPoint library ρ depth).contract k state' ∧
          entries'.HasValuesAt library ρ state'.1 k A)
      fun e state' => (Valuation.atPoint library ρ depth).contract.Fails e (state'.1.graph k) := by
  have hends := Grid.generate_ends
    (f := fun i j => Transforming.evaluate library depth (entries.get i j))
    (I := fun state => Transforming.Settled (Valuation.atPoint library ρ depth).contract k state ∧
      entries.Shows (.atPoint library ρ depth) state.1 k A)
    (R := fun i j h state => ∃ y, h = .node k y ∧
      (Valuation.atPoint library ρ depth).Has (state.1.graph k) y (A i j))
    (F := fun e state => (Valuation.atPoint library ρ depth).contract.Fails e (state.1.graph k))
    (fun i j state ⟨hs, hA⟩ => by
      obtain ⟨x, hx, hv⟩ := hA i j
      rw [hx]
      apply (hs.evaluate_node hv).mono
      rintro h state' ⟨hs', hf, hy⟩
      refine ⟨⟨hs', hA.frame hs.wellFormed hf⟩, ?_, hy⟩
      rintro r c _ ⟨y, rfl, hv⟩
      exact ⟨y, rfl, Valuation.has_frame _ hs.wellFormed hf hv⟩) ⟨hs, hA⟩
  exact hends.mono fun _ _ h => ⟨h.1.1, h.2⟩

/--
Where the entries of a matrix have values and no pivot that inversion uses has the value zero,
inversion gives the inverse of the matrix of values, or stops because that matrix is singular, at
the first column that depends on those before it. Otherwise there was no room in the graph, or the
depth did not suffice.
-/
theorem inverse_at_point (hk : k < ws.graphs.size) (hg : (ws.graph k).WellFormed)
    (hA : entries.HasValuesAt library ρ ws k A)
    (hpivot : ∀ g x, UsesPivot library depth k entries ws g x →
      ¬ g.Denotes (.atPoint library ρ) [] x 0) :
    match Matrix.inverse library depth ⟨k, n, n, entries⟩ ws with
    | .ok m ws' => ∃ bs B, m = ⟨k, n, n, bs⟩ ∧ bs.HasValuesAt library ρ ws' k B ∧
        A * B = 1 ∧ B * A = 1
    | .error e _ =>
      (A.det = 0 ∧ ∃ j : Fin n, e = .singular j ∧ IsLeast { c | A.ColumnsDependent c } j) ∨
        e = .graphFull ∨ e = .depthExhausted := by
  have hstart := Transforming.Settled.fresh (c := (Valuation.atPoint library ρ depth).contract)
    hk hg
  have hends := invertEntries_ends (V := .atPoint library ρ depth)
    (evaluateEntries_ends hstart hA) hpivot
  unfold Ends at hends
  rw [inverse_square_eq]
  cases hr : invertEntries library depth k entries (ws, { graph := k, log := #[] }) with
  | ok bs state =>
    rw [hr] at hends
    obtain ⟨B, hB, hAB, hBA⟩ := hends
    exact ⟨bs, B, rfl, hB, hAB, hBA⟩
  | error e state =>
    rw [hr] at hends
    rcases hends with ⟨j, rfl, hj⟩ | ⟨rfl, -⟩ | rfl
    · exact .inl ⟨RatMatrix.det_eq_zero_of_columnsDependent hj.1, j, rfl, hj⟩
    · exact .inr (.inl rfl)
    · exact .inr (.inr rfl)

/-- The matrix of the value that `x + x` has where `x` is `3`. -/
def six : RatMatrix 1 := fun _ _ => 2 * 3

theorem doubled_hasValuesAt :
    (Grid.ofFn fun _ _ : Fin 1 => Handle.node 0 3).HasValuesAt .silent (fun _ => some 3)
      { graphs := #[Graph.doubled] } 0 six := by
  intro i j
  rw [Grid.get_ofFn]
  exact ⟨3, rfl, Graph.doubled_denotes rfl rfl⟩

/-- The only pivot of a matrix with one entry is what the entry is evaluated to. -/
theorem doubled_pivot {g : Graph} {x : NodeId}
    (hx : UsesPivot .silent 9 0 (.ofFn fun _ _ : Fin 1 => .node 0 3)
      { graphs := #[Graph.doubled] } g x) :
    g.Denotes (.atPoint .silent fun _ => some 3) [] x (2 * 3) := by
  obtain ⟨entries, state, b, run, he, hb, j, t, run', i, hfold, -, rfl, rfl⟩ := hx
  obtain rfl : j = 0 := Subsingleton.elim j 0
  cases hfold
  have hg : (Workspace.graph { graphs := #[Graph.doubled] } 0).WellFormed :=
    Graph.doubled_wellFormed
  have hstart := Transforming.Settled.fresh
    (c := (Valuation.atPoint .silent (fun _ => some 3) 9).contract) (by decide) hg
  have hentries := evaluateEntries_ends hstart doubled_hasValuesAt
  rw [Ends, he] at hentries
  obtain ⟨⟨hk, -, hr⟩, hA⟩ := hentries
  have hidentity := identityGrid_represents (n := 1) _ hr
  rw [Eliminates, hb] at hidentity
  obtain ⟨y, hy, hv⟩ := hA i 0
  have hgraph : (Transforming.start state.1 state.2).pass.graph = state.1.graph 0 :=
    congrArg state.1.graph hk
  rw [← hgraph] at hv
  rw [Grid.get_map, hy]
  exact Valuation.has_frame _ hr.wellFormed hidentity.2.1 hv

theorem inverse_doubled :
    match Matrix.inverse .silent 9 ⟨0, 1, 1, .ofFn fun _ _ => .node 0 3⟩
      { graphs := #[Graph.doubled] } with
    | .ok m ws' => ∃ bs B, m = ⟨0, 1, 1, bs⟩ ∧
        bs.HasValuesAt .silent (fun _ => some 3) ws' 0 B ∧ six * B = 1 ∧ B * six = 1
    | .error e _ =>
      (six.det = 0 ∧ ∃ j : Fin 1, e = .singular j ∧ IsLeast { c | six.ColumnsDependent c } j) ∨
        e = .graphFull ∨ e = .depthExhausted := by
  have hg : (Workspace.graph { graphs := #[Graph.doubled] } 0).WellFormed :=
    Graph.doubled_wellFormed
  apply inverse_at_point (by decide) hg doubled_hasValuesAt
  intro g x hx h0
  have hsix : (2 * 3 : Rat) = 0 := (doubled_pivot hx).unique h0
  norm_num at hsix

end Matrix

end ExactAlgebra
