import ExactAlgebra.Proofs.Collection.Factors
import ExactAlgebra.Proofs.Reachable.TermOrder

/-!
Like factors are combined in any order, as far as the same sum takes in the constant. The order in
which bases were first met decides no more than that.
-/

namespace ExactAlgebra.Graph

variable {g g' : Graph} {x : NodeId} {xs ys : List NodeId} {fs fs' : Factors}
variable {ss ss' : List (Share NodeId)}

/-! ### Scaling a sum -/

theorem scaleTerm_repeatable (hg : g.WellFormed) (c : Rat) (hx : x < g.size) :
    Repeatable (scaleTerm c x) g fun g' y => y < g'.size := by
  apply Repeatable.get
  · intro t hxt
    rw [hxt.value?_eq hx]
  cases g.value? x with
  | some q => exact constant_repeatable hg _
  | none =>
    apply (extractCoefficient_repeatable hg hx).bind
    intro r g' hg' _ hr
    apply (constant_repeatable hg' _).bind
    intro y g'' hg'' hx' hy
    exact build_repeatable hg'' .product (by simp [hy, hx'.lt_size hr])

theorem scaleSum_repeatable (hg : g.WellFormed) (c : Rat) (hx : x < g.size) :
    Repeatable (scaleSum c x) g fun g' y => y < g'.size := by
  have hmap : Repeatable ((g.terms x).mapM (scaleTerm c)) g fun g' ys => ∀ y ∈ ys, y < g'.size :=
    .mapM (P := fun g x => x < g.size) Extends.lt_size Extends.lt_size
      (fun hg hx => scaleTerm_repeatable hg c hx) hg (hg.terms_lt hx)
  apply Repeatable.get
  · intro t hxt
    rw [(hxt.agree hg).terms_eq hx]
  · exact hmap.bind fun ys g' hg' _ hys => build_repeatable hg' .sum hys

/-! ### Reading factors -/

/-- What a factor adds to the constant or to the exponent of a base. -/
def factorShare (g : Graph) (factor : NodeId) : Share NodeId :=
  match g.value? factor with
  | some q => .constant q
  | none =>
    match g.constantPower? factor with
    | some (base, e) => .weight base e
    | none => .weight factor 1

theorem factorShare_holds (hg : g.WellFormed) (hx : x < g.size) : g.Holds (g.factorShare x) := by
  unfold factorShare
  cases g.value? x with
  | some q => exact .constant g q
  | none =>
    cases hc : g.constantPower? x with
    | none => exact .weight hx 1
    | some r => exact .weight (hg.operands_lt_size x _ (constantPower?_mem_operands hc)) r.2

namespace Factors

def take (fs : Factors) : Share NodeId → Factors
  | .constant q => { fs with constant := fs.constant * q }
  | .weight x e => { fs with exponents := fs.exponents.add x e }

theorem foldl_take (fs : Factors) (ss : List (Share NodeId)) :
    ss.foldl take fs =
      ⟨fs.exponents.addAll (Share.entries ss), fs.constant * (Share.constants ss).prod⟩ := by
  induction ss generalizing fs with
  | nil => simp [Weights.addAll]
  | cons s ss ih =>
    rw [List.foldl_cons, ih]
    cases s with
    | constant q => simp [take, mul_assoc]
    | weight x q => simp [take, Weights.addAll_cons]

theorem read_eq_take (g : Graph) (fs : Factors) (x : NodeId) :
    fs.read g x = fs.take (g.factorShare x) := by
  unfold read factorShare
  cases g.value? x with
  | some q => rfl
  | none => cases g.constantPower? x <;> rfl

theorem foldl_readFactor_eq (g : Graph) (xs : List NodeId) (fs : Factors) :
    xs.foldl (readFactor g) fs = ((xs.flatMap g.factors).map g.factorShare).foldl take fs := by
  have hread : read g = fun fs x => fs.take (g.factorShare x) := by
    funext fs x
    exact read_eq_take g fs x
  rw [List.foldl_map, List.foldl_flatMap, ← hread]
  rfl

/-- The same factors, met in whatever order. -/
structure Reorders (g : Graph) (fs fs' : Factors) : Prop where
  exponents : SameWeights g fs.exponents fs'.exponents
  constant : fs'.constant = fs.constant

theorem Reorders.of_perm (hp : ss.Perm ss') (hss : ∀ s ∈ ss, g.Holds s) :
    Factors.Reorders g (ss.foldl take {}) (ss'.foldl take {}) := by
  rw [foldl_take, foldl_take]
  refine ⟨.of_shares hp hss, ?_⟩
  rw [(Share.constants_perm hp).prod_eq]

theorem reorders_of_factors (hg : g.WellFormed) (hxs : ∀ x ∈ xs, x < g.size) (hp : xs.Perm ys) :
    Factors.Reorders g (xs.foldl (readFactor g) {}) (ys.foldl (readFactor g) {}) := by
  rw [foldl_readFactor_eq, foldl_readFactor_eq]
  apply Reorders.of_perm ((hp.flatMap_right g.factors).map g.factorShare)
  intro s hs
  obtain ⟨f, hf, rfl⟩ := List.mem_map.1 hs
  obtain ⟨x, hx, hf⟩ := List.mem_flatMap.1 hf
  exact factorShare_holds hg (hg.factors_lt (hxs x hx) f hf)

/-! ### Building the product -/

namespace Reorders

theorem keys_lt' (h : Factors.Reorders g fs fs') : ∀ x ∈ fs'.exponents.keys, x < g.size :=
  fun x hx => h.exponents.keys_lt x ((h.exponents.perm.map Prod.fst).mem_iff.2 hx)

theorem foldConstants (h : Factors.Reorders g fs fs') :
    Factors.Reorders g (fs.foldConstants g) (fs'.foldConstants g) := by
  rw [foldConstants_eq g h.exponents.distinct, foldConstants_eq g h.exponents.distinct']
  refine ⟨h.exponents.filter _, ?_⟩
  rw [h.constant, (h.exponents.perm.filterMap (folded? g)).prod_eq]

/-- The constant goes to the same place, if it goes into the same sum. -/
theorem placeConstant (h : Factors.Reorders g fs fs') (hg : g.WellFormed) (h0 : fs.constant ≠ 0)
    (hhost : fs.constant ≠ 1 → fs'.hostSum? g = fs.hostSum? g) :
    Echoes fs.placeConstant fs'.placeConstant g SameWeights := by
  have h0' : fs'.constant ≠ 0 := h.constant ▸ h0
  rw [placeConstant_eq h0, placeConstant_eq h0', h.constant]
  apply Echoes.ite
  · exact fun _ => .pure hg h.exponents
  intro h1
  apply Echoes.get
  · intro t hxt
    rw [hostSum?_congr (hxt.agree hg) h.keys_lt']
  rw [hhost h1]
  cases hh : fs.hostSum? g with
  | some r =>
    have hr := h.exponents.keys_lt r.1 (hostSum?_mem_keys hh)
    apply (scaleSum_repeatable hg _ hr).echoes_bind
    intro y g' hg' hx hy
    exact .pure hg' (((h.exponents.extend hx).erase r.1).add hy r.2)
  | none =>
    apply (constant_repeatable hg _).echoes_bind
    intro c g' hg' hx hc
    exact .pure hg' ((h.exponents.extend hx).add hc 1)

end Reorders

end Factors

theorem weightedFactor?_repeatable {r : NodeId × Rat} (hg : g.WellFormed) (hr : r.1 < g.size) :
    Repeatable (weightedFactor? r) g fun g' o => ∀ x, o = some x → x < g'.size :=
  weighted_repeatable (f := power) (fun hg hx hc => (power_lasting hg hx hc).repeatable) hg hr

theorem Factors.Reorders.emit (h : Factors.Reorders g fs fs') (hg : g.WellFormed)
    (hhost : (fs.foldConstants g).constant ≠ 0 → (fs.foldConstants g).constant ≠ 1 →
      (fs'.foldConstants g).hostSum? g = (fs.foldConstants g).hostSum? g) :
    Echoes fs.emit fs'.emit g SameNode := by
  have hfold := h.foldConstants
  rw [emit_eq, emit_eq]
  apply Echoes.get
  · intro t hxt
    rw [foldConstants_congr (hxt.agree hg) h.keys_lt']
  dsimp only
  rw [hfold.constant]
  apply Echoes.ite
  · exact fun _ => .pure hg ⟨rfl, hg.zero_lt_size⟩
  intro h0
  apply (hfold.placeConstant hg h0 (hhost h0)).bind
  intro w w' g' hg' _ hw
  exact .gather_perm .product (P := fun g r => r.1 < g.size) Extends.lt_size
    (fun hg hr => weightedFactor?_repeatable hg hr) hg' hw.entries_lt hw.perm

/-- What is left of factors when like factors and constants are combined. -/
def likeFactors (g : Graph) (xs : List NodeId) : Factors :=
  (xs.foldl (Factors.readFactor g) {}).foldConstants g

/-- The sum that takes in the constant, and its exponent, unless there is no constant to take in. -/
def host? (g : Graph) (xs : List NodeId) : Option (NodeId × Rat) :=
  if (g.likeFactors xs).constant = 0 ∨ (g.likeFactors xs).constant = 1 then none
  else (g.likeFactors xs).hostSum? g

theorem host?_eq (h0 : (g.likeFactors xs).constant ≠ 0) (h1 : (g.likeFactors xs).constant ≠ 1) :
    g.host? xs = (g.likeFactors xs).hostSum? g :=
  if_neg (not_or.2 ⟨h0, h1⟩)

theorem WellFormed.combineFactors_echoes (hg : g.WellFormed) (hxs : ∀ x ∈ xs, x < g.size)
    (hp : xs.Perm ys) (hhost : g.host? xs = g.host? ys) :
    Echoes (combineFactors xs) (combineFactors ys) g SameNode := by
  have hread := Factors.reorders_of_factors hg hxs hp
  have hys : ∀ y ∈ ys, y < g.size := fun y hy => hxs y (hp.mem_iff.2 hy)
  apply Echoes.get
  · intro t hxt
    rw [Factors.foldl_congr fun y hy fs => Factors.readFactor_eq (hxt.agree hg) (hys y hy) fs]
  apply hread.emit hg
  intro h0 h1
  have hconstant : (g.likeFactors ys).constant = (g.likeFactors xs).constant :=
    hread.foldConstants.constant
  rw [host?_eq h0 h1, host?_eq (hconstant ▸ h0) (hconstant ▸ h1)] at hhost
  exact hhost.symm

/--
In every graph that programs reach, like factors are combined to the same node in two orders, if
the same sum takes in the constant, or none does. Combining them once more adds nothing. Only for
lack of room may there be no such node.
-/
theorem Reachable.combineFactors_perm (hg : g.Reachable) (hxs : ∀ x ∈ xs, x < g.size)
    (hp : xs.Perm ys) (hhost : g.host? xs = g.host? ys) :
    Meets Overflow (Graph.combineFactors xs) g fun y g' =>
      Graph.combineFactors ys g' = .ok y g' := by
  apply Meets.mono (hg.regular.toWellFormed.combineFactors_echoes hxs hp hhost)
  rintro y g' hg' _ ⟨_, ⟨rfl, -⟩, hfound⟩
  exact hfound g' hg' (.refl g')

/-- The constant `2` and the sums `x + y` and `w + z`, nodes `2`, `5` and `8`. -/
def twoSums : Graph :=
  [Action.construct (.constant 2), .construct (.symbol "x"), .construct (.symbol "y"),
    .construct (.sum [3, 4]), .construct (.symbol "w"), .construct (.symbol "z"),
    .construct (.sum [6, 7])].foldl (fun g a => a.after g) .empty

theorem twoSums_reachable : twoSums.Reachable := Reachable.empty.acts _

/-- The constant may follow the sum that takes it in. -/
theorem twoSums_combineFactors_perm :
    twoSums.host? [2, 5, 8] = twoSums.host? [5, 8, 2] ∧
      Meets Overflow (combineFactors [2, 5, 8]) twoSums fun y g' =>
        combineFactors [5, 8, 2] g' = .ok y g' := by
  have hsize : twoSums.size = 9 := by cbv
  have hhost : twoSums.host? [2, 5, 8] = twoSums.host? [5, 8, 2] := by cbv
  have hxs : ∀ x ∈ [2, 5, 8], x < twoSums.size := by
    rw [hsize]
    decide
  exact ⟨hhost, twoSums_reachable.combineFactors_perm hxs (by decide) hhost⟩

/-- Of `2 * (x + y) * (w + z)`, whichever sum was met first takes in the constant. -/
theorem twoSums_combineFactors_ne :
    twoSums.Reachable ∧ (∀ x ∈ [2, 5, 8], x < twoSums.size) ∧ [2, 5, 8].Perm [2, 8, 5] ∧
      match both (combineFactors [2, 5, 8]) (combineFactors [2, 8, 5]) twoSums with
      | .ok p _ => p.1 ≠ p.2
      | .error _ _ => False := by
  have hsize : twoSums.size = 9 := by cbv
  rw [hsize]
  exact ⟨twoSums_reachable, by decide, by decide, by cbv⟩

end ExactAlgebra.Graph
