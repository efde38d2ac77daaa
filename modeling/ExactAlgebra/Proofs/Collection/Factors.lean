import ExactAlgebra.Proofs.Collection.Constants
import ExactAlgebra.Proofs.Collection.Terms

/-!
Combining like factors keeps values: the bases, each raised to its exponent, and the constant that
were read always stand for the product of what was read.
-/

namespace ExactAlgebra.Graph

variable {K : Type} [Field K] [CharZero K] {R : Reading K} {g g' : Graph} {x y : NodeId}
variable {e q : Rat} {v w p : K} {xs : List NodeId} {vs : List K} {es es' : List (NodeId × Rat)}

/-- The product of bases, each raised to its exponent, is `v`. No part of it is undefined. -/
inductive Raised (R : Reading K) (g : Graph) : List (NodeId × Rat) → K → Prop
  | nil : Raised R g [] 1
  | cons {x : NodeId} {e : Rat} {p v : K} {es : List (NodeId × Rat)} (hp : R.Raises g x e p)
      (hes : Raised R g es v) : Raised R g ((x, e) :: es) (p * v)

theorem Raised.extends (hR : R.Lawful) (h : Raised R g es v) (hg : g.WellFormed)
    (hx : g.Extends g') : Raised R g' es v := by
  induction h with
  | nil => exact .nil
  | cons hp _ ih => exact .cons (hR.extends_raises hg hx hp) ih

theorem Raised.add (hR : R.Lawful) (h : Raised R g es v) (hp : R.Raises g x e p) :
    Raised R g ((⟨es⟩ : Weights NodeId).add x e).entries (p * v) := by
  induction h with
  | nil =>
    rw [Weights.add_nil]
    exact .cons hp .nil
  | @cons y f u w es hu hes ih =>
    by_cases hy : y = x
    · subst hy
      rw [Weights.add_cons_self, ← mul_assoc, mul_comm p]
      exact .cons (hR.raises_add hu hp) hes
    · rw [Weights.add_cons_ne hy, mul_left_comm]
      exact .cons hu ih

/-- Any entry can be split off. -/
theorem Raised.of_append (h : Raised R g (es ++ (x, e) :: es') v) :
    ∃ p w, R.Raises g x e p ∧ Raised R g (es ++ es') w ∧ v = p * w := by
  induction es generalizing v with
  | nil =>
    cases h with
    | cons hp hes => exact ⟨_, _, hp, hes, rfl⟩
  | cons entry es ih =>
    cases h with
    | cons hp hes =>
      obtain ⟨q, w, hq, hes', rfl⟩ := ih hes
      exact ⟨q, _, hq, .cons hp hes', mul_left_comm _ _ _⟩

/-! ### Reading factors -/

/-- What was read multiplies to `v`, and has one entry for each base. -/
structure Factors.Denote (R : Reading K) (g : Graph) (fs : Factors) (v : K) : Prop where
  distinct : fs.exponents.Distinct
  admits : R.Admits fs.constant
  raised : ∃ w, Raised R g fs.exponents.entries w ∧ v = fs.constant * w

/-- What it is to be a power with a constant exponent. -/
theorem constantPower?_eq_some {b : NodeId} (h : g.constantPower? x = some (b, e)) :
    g.shape x = .power ∧ g.isLoop x = false ∧ ∃ y, g.operands x = [b, y] ∧ g.value? y = some e := by
  unfold constantPower? at h
  split at h
  · next ho =>
    obtain ⟨hs, hl⟩ := isOpenPower_iff.1 ho
    refine ⟨hs, hl, ?_⟩
    split at h
    · next b' y hops =>
      obtain ⟨e', hv, he⟩ := Option.map_eq_some_iff.1 h
      cases he
      exact ⟨y, hops, hv⟩
    · cases h
  · cases h

theorem Factors.Denote.read {fs : Factors} (hR : R.Lawful) (h : fs.Denote R g v)
    (hx : R.Value g x w) : (fs.read g x).Denote R g (w * v) := by
  obtain ⟨hd, ha, u, hu, rfl⟩ := h
  unfold Factors.read
  cases hq : g.value? x with
  | some q =>
    obtain ⟨rfl, hq⟩ := hR.of_value? hx hq
    refine ⟨hd, hR.admits_mul ha hq, u, hu, ?_⟩
    push_cast
    ring
  | none =>
    cases hc : g.constantPower? x with
    | none =>
      exact ⟨hd.add x 1, ha, _, hu.add hR (hR.raises_one.2 hx), by ring⟩
    | some r =>
      obtain ⟨b, e⟩ := r
      obtain ⟨hs, -, y, hops, hy⟩ := constantPower?_eq_some hc
      exact ⟨hd.add b e, ha, _, hu.add hR (hR.base hx hs hops hy), by ring⟩

theorem Factors.Denote.foldl {f : Factors → NodeId → Factors}
    (hf : ∀ fs v x w, fs.Denote R g v → R.Value g x w → (f fs x).Denote R g (w * v))
    {fs : Factors} (h : fs.Denote R g v) (hxs : R.Values g xs vs) :
    (xs.foldl f fs).Denote R g (vs.prod * v) := by
  induction hxs generalizing fs v with
  | nil => rwa [List.prod_nil, one_mul]
  | @cons x w xs vs hw _ ih =>
    have hrest := ih (hf fs v x w h hw)
    rwa [List.foldl_cons, List.prod_cons, show w * vs.prod * v = vs.prod * (w * v) by ring]

theorem Factors.Denote.readFactor {fs : Factors} (hR : R.Lawful) (h : fs.Denote R g v)
    (hx : R.Value g x w) : (fs.readFactor g x).Denote R g (w * v) := by
  obtain ⟨ws, hws, rfl⟩ := hR.factors hx
  exact h.foldl (fun _ _ _ _ h hx => h.read hR hx) hws

/-! ### Folding constants -/

/-- The exact value of an entry. -/
def Factors.folded? (g : Graph) (r : NodeId × Rat) : Option Rat := foldedValue? g r.1 r.2

theorem Factors.foldEntry_eq (g : Graph) (fs : Factors) (r : NodeId × Rat) :
    fs.foldEntry g r =
      match folded? g r with
      | some q => ⟨fs.exponents.erase r.1, fs.constant * q⟩
      | none => fs :=
  rfl

/-- Entries with exact values leave, in one pass, and go into the constant. -/
theorem Factors.foldConstants_eq (g : Graph) {fs : Factors} (h : fs.exponents.Distinct) :
    fs.foldConstants g =
      ⟨⟨fs.exponents.entries.filter fun r => (folded? g r).isNone⟩,
        fs.constant * (fs.exponents.entries.filterMap (folded? g)).prod⟩ := by
  have hfold : ∀ (es kept : List (NodeId × Rat)) (q : Rat), ((kept ++ es).map Prod.fst).Nodup →
      es.foldl (foldEntry g) ⟨⟨kept ++ es⟩, q⟩ =
        ⟨⟨kept ++ es.filter fun r => (folded? g r).isNone⟩,
          q * (es.filterMap (folded? g)).prod⟩ := by
    intro es
    induction es with
    | nil => intro kept q _; simp
    | cons r es ih =>
      intro kept q hd
      have hmid : ((kept ++ es).map Prod.fst).Nodup ∧ r.1 ∉ kept.map Prod.fst := by
        simp only [List.map_append, List.map_cons] at hd
        have hd' := List.nodup_middle.1 hd
        rw [List.nodup_cons, ← List.map_append] at hd'
        refine ⟨hd'.2, fun hmem => hd'.1 ?_⟩
        simp only [List.map_append, List.mem_append]
        exact .inl hmem
      rw [List.foldl_cons]
      cases hr : folded? g r with
      | none =>
        have happ : kept ++ r :: es = (kept ++ [r]) ++ es := by simp
        simp only [foldEntry_eq, hr]
        rw [happ] at hd ⊢
        rw [ih (kept ++ [r]) q hd, List.filter_cons_of_pos (by simp [hr]),
          List.filterMap_cons_none hr, List.append_assoc,
          List.singleton_append]
      | some p =>
        have herase : (⟨kept ++ r :: es⟩ : Weights NodeId).erase r.1 = ⟨kept ++ es⟩ :=
          congrArg Weights.mk (Weights.erase_append hmid.2 r.2 es)
        simp only [foldEntry_eq, hr, herase]
        rw [ih kept (q * p) hmid.1, List.filter_cons_of_neg (by simp [hr]),
          List.filterMap_cons_some hr, List.prod_cons,
          mul_assoc]
  exact hfold fs.exponents.entries [] fs.constant h

theorem Factors.folded?_eq (hR : R.Lawful) (hp : R.Raises g x e p)
    (h : folded? g (x, e) = some q) : p = q ∧ R.Admits q := by
  unfold folded? foldedValue? at h
  cases hx : g.value? x with
  | none =>
    rw [hx] at h
    cases h
  | some b =>
    rw [hx] at h
    simp only at h
    split at h
    · cases h
    · exact hR.exact hp hx h

theorem Factors.Denote.foldConstants {fs : Factors} (hR : R.Lawful) (h : fs.Denote R g v) :
    (fs.foldConstants g).Denote R g v := by
  obtain ⟨hd, ha, w, hw, rfl⟩ := h
  have hfold : ∃ u, Raised R g
      (fs.exponents.entries.filter fun r => (folded? g r).isNone) u ∧
      w = ((fs.exponents.entries.filterMap (folded? g)).prod : Rat) * u ∧
      R.Admits (fs.exponents.entries.filterMap (folded? g)).prod := by
    clear hd
    generalize fs.exponents.entries = es at hw
    induction hw with
    | nil => exact ⟨1, .nil, by simp, hR.admits_one⟩
    | @cons x e p v es hp _ ih =>
      obtain ⟨u, hu, rfl, hadmits⟩ := ih
      cases hr : folded? g (x, e) with
      | none =>
        rw [List.filter_cons_of_pos (by simp [hr]), List.filterMap_cons_none hr]
        exact ⟨p * u, .cons hp hu, mul_left_comm _ _ _, hadmits⟩
      | some q =>
        obtain ⟨rfl, hq⟩ := folded?_eq hR hp hr
        rw [List.filter_cons_of_neg (by simp [hr]), List.filterMap_cons_some hr, List.prod_cons,
          Rat.cast_mul]
        exact ⟨u, hu, (mul_assoc _ _ _).symm, hR.admits_mul hq hadmits⟩
  obtain ⟨u, hu, rfl, hadmits⟩ := hfold
  rw [foldConstants_eq g hd]
  constructor
  · exact hd.sublist (List.Sublist.map _ (List.filter_sublist ..))
  · exact hR.admits_mul ha hadmits
  · exact ⟨u, hu, by rw [Rat.cast_mul, mul_assoc]⟩

/-! ### Placing the constant -/

theorem hostSum?_eq_some {fs : Factors} (h : fs.hostSum? g = some (x, e)) :
    (x, e) ∈ fs.exponents.entries ∧ (g.node x).isOpenSum ∧ (e = 1 ∨ e = -1) := by
  have hmem := List.mem_of_find?_eq_some h
  have hp := List.find?_some h
  simp only [Bool.and_eq_true, Bool.or_eq_true, decide_eq_true_eq] at hp
  exact ⟨hmem, hp⟩

/-- A number and its inverse, raised to the exponents that a host may have. -/
theorem scaled_power (hR : R.Lawful) {c : Rat} (hc : c ≠ 0) (he : e = 1 ∨ e = -1)
    (hp : R.Raises g x e p) :
    ∃ b, R.Value g x b ∧ ∀ g' y, R.Value g' y ((if e < 0 then c⁻¹ else c : Rat) * b) →
      R.Raises g' y e (c * p) := by
  have hc' : (c : K) ≠ 0 := Rat.cast_ne_zero.2 hc
  rcases he with rfl | rfl
  · refine ⟨p, hR.raises_one.1 hp, fun g' y hy => hR.raises_one.2 ?_⟩
    rwa [if_neg (by norm_num)] at hy
  · obtain ⟨b, hb, hb0, rfl⟩ := hR.raises_neg_one.1 hp
    refine ⟨b, hb, fun g' y hy => hR.raises_neg_one.2 ⟨_, hy, ?_, ?_⟩⟩
    · rw [if_pos (by norm_num), Rat.cast_inv]
      exact mul_ne_zero (inv_ne_zero hc') hb0
    · rw [if_pos (by norm_num), Rat.cast_inv, mul_inv, inv_inv]

theorem Factors.placeConstant_values {fs : Factors} (hR : R.Lawful) (hg : g.WellFormed)
    (h : fs.Denote R g v) (hc : fs.constant ≠ 0) :
    Meets Overflow fs.placeConstant g fun ws g' => Raised R g' ws.entries v := by
  obtain ⟨hd, ha, w, hw, rfl⟩ := h
  rw [placeConstant_eq hc]
  apply Meets.ite
  · intro h1
    apply Meets.pure hg
    rwa [h1, Rat.cast_one, one_mul]
  intro _
  apply Meets.get
  cases hh : fs.hostSum? g with
  | none =>
    apply (hR.constant hg ha).bind
    intro y g' hg' hext hy
    exact .pure hg' ((hw.extends hR hg hext).add hR (hR.raises_one.2 hy))
  | some r =>
    obtain ⟨x, e⟩ := r
    obtain ⟨hmem, -, he⟩ := hostSum?_eq_some hh
    obtain ⟨es, es', hes⟩ := List.append_of_mem hmem
    rw [hes] at hw
    obtain ⟨p, u, hp, hu, rfl⟩ := hw.of_append
    obtain ⟨b, hb, hscaled⟩ := scaled_power hR hc he hp
    have hx : x ∉ es.map Prod.fst := by
      rw [Weights.Distinct, Weights.keys, hes, List.map_append, List.map_cons] at hd
      have hd' := (List.nodup_cons.1 (List.nodup_middle.1 hd)).1
      exact fun hmem => hd' (List.mem_append_left _ hmem)
    have herase : (fs.exponents.erase x).entries = es ++ es' := by
      rw [← Weights.erase_append hx e es', ← hes]
    have hscale : R.Admits (if e < 0 then fs.constant⁻¹ else fs.constant) := by
      split
      · exact hR.admits_inv ha
      · exact ha
    apply (scaleSum_values hR hg hscale hb).bind
    intro y g' hg' hext hy
    apply Meets.pure hg'
    have hadd := (hu.extends hR hg hext).add hR (hscaled g' y hy)
    rw [← herase, mul_assoc] at hadd
    exact hadd

/-! ### Building the product -/

theorem weightedFactor?_values (hR : R.Lawful) (hg : g.WellFormed) (hp : R.Raises g x e p) :
    Meets Overflow (weightedFactor? (x, e)) g fun r g' =>
      (r = none ∧ p = 1) ∨ ∃ y, r = some y ∧ R.Value g' y p := by
  unfold weightedFactor?
  apply Meets.ite
  · intro h0
    obtain rfl : e = 0 := h0
    exact .pure hg (.inl ⟨rfl, hR.raises_zero hp⟩)
  intro _
  apply (checked_meets hg (hR.lt_size_of_raises hp)).bind
  intro y g' hg' _ hy
  obtain ⟨rfl, rfl⟩ := hy
  apply Meets.ite
  · intro h1
    obtain rfl : e = 1 := h1
    exact .pure hg' (.inr ⟨y, rfl, hR.raises_one.1 hp⟩)
  intro _
  apply (constant_plainValue? hg' e).bind
  intro z g'' hg'' hext hz
  apply (hR.power hg'' (hR.extends_raises hg' hext hp) hz).bind
  intro y' g₃ hg₃ _ hy'
  exact .pure hg₃ (.inr ⟨y', rfl, hy'⟩)

theorem filterMapM_weightedFactor? (hR : R.Lawful) (hg : g.WellFormed) (h : Raised R g es v) :
    Meets Overflow (es.filterMapM weightedFactor?) g fun xs g' =>
      ∃ vs, R.Values g' xs vs ∧ vs.prod = v := by
  induction es generalizing g v with
  | nil =>
    cases h
    exact .pure hg ⟨[], .nil, rfl⟩
  | cons r es ih =>
    cases h with
    | @cons x e p w _ hp hes =>
      rw [List.filterMapM_cons]
      apply (weightedFactor?_values hR hg hp).bind
      intro r g' hg' hext hr
      have hrest := ih hg' (hes.extends hR hg hext)
      rcases hr with ⟨rfl, rfl⟩ | ⟨y, rfl, hy⟩
      · rw [one_mul]
        exact hrest
      · apply hrest.bind
        intro xs g'' hg'' hext' hxs
        obtain ⟨vs, hvs, rfl⟩ := hxs
        exact .pure hg'' ⟨_ :: vs, .cons (hR.extends_value hg' hext' hy) hvs, List.prod_cons⟩

theorem Factors.emit_values {fs : Factors} (hR : R.Lawful) (hg : g.WellFormed)
    (h : fs.Denote R g v) : Meets Overflow fs.emit g fun y g' => R.Value g' y v := by
  rw [emit_eq]
  apply Meets.get
  have hfold := h.foldConstants hR
  apply Meets.ite
  · intro h0
    obtain ⟨-, -, w, -, rfl⟩ := hfold
    rw [h0, Rat.cast_zero, zero_mul]
    exact .pure hg (hR.zero hg)
  intro h0
  apply (placeConstant_values hR hg hfold h0).bind
  intro ws g' hg' _ hws
  apply (filterMapM_weightedFactor? hR hg' hws).bind
  intro xs g'' hg'' _ hxs
  obtain ⟨vs, hvs, rfl⟩ := hxs
  exact hR.product hg'' hvs

/-- The value of a product is not changed by combining like factors. -/
theorem combineFactors_values (hR : R.Lawful) (hg : g.WellFormed) (hxs : R.Values g xs vs) :
    Meets Overflow (combineFactors xs) g fun y g' => R.Value g' y vs.prod := by
  apply Meets.get
  have hnil : Factors.Denote R g {} 1 := by
    constructor
    · exact List.nodup_nil
    · exact hR.admits_one
    · exact ⟨1, .nil, by rw [Rat.cast_one, one_mul]⟩
  have hread := hnil.foldl (fun _ _ _ _ h hx => h.readFactor hR hx) hxs
  rw [mul_one] at hread
  exact Factors.emit_values hR hg hread

end ExactAlgebra.Graph
