import ExactAlgebra.Proofs.Collection.Factors
import ExactAlgebra.Proofs.Rational.Power

/-!
Rational values are a reading that collection respects, if powers are those with integer exponents.
-/

namespace ExactAlgebra.Graph

variable {M : Semantics} {g : Graph} {x y : NodeId} {e q v w p : Rat} {xs : List NodeId}
variable {vs : List Rat}

theorem Denotes.terms (h : g.Denotes M [] x v) :
    ∃ vs, g.AllDenote M (g.terms x) vs ∧ vs.sum = v := by
  obtain ⟨d, hd⟩ := h
  obtain ⟨vs, hvs, hsum⟩ := terms_values (valueWithin?_mono hd (Nat.le_succ d))
  exact ⟨vs, hvs.allDenote, hsum⟩

theorem Denotes.factors (h : g.Denotes M [] x v) :
    ∃ vs, g.AllDenote M (g.factors x) vs ∧ vs.prod = v := by
  obtain ⟨d, hd⟩ := h
  obtain ⟨vs, hvs, hprod⟩ := factors_values (valueWithin?_mono hd (Nat.le_succ d))
  exact ⟨vs, hvs.allDenote, hprod⟩

theorem AllDenote.singleton (h : g.Denotes M [] x v) : g.AllDenote M [x] [v] := .cons h .nil

theorem AllDenote.pair (hx : g.Denotes M [] x v) (hy : g.Denotes M [] y w) :
    g.AllDenote M [x, y] [v, w] := .cons hx (.cons hy .nil)

theorem Denotes.power_operands (hM : M.power = integerPower?) (h : g.Denotes M [] x v)
    (hs : g.shape x = .power) {b y : NodeId} (hops : g.operands x = [b, y]) :
    ∃ u e, g.Denotes M [] b u ∧ g.Denotes M [] y e ∧ integerPower? u e = some v := by
  obtain ⟨-, vs, hvs, hv⟩ := h.operands
  rw [hops] at hvs
  obtain ⟨u, us, hu, hus, rfl⟩ := List.forall₂_cons_left_iff.1 hvs
  obtain ⟨e, es, he, hes, rfl⟩ := List.forall₂_cons_left_iff.1 hus
  obtain rfl := List.forall₂_nil_left_iff.1 hes
  rw [hs, Semantics.combine, hM] at hv
  exact ⟨u, e, hu, he, hv⟩

/-- Where an exact power is found, it is the integer power, if that is defined. -/
theorem eq_of_power_eq_ok {b : Rat} (hp : integerPower? b e = some p)
    (h : (Rational.power b e).toOption.join = some q) : p = q := by
  obtain ⟨k, rfl, hk, rfl⟩ := integerPower?_eq_some.1 hp
  unfold Rational.power at h
  split at h
  · cases h
  split at h
  · next hb =>
    have hpos := hk.resolve_left (not_not.2 hb)
    rw [if_neg (not_lt.2 (Int.cast_nonneg hpos.le))] at h
    rw [if_neg (Int.cast_ne_zero.2 hpos.ne')] at h
    rw [hb, zero_zpow _ hpos.ne']
    exact Option.some.inj h
  · have hroot : Rational.root? (k : Rat).den b = some b := by
      rw [Rat.den_intCast, Rational.root?, if_pos rfl]
    rw [hroot, Rat.num_intCast] at h
    rw [← Rational.integerPower_eq]
    exact Option.some.inj h

/-- Rational values, with the powers that have integer exponents. -/
def valued (M : Semantics) : Reading Rat where
  Value g x v := g.Denotes M [] x v
  Raises g x e p := ∃ b, g.Denotes M [] x b ∧ integerPower? b e = some p
  Admits _ := True

theorem integerPower?_neg_one {b : Rat} :
    integerPower? b (-1) = some p ↔ b ≠ 0 ∧ p = b⁻¹ := by
  rw [integerPower?_eq_some]
  constructor
  · intro h
    obtain ⟨k, hk, hb, rfl⟩ := h
    obtain rfl : k = -1 := by exact_mod_cast hk.symm
    exact ⟨hb.resolve_right (by norm_num), zpow_neg_one b⟩
  · intro h
    exact ⟨-1, by norm_num, .inl h.1, h.2.trans (zpow_neg_one b).symm⟩

theorem valued_lawful (hM : M.power = integerPower?) : (valued M).Lawful where
  admits_zero := trivial
  admits_one := trivial
  admits_add _ _ := trivial
  admits_mul _ _ := trivial
  admits_inv _ := trivial
  lt_size := Denotes.lt_size
  lt_size_of_raises h := h.choose_spec.1.lt_size
  unique := Denotes.unique
  extends_value hg hx h := Denotes.extends h hg hx
  extends_raises hg hx h := by
    obtain ⟨b, hb, hp⟩ := h
    exact ⟨b, hb.extends hg hx, hp⟩
  of_value? h hq := ⟨by rw [Rat.cast_id]; exact h.eq_of_value? hq, trivial⟩
  terms := Denotes.terms
  factors := Denotes.factors
  constant hg _ := by
    rw [Rat.cast_id]
    exact constant_denotes M hg _
  sum := sum_denotes
  product := product_denotes
  zero hg := hg.denotes_zero
  base h hs hops he := by
    obtain ⟨u, e, hu, hy, hp⟩ := Denotes.power_operands hM h hs hops
    obtain rfl := hy.eq_of_value? he
    exact ⟨u, hu, hp⟩
  power hg h hy := by
    obtain ⟨b, hb, hp⟩ := h
    have hone : ∀ b, M.power b 1 = some b := fun b => by rw [hM, integerPower?_one]
    exact power_denotes hone hg hb ⟨1, hg.valueWithin?_plain hy⟩ (by rw [hM, hp])
  raises_zero h := by
    obtain ⟨b, -, hp⟩ := h
    obtain ⟨k, hk, -, rfl⟩ := integerPower?_eq_some.1 hp
    obtain rfl : k = 0 := by exact_mod_cast hk.symm
    exact zpow_zero b
  raises_one := by
    intro g x v
    constructor
    · intro h
      obtain ⟨b, hb, hp⟩ := h
      obtain rfl := Option.some.inj ((integerPower?_one b).symm.trans hp)
      exact hb
    · exact fun h => ⟨v, h, integerPower?_one v⟩
  raises_neg_one := by
    intro g x p
    simp only [valued, integerPower?_neg_one]
  raises_add he hf := by
    obtain ⟨b, hb, hp⟩ := he
    obtain ⟨b', hb', hq⟩ := hf
    obtain rfl := hb.unique hb'
    exact ⟨b, hb, integerPower?_add hp hq⟩
  exact h hb hq := by
    obtain ⟨b', hb', hp⟩ := h
    obtain rfl := hb'.eq_of_value? hb
    exact ⟨by rw [Rat.cast_id]; exact eq_of_power_eq_ok hp hq, trivial⟩

/-- The value of a sum is not changed by combining like terms. -/
theorem combineTerms_denotes (hM : M.power = integerPower?) (hg : g.WellFormed)
    (hxs : g.AllDenote M xs vs) :
    Meets Overflow (combineTerms xs) g fun y g' => g'.Denotes M [] y vs.sum :=
  combineTerms_values (valued_lawful hM) hg hxs

/-- The value of a product is not changed by combining like factors. -/
theorem combineFactors_denotes (hM : M.power = integerPower?) (hg : g.WellFormed)
    (hxs : g.AllDenote M xs vs) :
    Meets Overflow (combineFactors xs) g fun y g' => g'.Denotes M [] y vs.prod :=
  combineFactors_values (valued_lawful hM) hg hxs

end ExactAlgebra.Graph
