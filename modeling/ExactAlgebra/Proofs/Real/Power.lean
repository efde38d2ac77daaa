import Mathlib.Analysis.SpecialFunctions.Pow.Real
import Mathlib.Data.Sign.Basic
import ExactAlgebra.Proofs.Rational.Power

/-!
Powers of reals with rational exponents. A root of odd degree has the sign of the number that it is
taken of. Roots of even degree are only meant for numbers that are not negative, and where all roots
exist, exponents add up and multiply.
-/

namespace ExactAlgebra

variable {b c : ℝ} {e f : ℚ}

open SignType (sign)

/-- The power of the absolute value, with the sign that the numerator of the exponent gives it. -/
noncomputable def realPower (b : ℝ) (e : ℚ) : ℝ := (sign b : ℝ) ^ e.num * |b| ^ (e : ℝ)

/-- Where roots exist. -/
def Rootable (b : ℝ) (e : ℚ) : Prop := 0 ≤ b ∨ Odd e.den

theorem realPower_zero (b : ℝ) : realPower b 0 = 1 := by
  simp [realPower]

theorem realPower_one (b : ℝ) : realPower b 1 = b := by
  simp [realPower]

theorem realPower_of_pos (hb : 0 < b) (e : ℚ) : realPower b e = b ^ (e : ℝ) := by
  simp [realPower, hb, abs_of_pos hb]

theorem realPower_of_neg (hb : b < 0) (e : ℚ) : realPower b e = (-1) ^ e.num * |b| ^ (e : ℝ) := by
  simp [realPower, hb]

theorem zero_realPower (he : e ≠ 0) : realPower 0 e = 0 := by
  simp [realPower, Real.zero_rpow, he]

theorem one_realPower (e : ℚ) : realPower 1 e = 1 := by
  simp [realPower]

theorem realPower_intCast (b : ℝ) (k : ℤ) : realPower b k = b ^ k := by
  rw [realPower, Rat.num_intCast, Rat.cast_intCast, Real.rpow_intCast, ← mul_zpow, sign_mul_abs]

theorem mul_realPower (b c : ℝ) (e : ℚ) : realPower (b * c) e = realPower b e * realPower c e := by
  rw [realPower, sign_mul, SignType.coe_mul, mul_zpow, abs_mul,
    Real.mul_rpow (abs_nonneg b) (abs_nonneg c), realPower, realPower]
  ring

theorem realPower_nonneg (hb : 0 ≤ b) (e : ℚ) : 0 ≤ realPower b e := by
  rcases hb.eq_or_lt with rfl | hb
  · by_cases he : e = 0
    · rw [he, realPower_zero]
      exact zero_le_one
    · rw [zero_realPower he]
  · rw [realPower_of_pos hb]
    exact Real.rpow_nonneg hb.le _

/-! ### Parity -/

/-- Over any odd denominator, the numerator is as even as it is in lowest terms. -/
theorem even_num_iff {n : ℤ} {d : ℕ} (he : Odd e.den) (hd : Odd d) (h : e * d = n) :
    Even e.num ↔ Even n := by
  have hcross : e.num * d = n * e.den := by
    have hq : (e.num * d : ℚ) = n * e.den := by
      rw [← h, ← Rat.mul_den_eq_num e]
      ring
    exact_mod_cast hq
  have hd' : ¬ Even (d : ℤ) := by simpa using hd
  have he' : ¬ Even (e.den : ℤ) := by simpa using he
  have heven := congrArg Even hcross
  simpa only [Int.even_mul, hd', he', or_false, eq_iff_iff] using heven

theorem neg_one_zpow_congr {m n : ℤ} (h : Even m ↔ Even n) : (-1 : ℝ) ^ m = (-1) ^ n := by
  by_cases hm : Even m
  · rw [hm.neg_one_zpow, (h.1 hm).neg_one_zpow]
  · have hn : ¬ Even n := fun hn => hm (h.2 hn)
    rw [(Int.not_even_iff_odd.1 hm).neg_one_zpow, (Int.not_even_iff_odd.1 hn).neg_one_zpow]

theorem odd_den_add (he : Odd e.den) (hf : Odd f.den) : Odd (e + f).den :=
  (he.mul hf).of_dvd_nat (Rat.add_den_dvd e f)

theorem odd_den_mul (he : Odd e.den) (hf : Odd f.den) : Odd (e * f).den :=
  (he.mul hf).of_dvd_nat (Rat.mul_den_dvd e f)

theorem neg_one_zpow_num_add (he : Odd e.den) (hf : Odd f.den) :
    (-1 : ℝ) ^ (e + f).num = (-1) ^ e.num * (-1) ^ f.num := by
  rw [← zpow_add₀ (by norm_num)]
  apply neg_one_zpow_congr
  have hnum : (e + f) * ((e.den * f.den : ℕ) : ℚ) = (e.num * f.den + f.num * e.den : ℤ) := by
    push_cast
    rw [← Rat.mul_den_eq_num e, ← Rat.mul_den_eq_num f]
    ring
  rw [even_num_iff (odd_den_add he hf) (he.mul hf) hnum]
  have he' : ¬ Even (e.den : ℤ) := by simpa using he
  have hf' : ¬ Even (f.den : ℤ) := by simpa using hf
  simp only [Int.even_add, Int.even_mul, he', hf', or_false]

theorem neg_one_zpow_num_mul (he : Odd e.den) (hf : Odd f.den) :
    (-1 : ℝ) ^ (e * f).num = ((-1) ^ e.num) ^ f.num := by
  rw [← zpow_mul]
  apply neg_one_zpow_congr
  have hnum : (e * f) * ((e.den * f.den : ℕ) : ℚ) = (e.num * f.num : ℤ) := by
    push_cast
    rw [← Rat.mul_den_eq_num e, ← Rat.mul_den_eq_num f]
    ring
  exact even_num_iff (odd_den_mul he hf) (he.mul hf) hnum

/-! ### Exponents -/

/-- Exponents of one base add up. -/
theorem realPower_add (he : Rootable b e) (hf : Rootable b f) (hb : b ≠ 0 ∨ 0 < e ∧ 0 < f) :
    realPower b (e + f) = realPower b e * realPower b f := by
  rcases lt_trichotomy b 0 with hneg | rfl | hpos
  · have he := he.resolve_left (not_le.2 hneg)
    have hf := hf.resolve_left (not_le.2 hneg)
    rw [realPower_of_neg hneg, realPower_of_neg hneg, realPower_of_neg hneg,
      neg_one_zpow_num_add he hf, Rat.cast_add, Real.rpow_add (abs_pos.2 hneg.ne)]
    ring
  · obtain ⟨he, hf⟩ := hb.resolve_left (not_not.2 rfl)
    rw [zero_realPower he.ne', zero_realPower (add_pos he hf).ne', zero_mul]
  · rw [realPower_of_pos hpos, realPower_of_pos hpos, realPower_of_pos hpos, Rat.cast_add,
      Real.rpow_add hpos]

/-- Exponents of nested powers multiply. -/
theorem realPower_mul (he : Rootable b e) (hf : Rootable b f) (hb : b ≠ 0 ∨ 0 < e ∧ 0 < f) :
    realPower b (e * f) = realPower (realPower b e) f := by
  rcases lt_trichotomy b 0 with hneg | rfl | hpos
  · have he := he.resolve_left (not_le.2 hneg)
    have hf := hf.resolve_left (not_le.2 hneg)
    have habs : 0 < |b| ^ (e : ℝ) := Real.rpow_pos_of_pos (abs_pos.2 hneg.ne) _
    have hpower : realPower (|b| ^ (e : ℝ)) f = |b| ^ ((e * f : ℚ) : ℝ) := by
      rw [realPower_of_pos habs, ← Real.rpow_mul (abs_nonneg b), Rat.cast_mul]
    rw [realPower_of_neg hneg, realPower_of_neg hneg, mul_realPower, hpower,
      neg_one_zpow_num_mul he hf]
    congr 1
    rcases Int.even_or_odd e.num with h | h
    · rw [h.neg_one_zpow, one_zpow, one_realPower]
    · rw [h.neg_one_zpow, realPower_of_neg (by norm_num), abs_neg, abs_one, Real.one_rpow, mul_one]
  · obtain ⟨he, hf⟩ := hb.resolve_left (not_not.2 rfl)
    rw [zero_realPower he.ne', zero_realPower hf.ne', zero_realPower (mul_pos he hf).ne']
  · have hpos' : 0 < b ^ (e : ℝ) := Real.rpow_pos_of_pos hpos _
    rw [realPower_of_pos hpos, realPower_of_pos hpos, realPower_of_pos hpos', Rat.cast_mul,
      Real.rpow_mul hpos.le]

/-! ### Exact powers -/

/-- Exact powers are powers. -/
theorem Rational.cast_power {b e q : ℚ} (hb : b ≠ 0 ∨ 0 < e)
    (h : (power b e).toOption.join = some q) : (q : ℝ) = realPower b e ∧ (0 ≤ b → 0 ≤ q) := by
  unfold power at h
  split at h
  · cases h
  split at h
  · next hzero =>
    have he := hb.resolve_left (not_not.2 hzero)
    rw [if_neg (not_lt.2 he.le), if_neg he.ne'] at h
    obtain rfl : (0 : ℚ) = q := Option.some.inj h
    rw [hzero, Rat.cast_zero, zero_realPower he.ne']
    exact ⟨rfl, id⟩
  · next hb =>
    obtain ⟨c, hc, rfl⟩ := Option.map_eq_some_iff.1 (show (root? e.den b).map _ = some q from h)
    obtain ⟨rfl, hsign⟩ := root?_spec e.den_nz hc
    rw [integerPower_eq]
    have hc0 : c ≠ 0 := fun h0 => hb (by rw [h0, zero_pow e.den_nz])
    constructor
    · have hroot : Rootable (c : ℝ) e := by
        rcases Nat.even_or_odd e.den with heven | hodd
        · exact .inl (Rat.cast_nonneg.2 (hsign (heven.pow_nonneg c)))
        · exact .inr hodd
      have hmul := realPower_mul (b := c) (e := (e.den : ℤ)) (f := e) (.inr (by simp)) hroot
        (.inl (Rat.cast_ne_zero.2 hc0))
      rw [realPower_intCast, Int.cast_natCast, mul_comm, Rat.mul_den_eq_num, realPower_intCast]
        at hmul
      rw [Rat.cast_zpow, Rat.cast_pow, hmul, zpow_natCast]
    · exact fun h => zpow_nonneg (hsign h) _

end ExactAlgebra
