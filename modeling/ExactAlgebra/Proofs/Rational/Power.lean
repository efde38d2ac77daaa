import Mathlib.Algebra.Order.Field.Rat
import Mathlib.Data.Rat.Lemmas
import Mathlib.Tactic
import ExactAlgebra.Rational.Power

/-!
Exact roots are roots, and integer powers are powers.
-/

namespace ExactAlgebra.Rational

theorem pow_of_exactRoot? {q n r : Nat} (h : exactRoot? q n = some r) : r ^ q = n := by
  rw [exactRoot?] at h
  split at h
  · next hr =>
    rw [← Option.some.inj h]
    exact hr
  · cases h

/-- An exact root is a root, and it has the sign of the number. -/
theorem root?_spec {d : Nat} {b c : ℚ} (hd : d ≠ 0) (h : root? d b = some c) :
    c ^ d = b ∧ (0 ≤ b → 0 ≤ c) := by
  unfold root? at h
  split at h
  · next h1 =>
    cases h
    exact ⟨by rw [h1, pow_one], id⟩
  split at h
  · cases h
  · next hsign =>
    simp only [Option.bind_eq_bind, Option.bind_eq_some_iff, Option.pure_def,
      Option.some.injEq] at h
    obtain ⟨n, hn, m, hm, rfl⟩ := h
    have hn := pow_of_exactRoot? hn
    have hm := pow_of_exactRoot? hm
    rw [Rat.mkRat_eq_div]
    constructor
    · have hs : b.num.sign ^ d = b.num.sign := by
        rcases lt_trichotomy b 0 with hb | rfl | hb
        · have hodd : Odd d := Nat.odd_iff.2 (Nat.mod_two_ne_zero.1 fun h => hsign ⟨hb, h⟩)
          rw [Int.sign_eq_neg_one_of_neg (Rat.num_neg.2 hb), hodd.neg_one_pow]
        · exact zero_pow hd
        · rw [Int.sign_eq_one_of_pos (Rat.num_pos.2 hb), one_pow]
      have hpow : ((b.num.sign * n : ℤ) : ℚ) ^ d = b.num := by
        rw [← Int.cast_pow, mul_pow, hs, ← Nat.cast_pow, hn, Int.sign_mul_natAbs]
      rw [div_pow, hpow, ← Nat.cast_pow, hm, Rat.num_div_den]
    · intro hb
      have hnum : 0 ≤ b.num.sign := Int.sign_nonneg_iff.2 (Rat.num_nonneg.2 hb)
      positivity

theorem integerPower_eq (b : ℚ) (k : ℤ) : integerPower b k = b ^ k := by
  rw [integerPower]
  split
  · next hneg =>
    rw [← zpow_natCast, Int.ofNat_natAbs_of_nonpos hneg.le, zpow_neg, inv_inv]
  · next hneg =>
    rw [← zpow_natCast, Int.natAbs_of_nonneg (not_lt.1 hneg)]

end ExactAlgebra.Rational
