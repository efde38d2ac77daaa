import ExactAlgebra.Proofs.Rational.Power

/-!
Roots are found wherever there are any, and so are powers: a power is left alone only where it is
irrational, or where its exponent is too large.
-/

namespace ExactAlgebra.Rational

variable {b c r : ℚ} {p : ℤ} {d n q s : ℕ}

/-! ### Roots of natural numbers -/

theorem extendRoot_succ (q n bits s : ℕ) :
    extendRoot q n (bits + 1) s =
      extendRoot q n bits (if (s + 2 ^ bits) ^ q ≤ n then s + 2 ^ bits else s) := rfl

/-- If the root lies less than `2 ^ bits` above `s`, the digits below come to it. -/
theorem extendRoot_spec {bits : ℕ} (hs : s ^ q ≤ n) (hlt : n < (s + 2 ^ bits) ^ q) :
    extendRoot q n bits s ^ q ≤ n ∧ n < (extendRoot q n bits s + 1) ^ q := by
  induction bits generalizing s with
  | zero => exact ⟨hs, hlt⟩
  | succ bits ih =>
    rw [extendRoot_succ]
    split
    · next hfits =>
      apply ih hfits
      rwa [add_assoc, ← two_mul, ← pow_succ']
    · next hexceeds => exact ih hs (not_le.1 hexceeds)

theorem lt_pow_rootBits (hq : q ≠ 0) (n : ℕ) : n < (0 + 2 ^ rootBits q n) ^ q := by
  rw [zero_add, ← pow_mul, rootBits]
  apply Nat.lt_log2_self.trans_le
  apply Nat.pow_le_pow_right Nat.two_pos
  rw [mul_comm]
  exact Nat.lt_mul_div_succ _ (Nat.pos_of_ne_zero hq)

/-- The approximation is believed only if it is the root. -/
theorem floorRoot_spec (hq : q ≠ 0) (n : ℕ) :
    floorRoot q n ^ q ≤ n ∧ n < (floorRoot q n + 1) ^ q := by
  rw [floorRoot]
  split
  · next h => exact h
  · apply extendRoot_spec
    · rw [zero_pow hq]
      exact n.zero_le
    · exact lt_pow_rootBits hq n

theorem exactRoot?_eq_some_iff (hq : q ≠ 0) : exactRoot? q n = some s ↔ s ^ q = n := by
  constructor
  · exact pow_of_exactRoot?
  · rintro rfl
    obtain ⟨hle, hlt⟩ := floorRoot_spec hq (s ^ q)
    have hroot : floorRoot q (s ^ q) = s := by
      apply Nat.le_antisymm
      · exact (Nat.pow_le_pow_iff_left hq).1 hle
      · exact Nat.lt_succ_iff.1 ((Nat.pow_lt_pow_iff_left hq).1 hlt)
    rw [exactRoot?, hroot]
    exact if_pos rfl

/-! ### Roots of rationals -/

/-- Numerator and denominator of a root are roots of numerator and denominator. -/
theorem exists_root? (hd : d ≠ 0) (c : ℚ) : ∃ r, root? d (c ^ d) = some r := by
  by_cases h1 : d = 1
  · exact ⟨c ^ d, if_pos h1⟩
  have hsign : ¬ (c ^ d < 0 ∧ d % 2 = 0) := fun ⟨hneg, heven⟩ =>
    absurd hneg (not_lt.2 ((Nat.even_iff.2 heven).pow_nonneg c))
  have hnum : exactRoot? d (c ^ d).num.natAbs = some c.num.natAbs := by
    rw [exactRoot?_eq_some_iff hd, Rat.num_pow, Int.natAbs_pow]
  have hden : exactRoot? d (c ^ d).den = some c.den := by
    rw [exactRoot?_eq_some_iff hd, Rat.den_pow]
  refine ⟨mkRat ((c ^ d).num.sign * c.num.natAbs) c.den, ?_⟩
  rw [root?, if_neg h1, if_neg hsign, hnum, hden]
  rfl

/-- Roots of odd degree are told apart by their powers, and so are positive roots. -/
theorem eq_of_pow_eq (hd : d ≠ 0) (hr : Even d → 0 < r) (hc : Even d → 0 < c)
    (h : r ^ d = c ^ d) : r = c := by
  rcases Nat.even_or_odd d with heven | hodd
  · exact (pow_left_inj₀ (hr heven).le (hc heven).le hd).1 h
  · exact hodd.strictMono_pow.injective h

/-! ### Powers -/

/-- Where numerator and denominator of the exponent have no common factor, a base whose power has a
root has a root itself. -/
theorem exists_root_of_pow_eq (hb : b ≠ 0) (hq : q ≠ 0) (hpq : p.natAbs.Coprime q)
    (h : r ^ q = b ^ p) : ∃ c, c ^ q = b := by
  have hr : r ≠ 0 := by
    rintro rfl
    rw [zero_pow hq] at h
    exact zpow_ne_zero p hb h.symm
  have hbezout : p * p.gcdA q + q * p.gcdB q = 1 := by
    rw [← Int.gcd_eq_gcd_ab, Int.gcd, Int.natAbs_natCast, hpq]
    rfl
  refine ⟨r ^ p.gcdA q * b ^ p.gcdB q, ?_⟩
  calc (r ^ p.gcdA q * b ^ p.gcdB q) ^ q
      = (r ^ q) ^ p.gcdA q * (b ^ (q : ℤ)) ^ p.gcdB q := by
        rw [mul_pow, ← zpow_natCast, ← zpow_natCast, ← zpow_natCast, zpow_comm r, zpow_comm b]
    _ = b ^ (p * p.gcdA q + q * p.gcdB q) := by
        rw [h, ← zpow_mul, ← zpow_mul, zpow_add₀ hb]
    _ = b := by rw [hbezout, zpow_one]

/-- The powers that are given are the rational ones, and positive if there is a choice. -/
theorem root?_map_zpow (hb : b ≠ 0) (hq : q ≠ 0) (hpq : p.natAbs.Coprime q) :
    (root? q b).map (· ^ p) = some r ↔ r ^ q = b ^ p ∧ (Even q → 0 < r) := by
  have hroot : ∀ {c}, root? q b = some c → (c ^ p) ^ q = b ^ p ∧ (Even q → 0 < c ^ p) := by
    intro c hc
    obtain ⟨hpow, hsign⟩ := root?_spec hq hc
    have hc0 : c ≠ 0 := by
      rintro rfl
      exact hb (hpow ▸ zero_pow hq)
    refine ⟨by rw [← zpow_natCast, zpow_comm, zpow_natCast, hpow], fun heven => ?_⟩
    exact zpow_pos ((hsign (hpow ▸ heven.pow_nonneg c)).lt_of_ne' hc0) p
  constructor
  · intro h
    obtain ⟨c, hc, rfl⟩ := Option.map_eq_some_iff.1 h
    exact hroot hc
  · intro ⟨hpow, hpos⟩
    obtain ⟨c, rfl⟩ := exists_root_of_pow_eq hb hq hpq hpow
    obtain ⟨c', hc'⟩ := exists_root? hq c
    obtain ⟨hpow', hpos'⟩ := hroot hc'
    rw [hc', Option.map_some, eq_of_pow_eq hq hpos' hpos (hpow'.trans hpow.symm)]

theorem root?_eq_none_iff (hb : b ≠ 0) (hq : q ≠ 0) (hpq : p.natAbs.Coprime q) :
    root? q b = none ↔ ¬ ∃ r, r ^ q = b ^ p := by
  constructor
  · intro hnone ⟨r, hr⟩
    obtain ⟨c, rfl⟩ := exists_root_of_pow_eq hb hq hpq hr
    obtain ⟨c', hc'⟩ := exists_root? hq c
    rw [hnone] at hc'
    cases hc'
  · intro hnone
    cases hc : root? q b with
    | none => rfl
    | some c =>
      have h := (root?_map_zpow (r := c ^ p) hb hq hpq).1 (by rw [hc, Option.map_some])
      exact absurd ⟨_, h.1⟩ hnone

/-- Within the limit, all there is to a power of a nonzero base is a root of it. -/
theorem power_of_ne_zero {e : ℚ} (hb : b ≠ 0) (hnum : e.num.natAbs ≤ exponentLimit)
    (hden : e.den ≤ exponentLimit) : power b e = .ok ((root? e.den b).map (· ^ e.num)) := by
  have hlimit : ¬ (e.num.natAbs > exponentLimit ∨ e.den > exponentLimit) :=
    not_or.2 ⟨not_lt.2 hnum, not_lt.2 hden⟩
  rw [power, if_neg hlimit, if_neg hb]
  simp only [integerPower_eq]

theorem power_zero {e : ℚ} (hnum : e.num.natAbs ≤ exponentLimit) (hden : e.den ≤ exponentLimit) :
    power 0 e =
      if e < 0 then .error .zeroToNegativePower else .ok (some (if e = 0 then 1 else 0)) := by
  have hlimit : ¬ (e.num.natAbs > exponentLimit ∨ e.den > exponentLimit) :=
    not_or.2 ⟨not_lt.2 hnum, not_lt.2 hden⟩
  rw [power, if_neg hlimit, if_pos rfl]

/-- A power without an exact value: it is irrational or undefined, or its exponent is too large. -/
def Inexact (b e : ℚ) : Prop := ∀ r, power b e ≠ .ok (some r)

/-- One more in the exponent gives no exact value either, unless the exponent only just gets into
the limit. -/
theorem Inexact.add_one {e : ℚ} (hb : b ≠ 0) (h : Inexact b e) :
    Inexact b (e + 1) ∨ (e + 1).num < (e + 1).den - (exponentLimit : ℤ) := by
  have hden : (e + 1).den = e.den := Rat.add_natCast_den e 1
  have hnum : (e + 1).num = e.num + e.den := by
    have hcast : ((e + 1).num : ℚ) = e.num + e.den := by
      rw [← Rat.mul_den_eq_num, ← Rat.mul_den_eq_num e, hden, add_mul, one_mul]
    exact_mod_cast hcast
  by_contra hnot
  obtain ⟨hexact, hlow⟩ := not_or.1 hnot
  obtain ⟨r, hr⟩ := not_forall_not.1 hexact
  have hlimit : (e + 1).num.natAbs ≤ exponentLimit ∧ (e + 1).den ≤ exponentLimit := by
    by_contra hlimit
    rw [power, if_pos (by omega)] at hr
    cases hr
  rw [power_of_ne_zero hb hlimit.1 hlimit.2, hden] at hr
  obtain ⟨c, hc, -⟩ := Option.map_eq_some_iff.1 (Except.ok.inj hr)
  apply h (c ^ e.num)
  rw [power_of_ne_zero hb (by omega) (hden ▸ hlimit.2), hc, Option.map_some]

/--
Powers are exact and complete. Let `p / q` be in lowest terms, with both `p` and `q` in the limit.
If the base `b` is not zero, its power is the rational number whose `q`-th power is `b ^ p`, the
positive one if `q` is even, and it is left alone just where there is no such number. Zero has the
powers `1` and `0`, and no power with a negative exponent. Beyond the limit, all powers are left
alone.
-/
theorem power_exact_complete (b : ℚ) (hq : 0 < q) (hpq : p.natAbs.Coprime q) :
    (p.natAbs ≤ 65536 ∧ q ≤ 65536 → b ≠ 0 →
      (∀ r, power b (p / q) = .ok (some r) ↔ r ^ q = b ^ p ∧ (Even q → 0 < r)) ∧
        (power b (p / q) = .ok none ↔ ¬ ∃ r : ℚ, r ^ q = b ^ p)) ∧
    (p.natAbs ≤ 65536 ∧ q ≤ 65536 → b = 0 →
      (p = 0 → power b (p / q) = .ok (some 1)) ∧
        (0 < p → power b (p / q) = .ok (some 0)) ∧
        (p < 0 → power b (p / q) = .error .zeroToNegativePower)) ∧
    (65536 < p.natAbs ∨ 65536 < q → power b (p / q) = .ok none) := by
  have hq' : (0 : ℤ) < q := Int.natCast_pos.2 hq
  have hnum : (p / q : ℚ).num = p := Rat.num_div_eq_of_coprime hq' hpq
  have hden : (p / q : ℚ).den = q := by
    exact_mod_cast Rat.den_div_eq_of_coprime hq' hpq
  have hnum' : p.natAbs ≤ 65536 → (p / q : ℚ).num.natAbs ≤ exponentLimit := by
    rw [hnum]
    exact id
  have hden' : q ≤ 65536 → (p / q : ℚ).den ≤ exponentLimit := by
    rw [hden]
    exact id
  have hsign : (p / q : ℚ) < 0 ↔ p < 0 := by rw [← Rat.num_neg, hnum]
  refine ⟨fun ⟨hp, hq⟩ hb => ?_, fun ⟨hp, hq⟩ hb => ?_, fun hlimit => ?_⟩
  · rw [power_of_ne_zero hb (hnum' hp) (hden' hq), hnum, hden]
    simp only [Except.ok.injEq, Option.map_eq_none_iff]
    have hne : q ≠ 0 := by omega
    exact ⟨fun r => root?_map_zpow hb hne hpq, root?_eq_none_iff hb hne hpq⟩
  · have hzero : (p / q : ℚ) = 0 ↔ p = 0 := by rw [← Rat.num_eq_zero, hnum]
    rw [hb, power_zero (hnum' hp) (hden' hq)]
    simp only [hsign, hzero]
    refine ⟨?_, fun hpos => ?_, fun hneg => if_pos hneg⟩
    · rintro rfl
      rfl
    · rw [if_neg hpos.not_gt, if_neg hpos.ne']
  · rw [power, hnum, hden]
    exact if_pos hlimit

/-- The inverse square of the cube root of a negative number, which is rational here. -/
theorem power_inverseSquareOfCubeRoot :
    0 < 3 ∧ (-2 : ℤ).natAbs.Coprime 3 ∧
      power (-8 / 27) ((-2 : ℤ) / (3 : ℕ)) = .ok (some (9 / 4)) := by
  have hq : 0 < 3 := by decide
  have hpq : (-2 : ℤ).natAbs.Coprime 3 := by decide
  have hpower := (power_exact_complete (-8 / 27) hq hpq).1 (by decide) (by norm_num)
  exact ⟨hq, hpq, (hpower.1 (9 / 4)).2 ⟨by norm_num, by decide⟩⟩

end ExactAlgebra.Rational
