import ExactAlgebra.Proofs.Matrix.Ending

/-!
Powers of square matrices. The exponents `1` and `-1` have one; any other is refused, a negative one
once the matrix has been inverted and by the opposite exponent, for a negative power is a power of
the inverse. Only the least exponent, which is its own opposite, has the matrix inverted for as long
as depth lasts.
-/

namespace ExactAlgebra

/-- Every exponent but the least one has an opposite. -/
theorem toInt_neg_of_ne_minValue {k : Int64} (hk : k ≠ .minValue) : (-k).toInt = -k.toInt := by
  have hlow := k.le_toInt
  have hhigh := k.toInt_lt
  have hne : k.toInt ≠ -2 ^ 63 := fun h =>
    hk (Int64.toInt_inj.1 (h.trans Int64.toInt_minValue.symm))
  rw [Int64.toInt_neg, Int.bmod_eq_of_le (by omega) (by omega)]

namespace Matrix

variable {library : Library} {depth : Nat} {m m' : Matrix} {k : Int64} {ws ws' : Workspace}

/-- What is left of a power once the matrix has been inverted. -/
def afterInversion (k : Int64) : EStateM.Result Error Workspace Matrix →
    EStateM.Result Error Workspace Matrix
  | .ok m ws => if k = -1 then .ok m ws else .error (.unsupportedExponent (-k.toInt)) ws
  | .error e ws => .error e ws

theorem isSquare_inverse (h : m.inverse library depth ws = .ok m' ws') : m'.isSquare := by
  by_cases hm : m.rows = m.cols
  · rw [inverse, dif_pos hm] at h
    simp only [bind, EStateM.bind] at h
    split at h
    · cases h
      exact beq_self_eq_true _
    · cases h
  · rw [inverse, dif_neg hm] at h
    cases h

/-- A first round, in which the matrix is inverted if the exponent is negative. -/
theorem powerWithin_succ (hm : m.isSquare) (rounds : Nat) (k : Int64) :
    powerWithin library depth (rounds + 1) m k ws =
      if k = 1 then .ok m ws
      else if k < 0 then (do powerWithin library depth rounds (← m.inverse library depth) (-k)) ws
      else .error (.unsupportedExponent k.toInt) ws := by
  simp only [powerWithin, hm, Bool.not_true, Bool.false_eq_true, if_false]
  by_cases h1 : k = 1
  · simp only [if_pos h1]
    rfl
  · simp only [if_neg h1]
    by_cases h0 : k < 0
    · simp only [if_pos h0]
    · simp only [if_neg h0]
      rfl

theorem power_nonneg (hd : 1 ≤ depth) (hm : m.isSquare) (hk : 0 ≤ k) :
    m.power library depth k ws =
      if k = 1 then .ok m ws else .error (.unsupportedExponent k.toInt) ws := by
  obtain ⟨rounds, rfl⟩ := Nat.exists_eq_add_of_le' hd
  rw [power, powerWithin_succ hm, if_neg (Int64.not_lt.2 hk)]

/-- A negative power takes one inversion. -/
theorem power_negative (hd : 2 ≤ depth) (hm : m.isSquare) (hk : k < 0) (hmin : k ≠ .minValue) :
    m.power library depth k ws = afterInversion k (m.inverse library depth ws) := by
  obtain ⟨rounds, rfl⟩ := Nat.exists_eq_add_of_le' hd
  have hneg := toInt_neg_of_ne_minValue hmin
  have hk' : k.toInt < 0 := Int64.lt_iff_toInt_lt.1 hk
  have hne : k ≠ 1 := by
    rintro rfl
    exact absurd hk (by decide)
  have hpos : ¬ -k < 0 := by
    rw [Int64.lt_iff_toInt_lt, hneg, Int64.toInt_zero]
    omega
  have hone : -k = 1 ↔ k = -1 := by
    rw [← Int64.neg_inj, Int64.neg_neg]
  rw [power, powerWithin_succ hm, if_neg hne, if_pos hk]
  simp only [bind, EStateM.bind]
  cases he : m.inverse library (rounds + 2) ws with
  | error e ws' => rfl
  | ok m' ws' =>
    simp only [powerWithin_succ (isSquare_inverse he), if_neg hpos, hone, hneg, afterInversion]

/-- The least exponent is not nearer to `1` after an inversion than before it, so that there is never
a power. -/
theorem powerWithin_least_ne_ok (hm : m.isSquare) (rounds : Nat) :
    powerWithin library depth rounds m .minValue ws ≠ .ok m' ws' := by
  induction rounds generalizing m ws with
  | zero => rintro ⟨⟩
  | succ rounds ih =>
    have hmin : -Int64.minValue = .minValue := by decide
    rw [powerWithin_succ hm, if_neg (by decide), if_pos (by decide), hmin]
    simp only [bind, EStateM.bind]
    cases he : m.inverse library depth ws with
    | error e ws' => rintro ⟨⟩
    | ok m₁ ws₁ => exact ih (isSquare_inverse he)

/--
The power of a square matrix. The matrix itself is the power `1`. A negative power takes one
inversion, and fails if that fails; then there is the power `-1`, and the others are refused by the
opposite exponent. All other exponents are refused at once. Where all entries are elementary, some
depth is enough for this to end.
-/
theorem power_outcome (hm : m.isSquare) (hk : k ≠ .minValue) :
    (∀ (library : Library) (depth : Nat) (ws : Workspace), 2 ≤ depth →
      m.power library depth k ws =
        if k = 1 then .ok m ws
        else if 0 ≤ k then .error (.unsupportedExponent k.toInt) ws
        else afterInversion k (m.inverse library depth ws)) ∧
      ∀ (library : Library) (g : Graph), library.Changing Graph.Develops → g.WellFormed →
        m.Elementary library g → ∃ N, ∀ ws : Workspace, m.graph < ws.graphs.size →
          ws.graph m.graph = g → ∀ depth, N ≤ depth → ∀ e ws',
            m.power library depth k ws = .error e ws' → e ≠ .depthExhausted := by
  constructor
  · intro library depth ws hd
    by_cases h0 : 0 ≤ k
    · rw [power_nonneg (Nat.le_of_succ_le hd) hm h0]
      simp only [if_pos h0]
    · have hlt := Int64.not_le.1 h0
      have h1 : k ≠ 1 := by
        rintro rfl
        exact h0 (by decide)
      rw [power_negative hd hm hlt hk, if_neg h1, if_neg h0]
  · intro library g hlib hg hel
    obtain ⟨N, hN⟩ := exists_depth_inverse hlib m hg hel
    refine ⟨max 2 N, fun ws hws hgraph depth hd e ws' he => ?_⟩
    have hd' : 2 ≤ depth := le_of_max_le_left hd
    by_cases h0 : 0 ≤ k
    · rw [power_nonneg (Nat.le_of_succ_le hd') hm h0] at he
      split at he
      · cases he
      · cases he
        rintro ⟨⟩
    · rw [power_negative hd' hm (Int64.not_le.1 h0) hk] at he
      cases hi : m.inverse library depth ws with
      | error e' ws'' =>
        rw [hi] at he
        cases he
        exact hN ws hws hgraph depth (le_of_max_le_right hd) _ _ hi
      | ok m' ws'' =>
        rw [hi, afterInversion] at he
        split at he
        · cases he
        · cases he
          rintro ⟨⟩

/-- The matrix of one row and one column that holds `1`. -/
def unit : Matrix := ⟨0, 1, 1, .ofFn fun _ _ => .node 0 Graph.one⟩

theorem power_outcome_unit :
    unit.isSquare ∧ (-1 : Int64) ≠ .minValue ∧
      unit.power .silent 2 (-1) {} = afterInversion (-1) (unit.inverse .silent 2 {}) ∧
      ∃ N, ∀ depth, N ≤ depth → ∀ e ws', unit.power .silent depth (-1) {} = .error e ws' →
        e ≠ .depthExhausted := by
  have hlib : Library.silent.Changing Graph.Develops := by
    rintro f accepts run ⟨⟩ xs g hg
    exact ⟨hg, .refl g⟩
  have hm : unit.Elementary .silent (Workspace.graph {} 0) := by
    intro i j
    exact ⟨Graph.one, Grid.get_ofFn _ i j, Graph.empty_wellFormed.elementary_one⟩
  obtain ⟨heq, hends⟩ := power_outcome (m := unit) (k := -1) rfl (by decide)
  obtain ⟨N, hN⟩ := hends .silent _ hlib Graph.empty_wellFormed hm
  exact ⟨rfl, by decide, heq .silent 2 {} (Nat.le_refl 2), N, hN {} (by decide) rfl⟩

/-- Of the power `-2` it is not `-2` that is refused. -/
theorem power_refuses_opposite :
    ∃ ws, unit.power .silent 2 (-2) {} = .error (.unsupportedExponent 2) ws ∧
      ¬ ∃ ws', unit.power .silent 2 (-2) {} = .error (.unsupportedExponent (-2)) ws' := by
  have hfail : (match unit.power .silent 2 (-2) {} with
      | .ok _ _ => none
      | .error e _ => some e) = some (.unsupportedExponent 2) := by cbv
  cases he : unit.power .silent 2 (-2) {} with
  | ok m ws =>
    rw [he] at hfail
    cases hfail
  | error e ws =>
    rw [he] at hfail
    obtain rfl : e = .unsupportedExponent 2 := Option.some.inj hfail
    refine ⟨ws, rfl, ?_⟩
    rintro ⟨ws', h⟩
    cases h

end Matrix

end ExactAlgebra
