import Mathlib

/-!
Gauss–Jordan elimination on rational matrices: what the row operations keep, what it says of a
matrix that no pivot is found, and what is reached when every column has had one.
-/

/-- Square rational matrices. -/
abbrev RatMatrix (n : Nat) : Type := Matrix (Fin n) (Fin n) Rat

namespace RatMatrix

variable {n : Nat} {A L R : RatMatrix n} {i j : Fin n}

/-- The columns of a matrix up to column `c` are linearly dependent. -/
def ColumnsDependent (A : RatMatrix n) (c : Fin n) : Prop :=
  ¬ LinearIndependent Rat fun i : { i : Fin n // i ≤ c } => A.col i

theorem mulVec_eq_sum_le {c : Fin n} {w : Fin n → Rat} (hw : ∀ i, c < i → w i = 0) :
    A.mulVec w = ∑ i : { i : Fin n // i ≤ c }, w i • A.col i := by
  have hsub : ∑ i ∈ Finset.univ.filter (· ≤ c), w i • A.col i = ∑ i, w i • A.col i := by
    apply Finset.sum_subset (Finset.filter_subset _ _)
    intro i _ hi
    have hc : c < i := by simpa using hi
    rw [hw i hc, zero_smul]
  have hsum : ∑ i ∈ Finset.univ.filter (· ≤ c), w i • A.col i =
      ∑ i : { i : Fin n // i ≤ c }, w i • A.col i :=
    Finset.sum_subtype _ (by simp) _
  rw [← hsum, hsub]
  ext r
  simp only [Matrix.mulVec, dotProduct, Finset.sum_apply, Pi.smul_apply, smul_eq_mul,
    Matrix.col_apply, mul_comm]

/-- Dependencies between the columns up to `c` are vectors that the matrix takes to zero. -/
theorem columnsDependent_iff {c : Fin n} :
    A.ColumnsDependent c ↔ ∃ w : Fin n → Rat, w ≠ 0 ∧ (∀ i, c < i → w i = 0) ∧ A.mulVec w = 0 := by
  rw [ColumnsDependent, Fintype.linearIndependent_iff]
  push Not
  constructor
  · rintro ⟨f, hf, i, hi⟩
    have hw : ∀ i : { i : Fin n // i ≤ c }, (if h : (i : Fin n) ≤ c then f ⟨i, h⟩ else 0) = f i :=
      fun i => dif_pos i.2
    have hc : ∀ i, c < i → (if h : i ≤ c then f ⟨i, h⟩ else 0) = 0 :=
      fun i hi => dif_neg (not_le.2 hi)
    refine ⟨fun i => if h : i ≤ c then f ⟨i, h⟩ else 0, ?_, hc, ?_⟩
    · intro h0
      apply hi
      rw [← hw i]
      exact congrFun h0 i
    · rw [mulVec_eq_sum_le hc, ← hf]
      exact Finset.sum_congr rfl fun i _ => by rw [hw i]
  · rintro ⟨w, hw, hc, hA⟩
    obtain ⟨i, hi⟩ := Function.ne_iff.1 hw
    have hic : i ≤ c := by
      by_contra h
      exact hi (hc i (not_le.1 h))
    refine ⟨fun i => w i, ?_, ⟨i, hic⟩, hi⟩
    rw [← mulVec_eq_sum_le hc, hA]

/--
A matrix `L` that was reduced from `A`, with the product `R` of the row operations, up to column
`j`.
-/
structure Reduced (A L R : RatMatrix n) (j : Nat) : Prop where
  mul_eq : R * A = L
  det_ne_zero : R.det ≠ 0
  col_eq : ∀ c : Fin n, c < j → ∀ r, L r c = if r = c then 1 else 0

theorem Reduced.start (A : RatMatrix n) : Reduced A A 1 0 :=
  ⟨one_mul A, by rw [Matrix.det_one]; exact one_ne_zero, fun _ h => absurd h (Nat.not_lt_zero _)⟩

theorem Reduced.row_mul (h : Reduced A L R j) (i : Fin n) : Matrix.vecMul (R i) A = L i := by
  rw [← Matrix.mul_apply_eq_vecMul, h.mul_eq]

/-- Left of the current column, the rows from there on are zero. -/
theorem Reduced.eq_zero (h : Reduced A L R j) (hi : j ≤ i) {c : Fin n} (hc : c < j) :
    L i c = 0 := by
  rw [h.col_eq c hc, if_neg]
  rintro rfl
  exact absurd (hc.trans_le hi) (lt_irrefl _)

/-- A row is multiplied by a number. -/
theorem Reduced.scale (h : Reduced A L R j) {q : Rat} (hq : q ≠ 0) :
    Reduced A (L.updateRow j (q • L j)) (R.updateRow j (q • R j)) j := by
  refine ⟨?_, ?_, ?_⟩
  · rw [Matrix.updateRow_mul, h.mul_eq, Matrix.smul_vecMul, h.row_mul]
  · rw [Matrix.det_updateRow_smul, Matrix.updateRow_eq_self]
    exact mul_ne_zero hq h.det_ne_zero
  · intro c hc r
    by_cases hr : r = j
    · subst hr
      rw [Matrix.updateRow_self, Pi.smul_apply, h.eq_zero (le_refl _) hc, smul_zero, if_neg]
      rintro rfl
      exact absurd hc (lt_irrefl _)
    · rw [Matrix.updateRow_ne hr]
      exact h.col_eq c hc r

/-- A multiple of the current row is subtracted from another row. -/
theorem Reduced.subtract (h : Reduced A L R j) (hi : i ≠ j) (q : Rat) :
    Reduced A (L.updateRow i (L i - q • L j)) (R.updateRow i (R i - q • R j)) j := by
  refine ⟨?_, ?_, ?_⟩
  · rw [Matrix.updateRow_mul, h.mul_eq, Matrix.sub_vecMul, Matrix.smul_vecMul, h.row_mul,
      h.row_mul]
  · rw [sub_eq_add_neg, ← neg_smul, Matrix.det_updateRow_add_smul_self R hi]
    exact h.det_ne_zero
  · intro c hc r
    by_cases hr : r = i
    · subst hr
      rw [Matrix.updateRow_self, Pi.sub_apply, Pi.smul_apply, h.eq_zero (le_refl _) hc, smul_zero,
        sub_zero]
      exact h.col_eq c hc r
    · rw [Matrix.updateRow_ne hr]
      exact h.col_eq c hc r

/-- The current row changes places with a later one. -/
theorem Reduced.swap (h : Reduced A L R j) (hi : j ≤ i) :
    Reduced A (L.submatrix (Equiv.swap j i) id) (R.submatrix (Equiv.swap j i) id) j := by
  refine ⟨?_, ?_, ?_⟩
  · rw [← h.mul_eq]
    rfl
  · rw [Matrix.det_permute]
    refine mul_ne_zero ?_ h.det_ne_zero
    exact_mod_cast (Equiv.Perm.sign (Equiv.swap j i)).ne_zero
  · intro c hc r
    rw [Matrix.submatrix_apply, id]
    by_cases hrj : r = j
    · subst hrj
      rw [Equiv.swap_apply_left, h.eq_zero hi hc, if_neg]
      rintro rfl
      exact absurd hc (lt_irrefl _)
    by_cases hri : r = i
    · subst hri
      rw [Equiv.swap_apply_right, h.eq_zero (le_refl _) hc, if_neg]
      rintro rfl
      exact absurd (hc.trans_le hi) (lt_irrefl _)
    · rw [Equiv.swap_apply_of_ne_of_ne hrj hri]
      exact h.col_eq c hc r

theorem Reduced.next (h : Reduced A L R j) (hj : ∀ r, L r j = if r = j then 1 else 0) :
    Reduced A L R (j + 1) := by
  refine ⟨h.mul_eq, h.det_ne_zero, fun c hc r => ?_⟩
  rcases Nat.lt_succ_iff_lt_or_eq.1 hc with hc | hc
  · exact h.col_eq c hc r
  · rw [Fin.ext hc]
    exact hj r

/--
The current column has its pivot, and among the rows `done` the other entries in it are zero.
-/
structure Cleared (A L R : RatMatrix n) (j : Fin n) (done : List (Fin n)) : Prop where
  reduced : Reduced A L R j
  pivot_eq : L j j = 1
  eq_zero : ∀ r ∈ done, r ≠ j → L r j = 0

theorem Reduced.cleared (h : Reduced A L R j) (hj : L j j ≠ 0) :
    Cleared A (L.updateRow j ((L j j)⁻¹ • L j)) (R.updateRow j ((L j j)⁻¹ • R j)) j [] := by
  refine ⟨h.scale (inv_ne_zero hj), ?_, fun r hr => absurd hr List.not_mem_nil⟩
  rw [Matrix.updateRow_self, Pi.smul_apply, smul_eq_mul, inv_mul_cancel₀ hj]

/-- A row that needs no change counts as done. -/
theorem Cleared.skip {done : List (Fin n)} (h : Cleared A L R j done) (hi : i ≠ j → L i j = 0) :
    Cleared A L R j (done ++ [i]) := by
  refine ⟨h.reduced, h.pivot_eq, fun r hr hrj => ?_⟩
  rcases List.mem_append.1 hr with hr | hr
  · exact h.eq_zero r hr hrj
  · obtain rfl := List.mem_singleton.1 hr
    exact hi hrj

theorem Cleared.clear {done : List (Fin n)} (h : Cleared A L R j done) (hi : i ≠ j) :
    Cleared A (L.updateRow i (L i - L i j • L j)) (R.updateRow i (R i - L i j • R j)) j
      (done ++ [i]) := by
  refine ⟨h.reduced.subtract hi _, ?_, fun r hr hrj => ?_⟩
  · rw [Matrix.updateRow_ne hi.symm, h.pivot_eq]
  · by_cases hri : r = i
    · subst hri
      rw [Matrix.updateRow_self, Pi.sub_apply, Pi.smul_apply, smul_eq_mul, h.pivot_eq, mul_one,
        sub_self]
    · rw [Matrix.updateRow_ne hri]
      rcases List.mem_append.1 hr with hr | hr
      · exact h.eq_zero r hr hrj
      · exact absurd (List.mem_singleton.1 hr) hri

theorem Cleared.next (h : Cleared A L R j (List.finRange n)) : Reduced A L R (j + 1) := by
  apply h.reduced.next
  intro r
  by_cases hr : r = j
  · rw [if_pos hr, hr, h.pivot_eq]
  · rw [if_neg hr, h.eq_zero r (List.mem_finRange r) hr]

/-- When every column has had a pivot, the row operations make up the inverse. -/
theorem Reduced.inverse (h : Reduced A L R n) : A * R = 1 ∧ R * A = 1 := by
  have hL : L = 1 := by
    ext r c
    rw [h.col_eq c c.2, Matrix.one_apply]
  have hR : R * A = 1 := h.mul_eq.trans hL
  exact ⟨mul_eq_one_comm.1 hR, hR⟩

theorem Reduced.mulVec_eq_zero (h : Reduced A L R j) {w : Fin n → Rat} :
    A.mulVec w = 0 ↔ L.mulVec w = 0 := by
  rw [← h.mul_eq, ← Matrix.mulVec_mulVec]
  constructor
  · intro hA
    rw [hA, Matrix.mulVec_zero]
  · intro hR
    by_contra hA
    exact h.det_ne_zero (Matrix.exists_mulVec_eq_zero_iff.1 ⟨_, hA, hR⟩)

/-- A column without a pivot is made of the unit columns before it. -/
theorem Reduced.columnsDependent (h : Reduced A L R j) (hj : ∀ i, j ≤ i → L i j = 0) :
    A.ColumnsDependent j := by
  apply columnsDependent_iff.2
  refine ⟨fun i => if i < j then - L i j else if i = j then 1 else 0, ?_, ?_, ?_⟩
  · intro h0
    have hone := congrFun h0 j
    simp at hone
  · intro i hi
    simp [hi.ne', hi.le]
  · rw [h.mulVec_eq_zero]
    ext r
    have hterm : ∀ i, L r i * (if i < j then - L i j else if i = j then 1 else 0) =
        (if r = i then if r < j then - L r j else 0 else 0) + if i = j then L r j else 0 := by
      intro i
      rcases lt_trichotomy i j with hi | rfl | hi
      · rw [if_pos hi, h.col_eq i hi, if_neg hi.ne, add_zero]
        by_cases hr : r = i
        · rw [if_pos hr, if_pos hr, hr, if_pos hi, one_mul]
        · rw [if_neg hr, if_neg hr, zero_mul]
      · rw [if_neg (lt_irrefl i), if_pos rfl, if_pos rfl, mul_one]
        by_cases hr : r = i
        · rw [if_pos hr, hr, if_neg (lt_irrefl i), zero_add]
        · rw [if_neg hr, zero_add]
      · rw [if_neg hi.not_gt, if_neg hi.ne', mul_zero, if_neg hi.ne', add_zero]
        by_cases hr : r = i
        · rw [if_pos hr, hr, if_neg hi.not_gt]
        · rw [if_neg hr]
    simp only [Matrix.mulVec, dotProduct, hterm, Finset.sum_add_distrib, Finset.sum_ite_eq,
      Finset.sum_ite_eq', Finset.mem_univ, if_true, Pi.zero_apply]
    by_cases hr : r < j
    · rw [if_pos hr, neg_add_cancel]
    · rw [if_neg hr, hj r (not_lt.1 hr), zero_add]

/-- Of the columns that are reduced none depends on those before it. -/
theorem Reduced.le_of_columnsDependent {c : Fin n} (h : Reduced A L R j)
    (hc : A.ColumnsDependent c) : j ≤ c := by
  obtain ⟨w, hw, hw0, hA⟩ := columnsDependent_iff.1 hc
  by_contra hlt
  have hlt : c < j := not_le.1 hlt
  apply hw
  ext i
  by_cases hi : c < i
  · exact hw0 i hi
  · have hterm : ∀ k, L i k * w k = if i = k then w i else 0 := by
      intro k
      by_cases hk : c < k
      · rw [hw0 k hk, mul_zero, if_neg]
        rintro rfl
        exact hi hk
      · rw [h.col_eq k ((not_lt.1 hk).trans_lt hlt)]
        by_cases hik : i = k
        · rw [if_pos hik, if_pos hik, one_mul, hik]
        · rw [if_neg hik, if_neg hik, zero_mul]
    have hL := congrFun (h.mulVec_eq_zero.1 hA) i
    simpa only [Matrix.mulVec, dotProduct, hterm, Finset.sum_ite_eq, Finset.mem_univ, if_true,
      Pi.zero_apply] using hL

/-- If there is no pivot in a column, it is the first that depends on those before it. -/
theorem Reduced.isLeast_dependent (h : Reduced A L R j) (hj : ∀ i, j ≤ i → L i j = 0) :
    IsLeast { c | A.ColumnsDependent c } j :=
  ⟨h.columnsDependent hj, fun _ hc => h.le_of_columnsDependent hc⟩

/-- A matrix with dependent columns has determinant zero. -/
theorem det_eq_zero_of_columnsDependent {c : Fin n} (h : A.ColumnsDependent c) : A.det = 0 := by
  obtain ⟨w, hw, -, hA⟩ := columnsDependent_iff.1 h
  exact Matrix.exists_mulVec_eq_zero_iff.1 ⟨w, hw, hA⟩

theorem det_ne_zero_of_mul_eq_one {B : RatMatrix n} (h : A * B = 1) : A.det ≠ 0 := by
  intro h0
  have hdet := congrArg Matrix.det h
  rw [Matrix.det_mul, h0, zero_mul, Matrix.det_one] at hdet
  exact zero_ne_one hdet

end RatMatrix
