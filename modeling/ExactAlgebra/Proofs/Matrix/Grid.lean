import ExactAlgebra.Matrix.Grid
import Mathlib.Logic.Equiv.Basic
import Mathlib.Tactic

/-!
The entries of grids that were computed, changed or rearranged.
-/

namespace ExactAlgebra

variable {rows cols n : Nat} {α β ε σ : Type}

/-- A computation ends with an outcome in `Q` or with an error in `F`. -/
def Ends (m : EStateM ε σ α) (s : σ) (Q : α → σ → Prop) (F : ε → σ → Prop) : Prop :=
  match m s with
  | .ok a s' => Q a s'
  | .error e s' => F e s'

theorem Ends.bind {m : EStateM ε σ α} {f : α → EStateM ε σ β} {s : σ} {Q : α → σ → Prop}
    {R : β → σ → Prop} {F : ε → σ → Prop} (hm : Ends m s Q F)
    (hf : ∀ a s', Q a s' → Ends (f a) s' R F) : Ends (m >>= f) s R F := by
  unfold Ends at hm ⊢
  simp only [Bind.bind, EStateM.bind]
  cases he : m s with
  | error e s' =>
    rw [he] at hm
    exact hm
  | ok a s' =>
    rw [he] at hm
    exact hf a s' hm

theorem Ends.mono {m : EStateM ε σ α} {s : σ} {Q Q' : α → σ → Prop} {F : ε → σ → Prop}
    (hm : Ends m s Q F) (h : ∀ a s', Q a s' → Q' a s') : Ends m s Q' F := by
  unfold Ends at hm ⊢
  cases he : m s with
  | error e s' =>
    rw [he] at hm
    exact hm
  | ok a s' =>
    rw [he] at hm
    exact h a s' hm

namespace Grid

theorem get_ofFn (f : Fin rows → Fin cols → α) (i : Fin rows) (j : Fin cols) :
    (ofFn f).get i j = f i j := by
  simp [ofFn, get]

theorem ofFn_get (m : Grid rows cols α) : (ofFn fun i j => m.get i j) = m := by
  obtain ⟨columns⟩ := m
  simp only [ofFn, get, Fin.getElem_fin, Grid.mk.injEq]
  ext i hi j hj
  simp

theorem get_map (f : α → β) (m : Grid rows cols α) (i : Fin rows) (j : Fin cols) :
    (m.map f).get i j = f (m.get i j) := by
  simp [map, get]

theorem get_set_self (m : Grid rows cols α) (i : Fin rows) (j : Fin cols) (a : α) :
    (m.set i j a).get i j = a := by
  simp [set, get]

theorem get_set_ne (m : Grid rows cols α) {i i' : Fin rows} {j j' : Fin cols} (a : α)
    (h : ¬ (i' = i ∧ j' = j)) : (m.set i j a).get i' j' = m.get i' j' := by
  by_cases hj : j' = j
  · subst hj
    have hi : (i : Nat) ≠ i' := fun he => h ⟨Fin.ext he.symm, rfl⟩
    simp [set, get, Vector.getElem_set_ne _ _ hi]
  · have hj : (j : Nat) ≠ j' := fun he => hj (Fin.ext he.symm)
    simp [set, get, Vector.getElem_set_ne _ _ hj]

theorem get_swapRows (m : Grid rows cols α) (i i' r : Fin rows) (c : Fin cols) :
    (m.swapRows i i').get r c = m.get (Equiv.swap i i' r) c := by
  simp only [swapRows, get, Fin.getElem_fin, Vector.getElem_map, Vector.getElem_swap,
    Equiv.swap_apply_def, ← Fin.ext_iff]
  split_ifs <;> rfl

/-! ### Entries computed one after another -/

/--
If each computation ends with its result in `R`, which lasts while the state changes as in `S`, then
all results are in `R` at the end.
-/
theorem ofFnM_ends {f : Fin n → EStateM ε σ α} {I : σ → Prop} {S : σ → σ → Prop}
    {R : Fin n → α → σ → Prop} {F : ε → σ → Prop} (hrefl : ∀ s, S s s)
    (htrans : ∀ {s s' s''}, S s s' → S s' s'' → S s s'')
    (hR : ∀ {i a s s'}, S s s' → R i a s → R i a s')
    (hf : ∀ i s, I s → Ends (f i) s (fun a s' => I s' ∧ S s s' ∧ R i a s') F) {s : σ}
    (hs : I s) :
    Ends (Vector.ofFnM f) s (fun v s' => I s' ∧ S s s' ∧ ∀ i, R i (v.get i) s') F := by
  induction n with
  | zero =>
    rw [Vector.ofFnM_zero]
    exact ⟨hs, hrefl s, fun i => i.elim0⟩
  | succ n ih =>
    rw [Vector.ofFnM_succ]
    apply (ih (R := fun i => R i.castSucc) hR fun i => hf i.castSucc).bind
    rintro v s₁ ⟨hs₁, hS₁, hv⟩
    apply (hf (Fin.last n) s₁ hs₁).bind
    rintro a s₂ ⟨hs₂, hS₂, ha⟩
    refine ⟨hs₂, htrans hS₁ hS₂, fun i => ?_⟩
    cases i using Fin.lastCases with
    | last =>
      have hget : (v.push a).get (Fin.last n) = a := Vector.getElem_push_eq
      rw [hget]
      exact ha
    | cast i =>
      have hget : (v.push a).get i.castSucc = v.get i := Vector.getElem_push_lt i.isLt
      rw [hget]
      exact hR hS₂ (hv i)

/-- What is found out about the entries, one after another, is known of all in the end. -/
theorem generate_ends {f : Fin rows → Fin cols → EStateM ε σ α} {I : σ → Prop}
    {R : Fin rows → Fin cols → α → σ → Prop} {F : ε → σ → Prop}
    (hf : ∀ i j s, I s → Ends (f i j) s
      (fun a s' => I s' ∧ (∀ r c b, R r c b s → R r c b s') ∧ R i j a s') F)
    {s : σ} (hs : I s) :
    Ends (generate f) s (fun m s' => I s' ∧ ∀ i j, R i j (m.get i j) s') F := by
  have hcolumn : ∀ j s, I s → Ends (Vector.ofFnM fun i => f i j) s
      (fun v s' => I s' ∧ (∀ r c b, R r c b s → R r c b s') ∧ ∀ i, R i j (v.get i) s') F :=
    fun j s hs => ofFnM_ends (fun _ _ _ _ h => h) (fun h h' r c b hb => h' r c b (h r c b hb))
      (fun hS h => hS _ _ _ h) (fun i => hf i j) hs
  have hcolumns := ofFnM_ends (R := fun j (v : Vector α rows) s => ∀ i, R i j (v.get i) s)
    (fun _ _ _ _ h => h) (fun h h' r c b hb => h' r c b (h r c b hb))
    (fun hS h i => hS _ _ _ (h i)) hcolumn hs
  apply hcolumns.bind
  rintro v s' ⟨hs', -, hv⟩
  exact ⟨hs', fun i j => hv j i⟩

/-- What the computation of each entry keeps is kept by the computation of all. -/
theorem generate_keeps {f : Fin rows → Fin cols → EStateM ε σ α} {I : σ → Prop}
    (hf : ∀ i j s a s', I s → f i j s = .ok a s' → I s') {s s' : σ} {m : Grid rows cols α}
    (hs : I s) (hm : generate f s = .ok m s') : I s' := by
  have hends := generate_ends (f := f) (I := I) (R := fun _ _ _ _ => True) (F := fun _ _ => True)
    (fun i j s hs => by
      unfold Ends
      cases he : f i j s with
      | error e s' => trivial
      | ok a s' => exact ⟨hf i j s a s' hs he, fun _ _ _ h => h, trivial⟩) hs
  rw [Ends, hm] at hends
  exact hends.1

theorem ofFnM_eq_ok {f : Fin n → EStateM ε σ α} {a : Fin n → α} {I : σ → Prop}
    (hf : ∀ i s, I s → ∃ s', f i s = .ok (a i) s' ∧ I s') {s : σ} (hs : I s) :
    ∃ s', Vector.ofFnM f s = .ok (Vector.ofFn a) s' ∧ I s' := by
  induction n with
  | zero =>
    rw [Vector.ofFnM_zero]
    exact ⟨s, rfl, hs⟩
  | succ n ih =>
    obtain ⟨s₁, hinit, hs₁⟩ := ih fun i => hf i.castSucc
    obtain ⟨s₂, hlast, hs₂⟩ := hf (Fin.last n) s₁ hs₁
    rw [Vector.ofFnM_succ, Vector.ofFn_succ]
    simp only [bind, EStateM.bind, hinit, hlast]
    exact ⟨s₂, rfl, hs₂⟩

theorem generate_eq_ok {f : Fin rows → Fin cols → EStateM ε σ α} {m : Grid rows cols α}
    {I : σ → Prop} (hf : ∀ i j s, I s → ∃ s', f i j s = .ok (m.get i j) s' ∧ I s') {s : σ}
    (hs : I s) : ∃ s', generate f s = .ok m s' ∧ I s' := by
  obtain ⟨s', hv, hs'⟩ := ofFnM_eq_ok (fun j s hs => ofFnM_eq_ok (fun i => hf i j) hs) hs
  refine ⟨s', ?_, hs'⟩
  have hm : (⟨Vector.ofFn fun j => Vector.ofFn fun i => m.get i j⟩ : Grid rows cols α) = m :=
    ofFn_get m
  simp only [generate, bind, EStateM.bind, hv]
  exact congrArg (EStateM.Result.ok · s') hm

end Grid

end ExactAlgebra
