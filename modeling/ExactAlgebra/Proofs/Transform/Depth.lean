import ExactAlgebra.Proofs.Transform.Contract

/-!
How deep questions lie inside one another. Each of the nodes around a question is being transformed,
and is entered once; so a run that asks for a given set of nodes only needs no more depth than there
are nodes in it.
-/

namespace ExactAlgebra

variable {τ : Type} {c : Contract} {depth n : Nat} {m m' : Memo} {x : NodeId}

namespace Memo

/-- How many of the first `n` nodes are being transformed. -/
def pending (m : Memo) (n : Nat) : Nat :=
  ((Finset.range n).filter fun i => m.mark? i = some .inProgress).card

theorem pending_le (m : Memo) (n : Nat) : m.pending n ≤ n :=
  (Finset.card_filter_le _ _).trans_eq (Finset.card_range n)

theorem pending_congr (h : ∀ i, m'.mark? i = some .inProgress ↔ m.mark? i = some .inProgress)
    (n : Nat) : m'.pending n = m.pending n := by
  simp only [pending, h]

theorem pending_enter (hx : x < n) (hm : m.mark? x = none) :
    (m.enter x).pending n = m.pending n + 1 := by
  have hset : ((Finset.range n).filter fun i => (m.enter x).mark? i = some .inProgress) =
      insert x ((Finset.range n).filter fun i => m.mark? i = some .inProgress) := by
    ext i
    simp only [Finset.mem_filter, Finset.mem_insert, Finset.mem_range, mark?_enter]
    by_cases he : x = i
    · subst he
      simp only [if_true, and_true, true_or, iff_true]
      exact hx
    · simp only [if_neg he, Ne.symm he, false_or]
  rw [pending, hset, Finset.card_insert_of_notMem, pending]
  simp [hm]

end Memo

/-- With more depth than there are nodes left to enter, a run has some left at every question. -/
theorem Rules.replies_deep (rules : Rules τ) (hcycle : ∀ x, rules.onCycle x = pure x)
    (hn : ∀ depth g x, c.Asks depth g x → x < n)
    (hrules : ∀ depth x g, g.WellFormed → depth ≠ 0 → c.Asks (depth + 1) g x → x < g.size →
      (rules.transform x).Meets c depth x g (c.Settles x)) (depth : Nat) (m₀ : Memo)
    (hdepth : n < depth + m₀.pending n) : RepliesWithin c depth m₀ (rules.apply depth) := by
  induction depth generalizing m₀ with
  | zero =>
    have hle := m₀.pending_le n
    omega
  | succ depth ih =>
    intro x g m log hg hm hmarks hx hl
    apply rules.outcome_apply hcycle hg hm hx hl
    intro hmark hlt
    have hpending : (m.enter x).pending n = m₀.pending n + 1 := by
      rw [Memo.pending_enter (hn _ _ _ hx) hmark, Memo.pending_congr hmarks]
    have hle := (m.enter x).pending_le n
    have hstep := hrules depth x g hg (by omega) hx hlt log
    exact hstep.run hg (ih (m.enter x) (by omega)) (hm.enter x) (hl.around_enter hlt)
      fun _ => Iff.rfl

end ExactAlgebra
