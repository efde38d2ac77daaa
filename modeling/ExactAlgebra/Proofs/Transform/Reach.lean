import ExactAlgebra.Proofs.Graph.Reach
import ExactAlgebra.Proofs.Transform.Depth
import ExactAlgebra.Proofs.Transform.Substitution

/-!
Substitution leads to expressions made of what the expression and the replacements are made of,
self-referential nodes included. It never runs out of depth, since it asks for nodes only that were
there at the start.
-/

namespace ExactAlgebra

open ExactAlgebra.Graph (Meets Overflow Vocabulary)

variable {V : Vocabulary} {s : Substitution} {g g' g₀ : Graph} {depth : Nat} {x y : NodeId}

namespace Substitution

/-- The replacements are made of a vocabulary. -/
def MadeOf (V : Vocabulary) (g : Graph) (s : Substitution) : Prop := ∀ p ∈ s, g.MadeOf V p.2

theorem MadeOf.grow (h : s.MadeOf V g) (hx : g.Extends g') : s.MadeOf V g' :=
  fun p hp => hx.madeOf (h p hp)

/-- Nodes of `g₀` that are made of a vocabulary are taken to nodes made of it. -/
def staying (V : Vocabulary) (s : Substitution) (g₀ : Graph) : Contract where
  Frame := Graph.GrowsTo
  Asks depth g x := depth ≠ 0 ∧ g₀.Extends g ∧ x < g₀.size ∧ s.MadeOf V g ∧ g.MadeOf V x
  Answers g _ y := g.MadeOf V y
  Below g _ x := g.MadeOf V x
  Fails := Overflow
  frame_refl := .refl
  frame_of_growsTo _ h := h
  frame_trans h h' := h.trans h'
  frame_lt_size h hx := h.lt_size hx
  answers_frame _ hf _ _ h := hf.madeOf h
  below_frame _ hf _ _ h := hf.madeOf h
  below_trans _ h := h
  answers_self _ h := h
  fails_outside h hx := absurd (h.2.1.lt_size h.2.2.1) hx
  fails_exhausted h := absurd rfl h.1

theorem staying_settles (hy : g.MadeOf V y) : (staying V s g₀).Settles x (some y) g :=
  (staying V s g₀).settles_of_answers hy.lt_size hy

theorem transform_stays (hg₀ : g₀.WellFormed) (hg : g.WellFormed) (hd : depth ≠ 0)
    (hext : g₀.Extends g) (hlt : x < g₀.size) (hs : s.MadeOf V g) (hx : g.MadeOf V x) :
    (s.rules.transform x).Meets (staying V s g₀) depth x g ((staying V s g₀).Settles x) := by
  have hoperands : (do return some (← Dialogue.operands x) : Dialogue (Pass Unit) _).Meets
      (staying V s g₀) depth x g ((staying V s g₀).Settles x) := by
    have hq : (Dialogue.operands x : Dialogue (Pass Unit) NodeId).Meets (staying V s g₀) depth x g
        fun y g' => g'.MadeOf V y := by
      apply Dialogue.Meets.operands hg
      · intro g' _ hf y hy
        have hy' := hf.madeOf (hx.operands y hy)
        rw [hext.operands_eq hlt] at hy
        have hylt := hg₀.operands_lt_size x y hy
        exact ⟨⟨hd, hext.trans hf.toExtends, hylt, hs.grow hf.toExtends, hy'⟩, fun _ => hy'⟩
      · intro ys g' hg' hf hys
        have hx' := hf.madeOf hx
        apply Graph.Meets.ite
        · exact fun _ => .pure hg' hx'
        intro _
        have harity : (g'.shape x).Allows ys.length := by
          rw [← hys.length_eq, ← hf.operands_eq hx.lt_size]
          exact hg'.arity x
        have hall : ∀ y ∈ ys, g'.MadeOf V y := by
          intro y hy
          obtain ⟨x, -, h⟩ := Graph.exists_of_forall₂ hys hy
          exact h.2.2
        exact Graph.withOperands_made hg' hx' hall harity
    exact hq.bind fun y g' hg' _ hy => .pure hg' (staying_settles hy)
  simp only [rules]
  cases hv : s.value? x with
  | some y => exact .pure hg (staying_settles (hs _ (mem_of_value? hv)))
  | none =>
    apply Dialogue.Meets.graph
    cases g.shape x with
    | constant | symbol => exact .pure hg (staying_settles hx)
    | _ => exact hoperands

end Substitution

/-- Substitution keeps a contract that asks only for nodes that are there at the start. -/
theorem Graph.substitute_answers_within {c : Contract} (hg : g.WellFormed)
    (hframe : ∀ g', c.Frame g g' → g.GrowsTo g')
    (hin : ∀ depth g' x, c.Asks depth g' x → x < g.size)
    (hrules : ∀ depth x g', g'.WellFormed → depth ≠ 0 → c.Asks (depth + 1) g' x → x < g'.size →
      (s.rules.transform x).Meets c depth x g' (c.Settles x))
    (hx : c.Asks g.substitutionDepth g x) (hnil : s = [] → c.Answers g x x) :
    Meets c.Fails (substitute s x) g fun y g' => c.Answers g' x y := by
  have hdepth : g.size < g.substitutionDepth + Memo.pending {} g.size :=
    Nat.lt_add_right _ (Nat.lt_succ_self g.size)
  exact substitute_answers hg hframe
    (Rules.replies_deep s.rules (fun _ => rfl) hin hrules g.substitutionDepth {} hdepth) hx hnil

/-- Substitution fails only for want of room. -/
theorem Graph.substitute_made (hg : g.WellFormed) (hs : s.MadeOf V g) (hx : g.MadeOf V x) :
    Meets Overflow (substitute s x) g fun y g' => g'.MadeOf V y := by
  apply substitute_answers_within (c := Substitution.staying V s g) hg (fun _ h => h)
    fun _ _ _ h => h.2.2.1
  · rintro depth x g' hg' hd ⟨-, hext, hlt, hs', hx'⟩ -
    exact Substitution.transform_stays hg hg' hd hext hlt hs' hx'
  · exact ⟨Nat.succ_ne_zero _, .refl g, hx.lt_size, hs, hx⟩
  · exact fun _ => hx

end ExactAlgebra
