import ExactAlgebra.Proofs.Laurent.Difference
import ExactAlgebra.Proofs.Laurent.Evaluation
import ExactAlgebra.Proofs.Workspace.Ending

/-!
Evaluation decides the equality of expanded Laurent polynomials: two expressions have one value
exactly if they stand for the same polynomial.
-/

namespace ExactAlgebra

open ExactAlgebra.Graph (Vocabulary)

variable {library : Library} {V : Vocabulary} {g g' : Graph} {x y x' y' : NodeId} {p q : Laurent}
variable {ws : Workspace} {k : Nat}

namespace Graph

/-- A sum with nothing left to combine that has the values of a polynomial. -/
structure Represents (library : Library) (V : Vocabulary) (g : Graph) (x : NodeId) (p : Laurent) :
    Prop where
  combined : g.Combined V x
  denotes : ∀ ρ, g.Denotes (atUnits library ρ) [] x (p.value ρ)

theorem Represents.extends (h : g.Represents library V x p) (hg : g.WellFormed)
    (hx : g.Extends g') : g'.Represents library V x p :=
  ⟨h.combined.extends hg hx, fun ρ => (h.denotes ρ).extends hg hx⟩

theorem Represents.expansion_eq (h : g.Represents library V x p) : g.expansion x = p :=
  Laurent.eq_of_value fun ρ => ((h.denotes ρ).eq_expansion h.combined.overTerms).symm

theorem Represents.expanded (h : g.Represents library V x p) (hg : g.WellFormed) :
    g.Expanded x p := by
  obtain ⟨r, hr⟩ := h.combined.isExpanded ((h.denotes 1).integral h.combined.overTerms)
  have heq : r = p := Laurent.eq_of_value fun ρ =>
    (hr.denotes hg h.combined.elementary).unique (h.denotes ρ)
  rwa [← heq]

/-- A polynomial is represented by one node only. -/
theorem Represents.eq_iff (hV : g.Named V) (h : g.Represents library V x p)
    (h' : g.Represents library V y q) : x = y ↔ p = q := by
  constructor
  · rintro rfl
    rw [← h.expansion_eq, h'.expansion_eq]
  · rintro rfl
    exact h.combined.eq_of_expansion hV h'.combined ((h.denotes 1).integral h.combined.overTerms)
      ((h'.denotes 1).integral h'.combined.overTerms) (h.expansion_eq.trans h'.expansion_eq.symm)

end Graph

namespace Workspace

/-- An evaluation in graph `k` has ended in the graph `g`, with a node for a polynomial, or it has
failed for lack of room, or because less depth than `N` was given. -/
def Normalizes (library : Library) (V : Vocabulary) (k N depth : Nat) (g : Graph) (p : Laurent) :
    EStateM.Result Error Workspace Handle → Prop
  | .ok h ws => ∃ y, h = .node k y ∧ ws.graph k = g ∧ g.Represents library V y p
  | .error e ws => Graph.Overflow e (ws.graph k) ∨ (e = .depthExhausted ∧ depth < N)

/-- The evaluation of an expanded expression comes to a node that represents its polynomial. -/
theorem evaluate_represents (hlib : library.Changing Graph.Develops) (hV : g.Named V)
    (hV' : ∀ op, ¬ V.operators op) (hx : g.Elementary V x) (hp : g.Expanded x p) :
    Converges k (fun depth => evaluate library depth (.node k x)) g fun h g' =>
      ∃ y, h = .node k y ∧ g'.Represents library V y p := by
  have hE : Evaluation.Permits library V Graph.Overflow :=
    ⟨fun f hf => absurd hf (hV.no_callees f), fun _ _ => id, fun h => absurd h (hV' _)⟩
  have hvalue : ∀ ρ, g.Denotes (Graph.atUnits library ρ) [] x (p.value ρ) := fun ρ =>
    hp.denotes hV.wellFormed hx
  apply (evaluate_converges hlib hE.isReal hV.wellFormed hx
    (Evaluation.expanded_combined hE hp hx hV.wellFormed (.refl g))
    (P := fun y g₁ => ∀ ρ, g₁.Denotes (Graph.atUnits library ρ) [] y (p.value ρ))
    fun _ _ _ he ρ => Evaluation.denotes_of_evaluateIn hV.wellFormed (hvalue ρ) he).mono
  rintro h g' - - ⟨y, rfl, hy, hy'⟩
  exact ⟨y, rfl, hy, hy'⟩

/-- The evaluation of an expanded expression, in what has grown from its graph, ends in one graph
whatever the depth is. -/
theorem exists_normalizes (hlib : library.Changing Graph.Develops) (hV : g.Named V)
    (hV' : ∀ op, ¬ V.operators op) (hg' : g'.WellFormed) (hext : g.Extends g')
    (hx : g.Elementary V x) (hp : g.Expanded x p) :
    ∃ N g₁, g₁.WellFormed ∧ g'.Extends g₁ ∧ ∀ ws : Workspace, k < ws.graphs.size →
      ws.graph k = g' → ∀ depth,
        Normalizes library V k N depth g₁ p (evaluate library depth (.node k x) ws) := by
  obtain ⟨N, r, hr, hN⟩ := evaluate_represents (k := k) hlib (hV.grow hext hg') hV'
    (hext.elementary hx) (hp.extends hx hext)
  have hfinal : (final r).WellFormed ∧ g'.Extends (final r) := by
    cases r <;> exact ⟨hr.1, hr.2.1⟩
  refine ⟨N, final r, hfinal.1, hfinal.2, fun ws hk hws depth => ?_⟩
  have hend := hN ws hk hws depth
  simp only at hend
  cases he : evaluate library depth (.node k x) ws with
  | ok h ws₁ =>
    rw [he] at hend
    obtain ⟨-, rfl⟩ := hend
    obtain ⟨-, -, y, rfl, hy⟩ := hr
    exact ⟨y, rfl, rfl, hy⟩
  | error e ws₁ =>
    rw [he] at hend
    rcases hend with rfl | h
    · exact .inl hr.2.2
    · exact .inr h

/-- The values of two expressions, one after the other. -/
def evaluateBoth (library : Library) (depth : Nat) (h h' : Handle) : Work (Handle × Handle) := do
  let l ← evaluate library depth h
  let r ← evaluate library depth h'
  return (l, r)

/-- The evaluation of two expressions in graph `k` has told whether `same` holds, or it has failed
for lack of room, or because less depth than `N` was given. -/
def Decides (k N depth : Nat) (same : Prop) :
    EStateM.Result Error Workspace (Handle × Handle) → Prop
  | .ok (l, r) _ => l = r ↔ same
  | .error e ws => Graph.Overflow e (ws.graph k) ∨ (e = .depthExhausted ∧ depth < N)

theorem size_evaluate (library : Library) (depth k : Nat) (x : NodeId) (ws : Workspace) :
    (final (evaluate library depth (.node k x) ws)).graphs.size = ws.graphs.size := by
  rw [evaluate_eq]
  cases evaluateIn library depth x (ws.startRun k) <;> exact size_setGraph ..

/-- Two expanded expressions have one value exactly if they stand for one polynomial, and with depth
enough, evaluation fails only for lack of room. -/
theorem evaluateBoth_decides (hlib : library.Changing Graph.Develops) (hk : k < ws.graphs.size)
    (hg : (ws.graph k).WellFormed) (hx : (ws.graph k).Elementary (ws.graph k).names x)
    (hy : (ws.graph k).Elementary (ws.graph k).names y) (hp : (ws.graph k).Expanded x p)
    (hq : (ws.graph k).Expanded y q) :
    ∃ N, ∀ depth,
      Decides k N depth (p = q) (evaluateBoth library depth (.node k x) (.node k y) ws) := by
  have hV := hg.named_names
  have hV' : ∀ op, ¬ (ws.graph k).names.operators op := fun _ => id
  obtain ⟨N, g₁, hg₁, hx₁, hN⟩ := exists_normalizes (k := k) hlib hV hV' hg (.refl _) hx hp
  obtain ⟨N', g₂, hg₂, hx₂, hN'⟩ := exists_normalizes (k := k) hlib hV hV' hg₁ hx₁ hy hq
  refine ⟨max N N', fun depth => ?_⟩
  have hfirst := hN ws hk rfl depth
  have hsize := size_evaluate library depth k x ws
  simp only [evaluateBoth, bind, EStateM.bind]
  cases he : evaluate library depth (.node k x) ws with
  | error e ws₁ =>
    rw [he] at hfirst
    exact hfirst.imp_right fun h => ⟨h.1, lt_max_of_lt_left h.2⟩
  | ok h ws₁ =>
    rw [he] at hfirst hsize
    obtain ⟨x', rfl, hws₁, hx'⟩ := hfirst
    have hk₁ : k < ws₁.graphs.size := hsize ▸ hk
    have hsecond := hN' ws₁ hk₁ hws₁ depth
    cases he' : evaluate library depth (.node k y) ws₁ with
    | error e ws₂ =>
      rw [he'] at hsecond
      simp only [he']
      exact hsecond.imp_right fun h => ⟨h.1, lt_max_of_lt_right h.2⟩
    | ok h' ws₂ =>
      rw [he'] at hsecond
      obtain ⟨y', rfl, -, hy'⟩ := hsecond
      have hiff := (hx'.extends hg₁ hx₂).eq_iff (hV.grow (hx₁.trans hx₂) hg₂) hy'
      simp only [he']
      exact ⟨fun h => hiff.1 (Handle.node.inj h).2, fun h => by rw [hiff.2 h]⟩

/-- The graph of `x + x` and of `2 * x`, which are different nodes. -/
def doubledTwice : Graph := (Graph.doubled.extend (.constant 2) []).extend .product [4, 2]

theorem doubledTwice_wellFormed : doubledTwice.WellFormed := by
  have hconstant : (Graph.doubled.extend (.constant 2) []).WellFormed := by
    refine Graph.doubled_wellFormed.extend ⟨by simp, fun _ => Shape.noConfusion, rfl⟩ ?_
    simp [Graph.doubled, Graph.extend, Graph.push, Graph.empty]
  refine hconstant.extend ⟨?_, fun _ => Shape.noConfusion, trivial⟩ ?_
  · intro y hy
    rcases List.mem_pair.1 hy with rfl | rfl <;> decide
  · simp [Graph.doubled, Graph.extend, Graph.push, Graph.empty]

/-- The evaluation of `x + x` and of `2 * x` tells that they are equal. -/
theorem evaluateBoth_doubledTwice :
    (seen id (evaluateBoth .silent 9 (.node 0 3) (.node 0 5) { graphs := #[doubledTwice] })).1 =
      .ok (.node 0 5, .node 0 5) ∧
    ∃ N, ∀ depth, Decides 0 N depth
      (([2, 2].map fun _ => Laurent.power "x" 1).sum =
        ([4, 2].map fun y => if y = 4 then .constant 2 else .power "x" 1).prod)
      (evaluateBoth .silent depth (.node 0 3) (.node 0 5) { graphs := #[doubledTwice] }) := by
  have hsymbol : doubledTwice.names.symbols 2 := by
    refine ⟨"x", rfl, ?_⟩
    cbv
  have h2 : doubledTwice.Elementary doubledTwice.names 2 :=
    .node (by decide) rfl hsymbol fun _ h => absurd h List.not_mem_nil
  have h4 : doubledTwice.Elementary doubledTwice.names 4 :=
    .node (by decide) rfl trivial fun _ h => absurd h List.not_mem_nil
  have hx : doubledTwice.Monomial 2 (.power "x" 1) := .symbol rfl
  have hsize : 0 < (Workspace.mk #[doubledTwice] [] #[]).graphs.size := by decide
  refine ⟨by cbv, ?_⟩
  apply evaluateBoth_decides silent_changing hsize doubledTwice_wellFormed
  · exact .node (by decide) rfl trivial fun y hy => (List.mem_pair.1 hy).elim (· ▸ h2) (· ▸ h2)
  · exact .node (by decide) rfl trivial fun y hy => (List.mem_pair.1 hy).elim (· ▸ h4) (· ▸ h2)
  · exact .sum (fun _ => .power "x" 1) rfl fun y hy =>
      (List.mem_pair.1 hy).elim (· ▸ .monomial hx) (· ▸ .monomial hx)
  · refine .monomial (.product (fun y => if y = 4 then .constant 2 else .power "x" 1) rfl ?_)
    intro y hy
    rcases List.mem_pair.1 hy with rfl | rfl
    · exact .constant rfl
    · exact hx

end Workspace

end ExactAlgebra
