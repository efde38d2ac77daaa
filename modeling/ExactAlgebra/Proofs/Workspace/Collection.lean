import ExactAlgebra.Proofs.Evaluation.Termination
import ExactAlgebra.Proofs.Workspace.Memoisation

/-!
Evaluation leaves no like terms and no like factors, in no part of a result: a memo makes no
difference to what plain recursion comes to.
-/

namespace ExactAlgebra

open ExactAlgebra.Graph (Vocabulary)

variable {library : Library} {V : Vocabulary} {E : Error → Graph → Prop} {g : Graph}
variable {x z : NodeId} {ws : Workspace} {k : Nat}

namespace Evaluation

/-- Where plain recursion comes to an end, every evaluation that is deep enough comes to the same,
whatever was evaluated before. -/
theorem exists_depth_of_halts {Q : NodeId → Graph → Prop}
    (hreal : ∀ f, V.callees f → library.IsReal f) (hx : g.Elementary V x)
    (hhalts : Dialogue.Halts (rules library) E (Dialogue.ask x) g Q)
    (hdepth : ∀ g, ¬ E .depthExhausted g) :
    ∃ (N : Nat) (q : EStateM.Result Error (Pass Journal) NodeId), Arrives E g Q q ∧ ∀ depth m r,
      Transforms (rules library) library.IsReal depth x g m r →
        match r with
        | .ok y run => ∃ log, q = .ok y ⟨run.pass.graph, log⟩
        | .error e run => (e = .depthExhausted ∧ depth < N) ∨
            ∃ log, q = .error e ⟨run.pass.graph, log⟩ := by
  obtain ⟨N, q, hq, hN⟩ := hhalts {}
  have hrec : (rules library).recurse N x ⟨g, {}⟩ = q := by
    rw [← hN N (Nat.le_refl N), Dialogue.ask, Step.recurse]
    cases (rules library).recurse N x ⟨g, {}⟩ <;> rfl
  refine ⟨N, q, hq, fun depth m r h => ?_⟩
  have hsame := h.same V hreal hx N {}
  rw [hrec] at hsame
  rcases hsame with ⟨p, rfl⟩ | hsame
  · exact absurd hq.2.2 (hdepth p.graph)
  · cases r <;> exact hsame

/-- How an evaluation ends: with a node that `x` reduces to, with an error in `E`, or because less
depth than `N` was given. -/
def Reduced (V : Vocabulary) (E : Error → Graph → Prop) (g : Graph) (x : NodeId)
    (N depth : Nat) : EStateM.Result Error (Run Journal) NodeId → Prop
  | .ok y run => run.pass.graph.WellFormed ∧ g.Extends run.pass.graph ∧
      run.pass.graph.Reduces V x y
  | .error e run => E e run.pass.graph ∨ (e = .depthExhausted ∧ depth < N)

theorem exists_depth (hE : Permits library V E) (hg : g.WellFormed) (hx : g.Elementary V x)
    (hdepth : ∀ g, ¬ E .depthExhausted g) :
    ∃ N, ∀ depth m r, Transforms (rules library) library.IsReal depth x g m r →
      Reduced V E g x N depth r := by
  obtain ⟨N, q, hq, hN⟩ := exists_depth_of_halts hE.isReal hx
    (evaluates_elementary hE hx g hg (.refl g)) hdepth
  refine ⟨N, fun depth m r h => ?_⟩
  have hr := hN depth m r h
  cases r with
  | ok y run =>
    obtain ⟨log, rfl⟩ := hr
    exact hq
  | error e run =>
    rcases hr with h | ⟨log, rfl⟩
    · exact .inr h
    · exact .inl hq.2.2

end Evaluation

namespace Graph

/-- `z` is `x` or a part of it. -/
def Part (g : Graph) (z x : NodeId) : Prop :=
  Relation.ReflTransGen (fun a b => b ∈ g.operands a) x z

/-- Nothing is left to combine in a node: the terms of a sum have different bare parts, only one of
them being constant, and the factors of a product have different bases, if they are no constants. -/
structure Neat (g : Graph) (z : NodeId) : Prop where
  one_constant : g.shape z = .sum ∨ g.shape z = .product →
    ((g.operands z).filter g.isConstant).length ≤ 1
  bare_terms : g.shape z = .sum → (g.operands z).Pairwise fun t t' =>
    g.bareFactors t ≠ g.bareFactors t'
  bases : g.shape z = .product →
    ((g.operands z).filter fun f => !g.isConstant f).Pairwise fun f f' => g.baseOf f ≠ g.baseOf f'
  power_base : ∀ b e, g.shape z = .power → g.operands z = [b, e] → g.shape b ≠ .product
  no_substitution : g.shape z ≠ .binary .substitution

theorem Collected.part (h : g.Collected x) (hz : g.Part z x) : g.Collected z := by
  induction hz with
  | refl => exact h
  | tail _ hb ih => exact ih.operands _ hb

theorem isConstant_iff : g.isConstant x = true ↔ g.value? x ≠ none := by
  rw [isConstant, value?]
  cases g.shape x <;> simp [Shape.isConstant, Shape.value?]

/-- Of a list without two elements in `p` that go together, one at most is in `p`. -/
theorem length_filter_le_one {xs : List NodeId} {p : NodeId → Bool} {R : NodeId → NodeId → Prop}
    (h : xs.Pairwise fun x y => ¬ R x y) (hp : ∀ x y, p x → p y → R x y) :
    (xs.filter p).length ≤ 1 := by
  have hfilter := h.filter p
  have hmem : ∀ x ∈ xs.filter p, p x = true := fun x hx => (List.mem_filter.1 hx).2
  generalize xs.filter p = ys at hfilter hmem
  rcases ys with _ | ⟨x, _ | ⟨y, ys⟩⟩
  · exact Nat.zero_le 1
  · exact Nat.le_refl 1
  · have hxy := (List.pairwise_cons.1 hfilter).1 y (by simp)
    exact absurd (hp x y (hmem x (by simp)) (hmem y (by simp))) hxy

theorem Collected.neat (h : g.Collected x) : g.Neat x := by
  have ht := h.tidy
  rw [Tidy] at ht
  refine ⟨?_, fun hs => ?_, fun hs => ?_, fun b e hs hbe hb => ?_, fun hs => ?_⟩
  · rintro (hs | hs) <;> rw [hs] at ht
    · refine length_filter_le_one ht.1.unlike fun t t' ht ht' => ?_
      obtain ⟨q, hq⟩ := Option.ne_none_iff_exists'.1 (isConstant_iff.1 ht)
      obtain ⟨q', hq'⟩ := Option.ne_none_iff_exists'.1 (isConstant_iff.1 ht')
      rw [LikeTerms, bareFactors_of_value? hq, bareFactors_of_value? hq']
    · refine length_filter_le_one ht.1.unlike fun f f' hf hf' => ?_
      have hv := isConstant_iff.1 hf
      exact ⟨iff_of_false hv (isConstant_iff.1 hf'), fun h => absurd h hv⟩
  · rw [hs] at ht
    exact ht.1.unlike
  · rw [hs] at ht
    refine (ht.1.unlike.filter _).imp_of_mem fun {f f'} hf hf' hne he => hne ⟨?_, fun _ => he⟩
    have hconst : ∀ f ∈ (g.operands x).filter fun f => !g.isConstant f, g.value? f = none := by
      intro f hf
      by_contra hv
      have hf' := (List.mem_filter.1 hf).2
      rw [isConstant_iff.2 hv] at hf'
      cases hf'
    exact iff_of_true (hconst f hf) (hconst f' hf')
  · rw [hs] at ht
    have ho := (ht b e hbe).not_product
    have hl := (h.operands b (by simp [hbe])).isLoop_eq
    rw [Bool.eq_false_iff] at ho
    exact ho (isOpenProduct_iff.2 ⟨hb, hl⟩)
  · rw [hs] at ht
    exact ht rfl

end Graph

namespace Workspace

/-- The errors of evaluation: no room for a node, or a replacement that is not given by an arrow. -/
def Fails (e : Error) (g : Graph) : Prop := Graph.Overflow e g ∨ e = .bindingIsNoArrow

theorem permits (library : Library) : Evaluation.Permits library library.vocabulary Fails where
  isReal _ hf := hf
  overflow _ _ := .inl
  noArrow _ _ := .inr rfl

/-- An evaluation in graph `k` has ended with a node all parts of which are neat, with an error, or
because less depth than `N` was given. -/
def Collects (k N depth : Nat) : EStateM.Result Error Workspace Handle → Prop
  | .ok h ws => ∃ y, h = .node k y ∧ ∀ z, (ws.graph k).Part z y → (ws.graph k).Neat z
  | .error e ws => Fails e (ws.graph k) ∨ (e = .depthExhausted ∧ depth < N)

/-- Evaluation leaves nothing to combine, in any part of a result. It comes to an end if enough
depth is given. -/
theorem evaluate_collects (hlib : library.Changing Graph.Develops) (hk : k < ws.graphs.size)
    (hg : (ws.graph k).WellFormed) (hx : (ws.graph k).Elementary library.vocabulary x) :
    ∃ N, ∀ depth, Collects k N depth (evaluate library depth (.node k x) ws) := by
  have hdepth : ∀ g, ¬ Fails .depthExhausted g := by
    rintro g (⟨h, -⟩ | h) <;> cases h
  obtain ⟨N, hN⟩ := Evaluation.exists_depth (permits library) hg hx hdepth
  refine ⟨N, fun depth => ?_⟩
  have hready : Ready library ws { graph := k, log := #[] } := .fresh library hk hg
  have hreduced := hN depth _ _ (hready.transforms hlib depth x)
  rw [evaluate_eq, startRun]
  cases he : evaluateIn library depth x (Transforming.start ws { graph := k, log := #[] }) with
  | ok y run =>
    rw [he] at hreduced
    obtain ⟨-, -, hy⟩ := hreduced
    refine ⟨y, rfl, fun z hz => ?_⟩
    rw [graph_afterRun hk] at hz ⊢
    exact (hy.collected.part hz).neat
  | error e run =>
    rw [he] at hreduced
    rw [Collects, graph_afterRun hk]
    exact hreduced

theorem silent_changing : Library.silent.Changing Graph.Develops := by
  rintro f accepts run ⟨⟩ xs
  exact (Graph.Grows.pure _).developing

/-- `x + x` becomes `2 * x`, in which nothing is left to combine. -/
theorem evaluate_doubled_collects :
    (seen id (evaluate .silent 9 (.node 0 3) { graphs := #[Graph.doubled] })).1 =
      .ok (.node 0 5) ∧
    ∃ N, ∀ depth,
      Collects 0 N depth (evaluate .silent depth (.node 0 3) { graphs := #[Graph.doubled] }) := by
  have hsize : 0 < (Workspace.mk #[Graph.doubled] [] #[]).graphs.size := by decide
  refine ⟨by cbv, ?_⟩
  exact evaluate_collects silent_changing hsize Graph.doubled_wellFormed
    (doubled_elementary Library.silent.vocabulary trivial)

end Workspace

end ExactAlgebra
