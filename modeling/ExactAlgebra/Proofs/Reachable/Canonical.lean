import ExactAlgebra.Proofs.Graph.Meaning
import ExactAlgebra.Proofs.Reachable.Comparison

/-!
Where nothing refers to itself, all sums, products and powers are in canonical shape, and building
them again from their own operands comes to the same nodes.
-/

namespace ExactAlgebra.Graph

variable {V : Vocabulary} {k : Gathering} {g : Graph} {x y z : NodeId} {q : Rat}

/-- What is kept of nodes in canonical shape. -/
structure Canonical (g : Graph) : Prop where
  two_le_terms : ∀ x, g.shape x = .sum → 2 ≤ (g.operands x).length
  term : ∀ x, g.shape x = .sum → ∀ y ∈ g.operands x, g.shape y ≠ .sum ∧ g.value? y ≠ some 0
  terms_sorted : ∀ x, g.shape x = .sum → (g.operands x).Pairwise fun y z => g.sumLe y z
  terms_constants_last : ∀ x, g.shape x = .sum →
    (g.operands x).Pairwise fun y z => g.isConstant y → g.isConstant z
  two_le_factors : ∀ x, g.shape x = .product → 2 ≤ (g.operands x).length
  factor : ∀ x, g.shape x = .product → ∀ y ∈ g.operands x,
    g.shape y ≠ .product ∧ g.value? y ≠ some 0 ∧ g.value? y ≠ some 1
  factors_sorted : ∀ x, g.shape x = .product → (g.operands x).Pairwise fun y z => g.productLe y z
  factors_constants_first : ∀ x, g.shape x = .product →
    (g.operands x).Pairwise fun y z => g.isConstant z → g.isConstant y
  exponent : ∀ x y z, g.shape x = .power → g.operands x = [y, z] → g.value? z ≠ some 1

/-! ### Constants -/

/-- Constants that are no loops are told apart by their values. -/
theorem WellFormed.eq_of_value? (hg : g.WellFormed) (hx : x < g.size) (hy : y < g.size)
    (hlx : g.isLoop x = false) (hly : g.isLoop y = false) (hxq : g.value? x = some q)
    (hyq : g.value? y = some q) : x = y := by
  have hnode : ∀ z, g.isLoop z = false → g.value? z = some q →
      g.node z = { shape := .constant q } := by
    intro z hl hz
    have hs : g.shape z = .constant q := by
      rw [value?] at hz
      cases hs : g.shape z <;> rw [hs] at hz <;> cases hz
      rfl
    have hfields : g.node z = ⟨g.shape z, g.operands z, g.isLoop z⟩ := rfl
    rw [hfields, hs, hg.constant_operands hs, hl]
  apply hg.eq_of_node_eq hx hy hlx
  · rw [shape, hnode x hlx hxq]
    exact id
  · rw [hnode x hlx hxq, hnode y hly hyq]

theorem WellFormed.eq_unit (hg : g.WellFormed) (hx : x < g.size) (hl : g.isLoop x = false)
    (h : g.hasValue k.neutral x) : x = k.unit := by
  have hunit : g.isLoop k.unit = false := congrArg Node.isLoop (Gathering.node_unit hg k)
  exact hg.eq_of_value? hx (Gathering.unit_lt hg k) hl hunit (of_decide_eq_true h)
    (of_decide_eq_true (Gathering.hasValue_unit hg k))

theorem isConstant_of_sumLe (h : g.sumLe x y) (hx : g.isConstant x) : g.isConstant y := by
  rw [sumLe, hx] at h
  cases hy : g.isConstant y with
  | true => rfl
  | false =>
    rw [hy] at h
    cases h

theorem compareShapes_constant {s : Shape} (hs : s.isConstant = false) :
    g.compareShapes x y s (.constant q) = .gt := by
  cases s <;> first | rfl | cases hs

/-- Among factors, constants come first. -/
theorem WellFormed.isConstant_of_productLe (hg : g.WellFormed) (hfree : g.LoopFree)
    (h : g.productLe x y) (hy : g.isConstant y) : g.isConstant x := by
  by_cases hxy : x = y
  · exact hxy ▸ hy
  rw [productLe, hg.order_eq, if_neg hxy, hfree x, hfree y] at h
  rw [isConstant] at hy
  cases hs : g.shape y with
  | constant q =>
    rw [hs] at h
    cases hx : g.isConstant x with
    | true => rfl
    | false =>
      rw [compareShapes_constant hx] at h
      cases h
  | _ =>
    rw [hs] at hy
    cases hy

/-! ### Expressions without loops -/

/-- Symbols, functions and operators of all kinds. -/
def Vocabulary.all : Vocabulary := ⟨fun _ => True, fun _ => True, fun _ => True⟩

theorem Vocabulary.all_covers (x : NodeId) (s : Shape) : Vocabulary.all.Covers x s := by
  cases s <;> trivial

theorem LoopFree.elementary (hfree : g.LoopFree) (hg : g.WellFormed) (hx : x < g.size) :
    g.Elementary .all x := by
  induction x using Nat.strong_induction_on with
  | _ x ih =>
    refine .node hx (hfree x) (Vocabulary.all_covers x _) fun y hy => ?_
    exact ih y (hg.operands_lt x (hfree x) y hy) (hg.operands_lt_size x y hy)

theorem lt_size_of_shape (hs : g.shape x = k.shape) : x < g.size := by
  by_contra hx
  rw [shape, node_of_size_le (Nat.le_of_not_lt hx)] at hs
  cases k <;> cases hs

namespace Regular

theorem operand (hg : g.Regular) (hx : g.Elementary V x) (hs : g.shape x = k.shape) :
    ∀ y ∈ g.operands x,
      g.shape y ≠ k.shape ∧ g.value? y ≠ some 0 ∧ g.value? y ≠ some k.neutral := by
  intro y hy
  obtain ⟨hlt, hl⟩ := And.intro (hx.operands y hy).lt_size (hx.operands y hy).isLoop_eq
  obtain ⟨hzero, hunit, hopens⟩ := (hg.admits x hx.isLoop_eq).gathered k hs y hy
  refine ⟨fun h => ?_, fun h => ?_, fun h => ?_⟩
  · rw [Gathering.opens_iff.2 ⟨h, hl⟩] at hopens
    cases hopens
  · exact hzero (hg.eq_unit (k := .sum) hlt hl (decide_eq_true h))
  · exact hunit (hg.eq_unit hlt hl (decide_eq_true h))

theorem sorted_operands (hg : g.Regular) (hx : g.Elementary V x) (hs : g.shape x = k.shape) :
    (g.operands x).Pairwise fun y z => k.le g y z :=
  Gathering.sorted_shape_iff.1 (hs ▸ hg.sorted hx)

theorem flatten_operands (hg : g.Regular) (hx : g.Elementary V x) (hs : g.shape x = k.shape) :
    k.flatten g (g.operands x) = g.operands x := by
  apply Gathering.flatten_of_kept
  intro y hy
  obtain ⟨hshape, -, hneutral⟩ := hg.operand hx hs y hy
  exact ⟨Gathering.not_opens_of_shape hshape, decide_eq_false hneutral⟩

theorem flatten_self (hg : g.Regular) (hx : g.Elementary V x) (hs : g.shape x = k.shape) :
    k.flatten g [x] = g.operands x := by
  have hopens := Gathering.opens_iff.2 ⟨hs, hx.isLoop_eq⟩
  rw [Gathering.flatten_singleton, Gathering.parts_of_opens hopens, List.filter_eq_self]
  intro y hy
  simpa [hasValue] using (hg.operand hx hs y hy).2.2

/-- A sum or product comes of its operands again. -/
theorem build_operands (hg : g.Regular) (hx : g.Elementary V x) (hs : g.shape x = k.shape) :
    k.build (g.operands x) g = .ok x g := by
  have hoperand := hg.operand hx hs
  have hany : (g.operands x).any (g.hasValue 0) = false := by
    rw [List.any_eq_false]
    intro y hy
    rw [hasValue, decide_eq_true_eq]
    exact (hoperand y hy).2.1
  rw [Gathering.build_eq, hg.flatten_operands hx hs, hany, if_neg Bool.false_ne_true]
  have hindex := hg.node_index x hx.lt_size hx.isLoop_eq (hs ▸ Gathering.not_isSymbol)
  have hlen := (hg.admits x hx.isLoop_eq).two_le k hs
  have hsorted := hg.sorted_operands hx hs
  rcases hops : g.operands x with _ | ⟨y, _ | ⟨z, ys⟩⟩
  · rw [hops] at hlen
    cases hlen
  · rw [hops] at hlen
    exact absurd hlen (Nat.not_succ_le_self 1)
  · rw [hops] at hindex hsorted
    dsimp only
    rw [List.mergeSort_of_pairwise hsorted, intern_eq, ← hs, hindex]

/-- Alone, an expression is its own sum and product. -/
theorem build_singleton (hg : g.Regular) (hx : g.Elementary V x) (k : Gathering) :
    k.build [x] g = .ok x g := by
  cases ho : k.opens (g.node x) with
  | true =>
    have hs := (Gathering.opens_iff.1 ho).1
    have hflatten : k.flatten g [x] = k.flatten g (g.operands x) :=
      (hg.flatten_self hx hs).trans (hg.flatten_operands hx hs).symm
    rw [Gathering.build_eq, hflatten, ← Gathering.build_eq, hg.build_operands hx hs]
  | false =>
    rw [Gathering.build_eq, Gathering.flatten_singleton, Gathering.parts_of_not_opens ho,
      List.filter_singleton]
    cases hneutral : g.hasValue k.neutral x with
    | true =>
      obtain rfl := hg.eq_unit hx.lt_size hx.isLoop_eq hneutral
      rfl
    | false =>
      cases hzero : g.hasValue 0 x with
      | true =>
        obtain rfl := hg.eq_unit (k := .sum) hx.lt_size hx.isLoop_eq hzero
        simp [Gathering.unit]
      | false => simp [hzero]

end Regular

/-! ### Nodes in canonical shape -/

namespace Regular

theorem canonical_of_loopFree (hg : g.Regular) (hfree : g.LoopFree) : g.Canonical := by
  have helem : ∀ {k : Gathering} {x}, g.shape x = k.shape → g.Elementary .all x := fun hs =>
    hfree.elementary hg.toWellFormed (lt_size_of_shape hs)
  have hoperand : ∀ (k : Gathering) x, g.shape x = k.shape → ∀ y ∈ g.operands x,
      g.shape y ≠ k.shape ∧ g.value? y ≠ some 0 ∧ g.value? y ≠ some k.neutral := fun _ _ hs =>
    hg.operand (helem hs) hs
  have hsorted : ∀ (k : Gathering) x, g.shape x = k.shape →
      (g.operands x).Pairwise fun y z => k.le g y z := fun _ _ hs =>
    hg.sorted_operands (helem hs) hs
  exact {
    two_le_terms := fun x hs => (hg.admits x (hfree x)).two_le .sum hs
    term := fun x hs y hy => ⟨(hoperand .sum x hs y hy).1, (hoperand .sum x hs y hy).2.1⟩
    terms_sorted := fun x hs => hsorted .sum x hs
    terms_constants_last := fun x hs => (hsorted .sum x hs).imp isConstant_of_sumLe
    two_le_factors := fun x hs => (hg.admits x (hfree x)).two_le .product hs
    factor := fun x hs => hoperand .product x hs
    factors_sorted := fun x hs => hsorted .product x hs
    factors_constants_first := fun x hs =>
      (hsorted .product x hs).imp (hg.toWellFormed.isConstant_of_productLe hfree)
    exponent := by
      intro x y z hs hops hone
      have hz : z < g.size := hg.operands_lt_size x z (by simp [hops])
      obtain rfl := hg.eq_unit (k := .product) hz (hfree z) (decide_eq_true hone)
      exact (hg.admits x (hfree x)).exponent hs y hops }

/-- What a node is gathered from comes to this node again. -/
theorem build_parts (hg : g.Regular) (hfree : g.LoopFree) (k : Gathering) (hx : x < g.size) :
    k.build (k.parts g x) g = .ok x g := by
  have helem := hfree.elementary hg.toWellFormed hx
  cases ho : k.opens (g.node x) with
  | true =>
    rw [Gathering.parts_of_opens ho]
    exact hg.build_operands helem (Gathering.opens_iff.1 ho).1
  | false =>
    rw [Gathering.parts_of_not_opens ho]
    exact hg.build_singleton helem k

end Regular

/--
In every graph that programs reach and in which nothing refers to itself, sums, products and powers
are in canonical shape, and every node is the sum of its terms and the product of its factors.
-/
theorem Reachable.canonical (hg : g.Reachable) (hfree : g.LoopFree) :
    g.Canonical ∧ ∀ x < g.size,
      sum (g.terms x) g = .ok x g ∧ product (g.factors x) g = .ok x g := by
  refine ⟨hg.regular.canonical_of_loopFree hfree, fun x hx => ?_⟩
  exact ⟨hg.regular.build_parts hfree .sum hx, hg.regular.build_parts hfree .product hx⟩

theorem doubled_reachable : doubled.Reachable := by
  have hsymbol : symbol "x" empty = .ok 2 (empty.extend (.symbol "x") []) := by
    have hnew : empty.index[((.symbol "x", []) : Shape × List NodeId)]? = none := by simp [empty]
    rw [symbol, intern_eq, hnew]
    rfl
  have hsum : sum [2, 2] (empty.extend (.symbol "x") []) = .ok 3 doubled := by
    have hnew : (empty.extend (.symbol "x") []).index[((.sum, [2, 2]) : Shape × List NodeId)]? =
        none := by
      simp [extend, push, empty]
    have hflatten : (empty.extend (.symbol "x") []).flattenSum [2, 2] = [2, 2] := by rfl
    rw [sum, get_bind, hflatten]
    dsimp only
    rw [List.mergeSort_of_pairwise (by decide), intern_eq, hnew]
    rfl
  have hgraph : doubled = (Action.construct (.sum [2, 2])).after
      ((Action.construct (.symbol "x")).after empty) := by
    simp only [Action.after, Construction.build, hsymbol, hsum, final]
  rw [hgraph]
  exact (Reachable.empty.act _).act _

theorem doubled_loopFree : doubled.LoopFree := by
  intro x
  match x with
  | 0 | 1 | 2 | 3 => rfl
  | x + 4 =>
    rw [isLoop, node_of_size_le]
    exact Nat.le_add_left 4 x

theorem doubled_canonical :
    doubled.Reachable ∧ doubled.LoopFree ∧ doubled.Canonical ∧
      sum (doubled.terms 3) doubled = .ok 3 doubled ∧
      product (doubled.factors 3) doubled = .ok 3 doubled := by
  obtain ⟨hcanonical, hbuild⟩ := doubled_reachable.canonical doubled_loopFree
  exact ⟨doubled_reachable, doubled_loopFree, hcanonical, hbuild 3 (by decide)⟩

end ExactAlgebra.Graph
