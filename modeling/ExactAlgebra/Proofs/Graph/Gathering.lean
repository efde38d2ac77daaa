import ExactAlgebra.Proofs.Graph.Construction
import ExactAlgebra.Proofs.Graph.Sharing

/-!
What sums and products have in common. Both gather any number of operands, take over the operands of
operands of their own kind, leave out neutral constants, and keep the rest in canonical order.
-/

namespace ExactAlgebra.Graph

/-- The constructions with any number of operands whose order and grouping is free. -/
inductive Gathering where
  | sum
  | product

namespace Gathering

def shape : Gathering → Shape
  | sum => .sum
  | product => .product

/-- The node that stands for no operands. -/
def unit : Gathering → NodeId
  | sum => zero
  | product => one

/-- The value of operands that make no difference. -/
def neutral : Gathering → Rat
  | sum => 0
  | product => 1

/-- The order in which operands are kept. -/
def le : Gathering → Graph → NodeId → NodeId → Bool
  | sum, g => g.sumLe
  | product, g => g.productLe

def build : Gathering → List NodeId → Build NodeId
  | sum => Graph.sum
  | product => Graph.product

/-- Whether the operands of a node are taken over. -/
def opens (k : Gathering) (n : Node) : Bool := n.shape == k.shape && !n.isLoop

/-- What is taken over of an operand: its operands, or the operand itself. -/
def parts (k : Gathering) (g : Graph) (x : NodeId) : List NodeId :=
  if k.opens (g.node x) then g.operands x else [x]

/-- The operands that are kept, before they are sorted. -/
def flatten (k : Gathering) (g : Graph) (xs : List NodeId) : List NodeId :=
  (xs.flatMap (k.parts g)).filter fun x => !g.hasValue k.neutral x

variable {k k' : Gathering} {g g' : Graph} {x y z : NodeId} {xs ys zs : List NodeId}

/-! ### Shapes -/

theorem shape_injective (h : k.shape = k'.shape) : k = k' := by
  cases k <;> cases k' <;> first | rfl | cases h

theorem shape_ne_power : k.shape ≠ .power := by
  cases k <;> exact Shape.noConfusion

theorem shape_ne_call (f : Callee) : k.shape ≠ .call f := by
  cases k <;> exact Shape.noConfusion

theorem not_isVerbatim : ¬ k.shape.IsVerbatim := by
  cases k <;> exact id

theorem not_isSymbol : ¬ k.shape.IsSymbol := by
  cases k <;> exact id

theorem allows (n : Nat) : k.shape.Allows n := by
  cases k <;> trivial

/-! ### Order -/

theorem le_trans (hg : g.WellFormed) (h : k.le g x y) (h' : k.le g y z) : k.le g x z := by
  cases k with
  | sum => exact hg.sumLe_trans h h'
  | product => exact hg.productLe_trans h h'

theorem le_total (hg : g.WellFormed) (x y : NodeId) : k.le g x y || k.le g y x := by
  cases k with
  | sum => exact hg.sumLe_total x y
  | product => exact hg.productLe_total x y

theorem le_antisymm (hg : g.WellFormed) (hx : x < g.size) (hy : y < g.size) (h : k.le g x y)
    (h' : k.le g y x) : x = y := by
  cases k with
  | sum => exact hg.sumLe_antisymm hx hy h h'
  | product => exact hg.productLe_antisymm hx hy h h'

theorem sorted_shape_iff : g.Sorted xs k.shape ↔ xs.Pairwise fun x y => k.le g x y := by
  cases k <;> exact .rfl

theorem pairwise_mergeSort (hg : g.WellFormed) (xs : List NodeId) :
    (xs.mergeSort (k.le g)).Pairwise fun x y => k.le g x y := by
  have htrans : ∀ x y z, k.le g x y → k.le g y z → k.le g x z := fun _ _ _ => le_trans hg
  exact List.pairwise_mergeSort htrans (le_total hg) xs

/-- Operands in canonical order are told apart by what they are, not by where they stand. -/
theorem eq_of_perm (hg : g.WellFormed) (hxs : ∀ x ∈ xs, x < g.size) (hp : xs.Perm ys)
    (hs : xs.Pairwise fun x y => k.le g x y) (hs' : ys.Pairwise fun x y => k.le g x y) :
    xs = ys :=
  hp.eq_of_pairwise (fun _ _ hx hy => le_antisymm hg (hxs _ hx) (hxs _ (hp.mem_iff.2 hy))) hs hs'

/-! ### Flattening -/

theorem opens_iff : k.opens (g.node x) ↔ g.shape x = k.shape ∧ g.isLoop x = false := by
  simp only [opens, Graph.shape, isLoop, Bool.and_eq_true, beq_iff_eq, Bool.not_eq_true']

theorem not_opens_of_shape (h : g.shape x ≠ k.shape) : k.opens (g.node x) = false :=
  Bool.eq_false_iff.2 fun ho => h (opens_iff.1 ho).1

theorem parts_of_opens (h : k.opens (g.node x)) : k.parts g x = g.operands x := if_pos h

theorem parts_of_not_opens (h : k.opens (g.node x) = false) : k.parts g x = [x] :=
  if_neg (Bool.eq_false_iff.1 h)

theorem parts_lt (hg : g.WellFormed) (hx : x < g.size) : ∀ y ∈ k.parts g x, y < g.size := by
  intro y hy
  unfold parts at hy
  split at hy
  · exact hg.operands_lt_size x y hy
  · exact List.mem_singleton.1 hy ▸ hx

theorem flatten_append (xs ys : List NodeId) :
    k.flatten g (xs ++ ys) = k.flatten g xs ++ k.flatten g ys := by
  rw [flatten, List.flatMap_append, List.filter_append, flatten, flatten]

theorem flatten_perm (h : xs.Perm ys) : (k.flatten g xs).Perm (k.flatten g ys) :=
  (h.flatMap_right (k.parts g)).filter _

theorem flatten_singleton (x : NodeId) :
    k.flatten g [x] = (k.parts g x).filter fun y => !g.hasValue k.neutral y := by
  rw [flatten, List.flatMap_singleton]

/-- Where there is nothing to take over or to leave out, all operands are kept. -/
theorem flatten_of_kept
    (h : ∀ x ∈ xs, k.opens (g.node x) = false ∧ g.hasValue k.neutral x = false) :
    k.flatten g xs = xs := by
  have hparts : xs.flatMap (k.parts g) = xs.flatMap fun x => [x] :=
    List.flatMap_congr fun x hx => parts_of_not_opens (h x hx).1
  rw [flatten, hparts, List.flatMap_singleton', List.filter_eq_self]
  intro x hx
  rw [(h x hx).2]
  rfl

theorem mem_flatten :
    y ∈ k.flatten g xs ↔ (∃ x ∈ xs, y ∈ k.parts g x) ∧ g.hasValue k.neutral y = false := by
  simp only [flatten, List.mem_filter, List.mem_flatMap, Bool.not_eq_true']

theorem flatten_lt (hg : g.WellFormed) (hxs : ∀ x ∈ xs, x < g.size) :
    ∀ y ∈ k.flatten g xs, y < g.size := by
  intro y hy
  obtain ⟨⟨x, hx, hy⟩, -⟩ := mem_flatten.1 hy
  exact parts_lt hg (hxs x hx) y hy

theorem flatten_eq (hx : g.Extends g') (hg : g.WellFormed) (hxs : ∀ x ∈ xs, x < g.size) :
    k.flatten g' xs = k.flatten g xs := by
  have hparts : xs.flatMap (k.parts g') = xs.flatMap (k.parts g) := by
    apply List.flatMap_congr
    intro x hmem
    rw [parts, parts, hx.node_eq x (hxs x hmem), hx.operands_eq (hxs x hmem)]
  rw [flatten, flatten, hparts]
  apply List.filter_congr
  intro y hy
  obtain ⟨x, hmem, hy⟩ := List.mem_flatMap.1 hy
  rw [hasValue, hasValue, hx.value?_eq (parts_lt hg (hxs x hmem) y hy)]

/-! ### Units -/

theorem node_unit (hg : g.WellFormed) (k : Gathering) :
    g.node k.unit = { shape := .constant k.neutral } := by
  cases k with
  | sum => exact hg.node_zero
  | product => exact hg.node_one

theorem hasValue_unit (hg : g.WellFormed) (k : Gathering) : g.hasValue k.neutral k.unit = true := by
  rw [hasValue, value?, Graph.shape, node_unit hg]
  exact decide_eq_true rfl

theorem unit_lt (hg : g.WellFormed) (k : Gathering) : k.unit < g.size := by
  cases k with
  | sum => exact hg.zero_lt_size
  | product => exact hg.one_lt_size

/-- A constant is left out, or kept as it is. -/
theorem flatten_constant {q : Rat} (h : g.shape x = .constant q) :
    k.flatten g [x] = if q = k.neutral then [] else [x] := by
  have hvalue : g.hasValue k.neutral x = decide (q = k.neutral) := by
    simp only [hasValue, value?, h, Shape.value?, Option.some.injEq]
  have hne : g.shape x ≠ k.shape := by
    rw [h]
    cases k <;> exact Shape.noConfusion
  rw [flatten_singleton, parts_of_not_opens (not_opens_of_shape hne), List.filter_singleton, hvalue]
  by_cases hq : q = k.neutral <;> simp [hq]

theorem flatten_unit (hg : g.WellFormed) (k : Gathering) : k.flatten g [k.unit] = [] := by
  rw [flatten_constant (congrArg Node.shape (node_unit hg k)), if_pos rfl]

/-! ### Building -/

/-- What gathering comes to: a zero takes over, and otherwise what is kept makes up a node, unless
it is too little. -/
theorem build_eq (k : Gathering) (xs : List NodeId) (g : Graph) :
    k.build xs g =
      if (k.flatten g xs).any (g.hasValue 0) then .ok zero g
      else match k.flatten g xs with
        | [] => .ok k.unit g
        | [x] => .ok x g
        | ys => intern k.shape (ys.mergeSort (k.le g)) g := by
  cases k with
  | sum =>
    have hzero : (g.flattenSum xs).any (g.hasValue 0) = false := by
      rw [List.any_eq_false]
      intro y hy
      simpa using (List.mem_filter.1 hy).2
    change Graph.sum xs g = if (g.flattenSum xs).any (g.hasValue 0) then _ else
      match g.flattenSum xs with
      | [] => _
      | [x] => _
      | ys => _
    rw [hzero, if_neg Bool.false_ne_true, Graph.sum, get_bind]
    match g.flattenSum xs with
    | [] => rfl
    | [x] => rfl
    | x :: y :: ys => rfl
  | product =>
    change Graph.product xs g = if (g.flattenProduct xs).any (g.hasValue 0) then _ else
      match g.flattenProduct xs with
      | [] => _
      | [x] => _
      | ys => _
    rw [Graph.product, get_bind]
    split
    · rfl
    · match g.flattenProduct xs with
      | [] => rfl
      | [x] => rfl
      | x :: y :: ys => rfl

end Gathering

end ExactAlgebra.Graph
