import ExactAlgebra.Graph.Build
import Mathlib.Tactic

/-!
What holds of every graph that constructions can reach, and how a graph grows while nodes are
added to it: the nodes that it had keep their shapes, their operands and their numbers.
-/

namespace ExactAlgebra

variable {α β : Type} {g g' g'' : Graph} {s : Shape} {xs : List NodeId} {x : NodeId}

/-- Symbols are the shapes that more than one node may have with the same operands. -/
def Shape.IsSymbol : Shape → Prop
  | .symbol _ => True
  | _ => False

/-- How many operands a node of a shape may have. -/
def Shape.Allows (n : Nat) : Shape → Prop
  | .constant _ | .symbol _ => n = 0
  | .unary _ => n = 1
  | .power | .binary _ | .arrow => n = 2
  | .sum | .product | .call _ | .set => True

namespace Graph

structure WellFormed (g : Graph) : Prop where
  zero_node : g.nodes[zero]? = some { shape := .constant 0 }
  one_node : g.nodes[one]? = some { shape := .constant 1 }
  operands_lt : ∀ x, g.isLoop x = false → ∀ y ∈ g.operands x, y < x
  operands_lt_size : ∀ x, ∀ y ∈ g.operands x, y < g.size
  index_lt_size : ∀ (k : Shape × List NodeId) x, g.index[k]? = some x → x < g.size
  index_node : ∀ (k : Shape × List NodeId) x, g.index[k]? = some x → ¬ k.1.IsSymbol →
    g.node x = { shape := k.1, operands := k.2 }
  node_index : ∀ x, x < g.size → g.isLoop x = false → ¬ (g.shape x).IsSymbol →
    g.index[(g.shape x, g.operands x)]? = some x
  callee_mem : ∀ x f, g.shape x = .call f → f ∈ g.callees
  arity : ∀ x, (g.shape x).Allows (g.operands x).length

/-- `g'` has the nodes of `g`, and maybe more. -/
structure Extends (g g' : Graph) : Prop where
  size_le : g.size ≤ g'.size
  node_eq : ∀ x, x < g.size → g'.node x = g.node x
  callees_prefix : g.callees.toList <+: g'.callees.toList

theorem Extends.refl (g : Graph) : g.Extends g :=
  ⟨Nat.le_refl _, fun _ _ => rfl, List.prefix_rfl⟩

theorem Extends.trans (h : g.Extends g') (h' : g'.Extends g'') : g.Extends g'' where
  size_le := h.size_le.trans h'.size_le
  node_eq x hx := (h'.node_eq x (hx.trans_le h.size_le)).trans (h.node_eq x hx)
  callees_prefix := h.callees_prefix.trans h'.callees_prefix

theorem Extends.lt_size (h : g.Extends g') (hx : x < g.size) : x < g'.size :=
  hx.trans_le h.size_le

theorem Extends.shape_eq (h : g.Extends g') (hx : x < g.size) : g'.shape x = g.shape x :=
  congrArg Node.shape (h.node_eq x hx)

theorem Extends.operands_eq (h : g.Extends g') (hx : x < g.size) : g'.operands x = g.operands x :=
  congrArg Node.operands (h.node_eq x hx)

theorem Extends.isLoop_eq (h : g.Extends g') (hx : x < g.size) : g'.isLoop x = g.isLoop x :=
  congrArg Node.isLoop (h.node_eq x hx)

theorem Extends.value?_eq (h : g.Extends g') (hx : x < g.size) : g'.value? x = g.value? x :=
  congrArg Shape.value? (h.shape_eq hx)

theorem node_of_getElem? {n : Node} (h : g.nodes[x]? = some n) : g.node x = n := by
  simp only [node, h, Option.getD_some]

theorem node_of_size_le (h : g.size ≤ x) : g.node x = { shape := .constant 0 } := by
  simp only [node, Array.getElem?_eq_none h, Option.getD_none]

theorem lt_size_of_getElem? {n : Node} (h : g.nodes[x]? = some n) : x < g.size :=
  (Array.getElem?_eq_some_iff.1 h).1

namespace WellFormed

theorem node_zero (h : g.WellFormed) : g.node zero = { shape := .constant 0 } :=
  node_of_getElem? h.zero_node

theorem node_one (h : g.WellFormed) : g.node one = { shape := .constant 1 } :=
  node_of_getElem? h.one_node

theorem zero_lt_size (h : g.WellFormed) : zero < g.size := lt_size_of_getElem? h.zero_node

theorem one_lt_size (h : g.WellFormed) : one < g.size := lt_size_of_getElem? h.one_node

theorem constant_operands (h : g.WellFormed) {q : Rat} (hs : g.shape x = .constant q) :
    g.operands x = [] := by
  have harity := h.arity x
  rw [hs] at harity
  exact List.eq_nil_of_length_eq_zero harity

/-- Powers, operators between two nodes, and arrows have two operands. -/
theorem exists_operands_pair (h : g.WellFormed) {s : Shape} (hs : g.shape x = s)
    (htwo : ∀ n, s.Allows n → n = 2) : ∃ l r, g.operands x = [l, r] :=
  List.length_eq_two.1 (htwo _ (hs ▸ h.arity x))

theorem exists_operand (h : g.WellFormed) {op : Operator} (hs : g.shape x = .unary op) :
    ∃ y, g.operands x = [y] := by
  have harity := h.arity x
  rw [hs] at harity
  exact List.length_eq_one_iff.1 harity

/-- Nodes that are neither symbols nor loops are told apart by their shapes and operands. -/
theorem eq_of_node_eq (h : g.WellFormed) {y : NodeId} (hx : x < g.size) (hy : y < g.size)
    (hl : g.isLoop x = false) (hs : ¬ (g.shape x).IsSymbol) (he : g.node x = g.node y) :
    x = y := by
  have hshape : g.shape x = g.shape y := congrArg Node.shape he
  have hops : g.operands x = g.operands y := congrArg Node.operands he
  have hloop : g.isLoop x = g.isLoop y := congrArg Node.isLoop he
  have hxi := h.node_index x hx hl hs
  have hyi := h.node_index y hy (hloop ▸ hl) (hshape ▸ hs)
  rw [hshape, hops, hyi] at hxi
  exact (Option.some.inj hxi).symm

end WellFormed

theorem empty_wellFormed : empty.WellFormed := by
  have hnode : ∀ x, empty.node x = { shape := .constant 0 } ∨
      (x = 1 ∧ empty.node x = { shape := .constant 1 }) := by
    intro x
    match x with
    | 0 => exact .inl rfl
    | 1 => exact .inr ⟨rfl, rfl⟩
    | x + 2 => exact .inl (node_of_size_le (Nat.le_add_left 2 x))
  have hindex : ∀ (k : Shape × List NodeId) x, empty.index[k]? = some x →
      (k = (.constant 0, []) ∧ x = 0) ∨ (k = (.constant 1, []) ∧ x = 1) := by
    intro k x hk
    simp only [empty, Std.HashMap.getElem?_insert, Std.HashMap.getElem?_emptyWithCapacity] at hk
    grind [zero, one]
  refine ⟨rfl, rfl, ?_, ?_, ?_, ?_, ?_, ?_, ?_⟩
  · intro x _ y hy
    rcases hnode x with h | ⟨-, h⟩ <;> simp [operands, h] at hy
  · intro x y hy
    rcases hnode x with h | ⟨-, h⟩ <;> simp [operands, h] at hy
  · intro k x hk
    rcases hindex k x hk with ⟨-, rfl⟩ | ⟨-, rfl⟩ <;> decide
  · intro k x hk _
    rcases hindex k x hk with ⟨rfl, rfl⟩ | ⟨rfl, rfl⟩ <;> rfl
  · intro x hx _ _
    have hx : x < 2 := hx
    obtain rfl | rfl : x = 0 ∨ x = 1 := by omega
    · simp [empty, Std.HashMap.getElem_insert, shape, operands, node, zero, one]
    · simp [empty, shape, operands, node, zero, one]
  · intro x f hf
    rcases hnode x with h | ⟨-, h⟩ <;> simp [shape, h] at hf
  · intro x
    rcases hnode x with h | ⟨-, h⟩ <;> rw [shape, operands, h] <;> rfl

/-! ### Growing -/

/-- Nodes outside the graph are not self-referential. -/
theorem lt_size_of_isLoop (hl : g.isLoop x = true) : x < g.size := by
  by_contra hx
  rw [isLoop, node_of_size_le (Nat.le_of_not_lt hx)] at hl
  cases hl

/-- `g'` came from `g` by adding nodes and functions. What refers to itself, and what is recorded of
it, is what it was. -/
structure GrowsTo (g g' : Graph) : Prop extends Extends g g' where
  lt_of_isLoop : ∀ x, g'.isLoop x = true → x < g.size
  labels_eq : g'.labels = g.labels
  forms_eq : g'.forms = g.forms

theorem GrowsTo.refl (g : Graph) : g.GrowsTo g := ⟨.refl g, fun _ => lt_size_of_isLoop, rfl, rfl⟩

theorem GrowsTo.lt_size (h : g.GrowsTo g') (hx : x < g.size) : x < g'.size :=
  h.toExtends.lt_size hx

theorem GrowsTo.trans (h : g.GrowsTo g') (h' : g'.GrowsTo g'') : g.GrowsTo g'' where
  toExtends := h.toExtends.trans h'.toExtends
  lt_of_isLoop x hl := by
    have hx := h'.lt_of_isLoop x hl
    rw [h'.isLoop_eq hx] at hl
    exact h.lt_of_isLoop x hl
  labels_eq := h'.labels_eq.trans h.labels_eq
  forms_eq := h'.forms_eq.trans h.forms_eq

/-! ### Adding one node -/

/-- The graph with one more node. -/
def push (g : Graph) (n : Node) : Graph := { g with nodes := g.nodes.push n }

theorem size_push (g : Graph) (n : Node) : (g.push n).size = g.size + 1 := Array.size_push ..

theorem node_push_lt (n : Node) (h : x < g.size) : (g.push n).node x = g.node x := by
  simp only [node, push, Array.getElem?_push_lt h, Array.getElem?_eq_getElem h]

theorem node_push_self (g : Graph) (n : Node) : (g.push n).node g.size = n := by
  simp only [node, push, size, Array.getElem?_push_size, Option.getD_some]

theorem get_bind (f : Graph → Build α) (g : Graph) : (get >>= f) g = f g g := rfl

theorem append_eq (n : Node) (g : Graph) :
    append n g =
      if capacity ≤ g.size then .error .graphFull g
      else if n.operands.all (· < g.size) then .ok g.size (g.push n)
      else .error .operandOutsideGraph g := by
  rw [append, get_bind]
  split
  · rfl
  · cases n.operands.all fun y => decide (y < g.size) <;> rfl

/-- The graph with one more node, which is found by its shape and operands. -/
def extend (g : Graph) (s : Shape) (xs : List NodeId) : Graph :=
  { g.push { shape := s, operands := xs } with index := g.index.insert (s, xs) g.size }

theorem intern_eq (s : Shape) (xs : List NodeId) (g : Graph) :
    intern s xs g =
      match g.index[(s, xs)]? with
      | some x => .ok x g
      | none =>
        if capacity ≤ g.size then .error .graphFull g
        else if xs.all (· < g.size) then .ok g.size (g.extend s xs)
        else .error .operandOutsideGraph g := by
  rw [intern, get_bind]
  cases g.index[(s, xs)]? with
  | some x => rfl
  | none =>
    simp only [bind, EStateM.bind, append_eq]
    by_cases hc : capacity ≤ g.size
    · simp only [if_pos hc]
    · simp only [if_neg hc]
      cases xs.all fun y => decide (y < g.size) <;> rfl

theorem growsTo_push (g : Graph) {n : Node} (hn : n.isLoop = false) : g.GrowsTo (g.push n) where
  size_le := by rw [size_push]; omega
  node_eq _ hx := node_push_lt n hx
  callees_prefix := List.prefix_rfl
  lt_of_isLoop x hl := by
    have hx := lt_size_of_isLoop hl
    rw [size_push] at hx
    rcases Nat.lt_succ_iff_lt_or_eq.1 hx with hx | rfl
    · exact hx
    · rw [isLoop, node_push_self, hn] at hl
      cases hl
  labels_eq := rfl
  forms_eq := rfl

theorem growsTo_extend (g : Graph) (s : Shape) (xs : List NodeId) :
    g.GrowsTo (g.extend s xs) :=
  have h := growsTo_push g (n := { shape := s, operands := xs }) rfl
  ⟨⟨h.size_le, h.node_eq, List.prefix_rfl⟩, h.lt_of_isLoop, rfl, rfl⟩

theorem node_extend_self (g : Graph) (s : Shape) (xs : List NodeId) :
    (g.extend s xs).node g.size = { shape := s, operands := xs } := node_push_self g _

theorem size_extend (g : Graph) (s : Shape) (xs : List NodeId) :
    (g.extend s xs).size = g.size + 1 := size_push g _

theorem index_extend (g : Graph) (s : Shape) (xs : List NodeId) (k : Shape × List NodeId) :
    (g.extend s xs).index[k]? = if k = (s, xs) then some g.size else g.index[k]? := by
  simp only [extend, Std.HashMap.getElem?_insert, beq_iff_eq, eq_comm (a := k)]

/-- A node of the graph with one more node is an old one, or the new one, or there is none. -/
theorem node_push_cases (g : Graph) (n : Node) (x : NodeId) :
    (x < g.size ∧ (g.push n).node x = g.node x) ∨ (x = g.size ∧ (g.push n).node x = n) ∨
      (g.size < x ∧ (g.push n).node x = { shape := .constant 0 }) := by
  rcases Nat.lt_trichotomy x g.size with hx | rfl | hx
  · exact .inl ⟨hx, node_push_lt n hx⟩
  · exact .inr (.inl ⟨rfl, node_push_self g n⟩)
  · exact .inr (.inr ⟨hx, node_of_size_le (by rw [size_push]; omega)⟩)

/-- What a new node may be: its operands are there, and so is its callee. -/
structure Fits (g : Graph) (n : Node) : Prop where
  operands_lt : ∀ y ∈ n.operands, y < g.size
  callee_mem : ∀ f, n.shape = .call f → f ∈ g.callees
  arity : n.shape.Allows n.operands.length

/-- Adding a node keeps everything that does not concern the index. -/
theorem WellFormed.nodes_push (h : g.WellFormed) {n : Node} (hn : g.Fits n) :
    (∀ x, (g.push n).isLoop x = false → ∀ y ∈ (g.push n).operands x, y < x) ∧
      (∀ x, ∀ y ∈ (g.push n).operands x, y < (g.push n).size) ∧
      (∀ x f, (g.push n).shape x = .call f → f ∈ (g.push n).callees) ∧
      (∀ x, ((g.push n).shape x).Allows ((g.push n).operands x).length) := by
  have hcases := node_push_cases g n
  have hlt := h.operands_lt
  have hlt' := h.operands_lt_size
  have hcallee := h.callee_mem
  have harity := h.arity
  simp only [isLoop, operands, shape, size_push] at *
  refine ⟨fun x hl y hy => ?_, fun x y hy => ?_, fun x f hf => ?_, fun x => ?_⟩
  · rcases hcases x with ⟨hx, he⟩ | ⟨rfl, he⟩ | ⟨hx, he⟩ <;> rw [he] at hl hy
    · exact hlt x hl y hy
    · exact hn.operands_lt y hy
    · cases hy
  · rcases hcases x with ⟨hx, he⟩ | ⟨rfl, he⟩ | ⟨hx, he⟩ <;> rw [he] at hy
    · exact Nat.lt_succ_of_lt (hlt' x y hy)
    · exact Nat.lt_succ_of_lt (hn.operands_lt y hy)
    · cases hy
  · rcases hcases x with ⟨hx, he⟩ | ⟨rfl, he⟩ | ⟨hx, he⟩ <;> rw [he] at hf
    · exact hcallee x f hf
    · exact hn.callee_mem f hf
    · cases hf
  · rcases hcases x with ⟨hx, he⟩ | ⟨rfl, he⟩ | ⟨hx, he⟩ <;> rw [he]
    · exact harity x
    · exact hn.arity
    · exact rfl

theorem getElem?_push_of_some {n m : Node} (h : g.nodes[x]? = some m) :
    (g.push n).nodes[x]? = some m := by
  have hx := lt_size_of_getElem? h
  rw [push, Array.getElem?_push_lt hx, ← h, Array.getElem?_eq_getElem hx]

theorem WellFormed.extend (h : g.WellFormed) (hfit : g.Fits { shape := s, operands := xs })
    (hnew : g.index[(s, xs)]? = none) : (g.extend s xs).WellFormed := by
  obtain ⟨hlt, hlt', hcallee, harity⟩ := h.nodes_push hfit
  have hindex := index_extend g s xs
  refine ⟨getElem?_push_of_some h.zero_node, getElem?_push_of_some h.one_node, hlt, hlt', ?_, ?_,
    ?_, hcallee, harity⟩
  · intro k x hk
    rw [hindex] at hk
    rw [size_extend]
    split at hk
    · cases hk
      exact Nat.lt_succ_self _
    · exact Nat.lt_succ_of_lt (h.index_lt_size k x hk)
  · intro k x hk hs
    rw [hindex] at hk
    split at hk
    · cases hk
      subst k
      exact node_extend_self g s xs
    · exact (node_push_lt _ (h.index_lt_size k x hk)).trans (h.index_node k x hk hs)
  · intro x hx hl hs
    rw [hindex]
    rw [size_extend] at hx
    rcases Nat.lt_succ_iff_lt_or_eq.1 hx with hx | rfl
    · have he := (growsTo_extend g s xs).node_eq x hx
      simp only [shape, operands, isLoop, he] at hl hs ⊢
      have hi := h.node_index x hx hl hs
      simp only [shape, operands] at hi
      rw [if_neg, hi]
      intro hk
      rw [hk, hnew] at hi
      cases hi
    · rw [shape, operands, node_extend_self, if_pos rfl]

end Graph

end ExactAlgebra
