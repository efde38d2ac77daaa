import ExactAlgebra.Proofs.Graph.Elementary

/-!
What an expression is made of, self-referential nodes being entered: the nodes that it reaches
through operands. New nodes are made of what their operands are made of, whatever is built.
-/

namespace ExactAlgebra.Graph

/-- `y` is `x` or occurs in it, self-referential nodes being entered. -/
inductive Reaches (g : Graph) (x : NodeId) : NodeId → Prop
  | refl : Reaches g x x
  | step {y z : NodeId} (h : Reaches g x y) (hz : z ∈ g.operands y) : Reaches g x z

/-- The vocabulary in which the self-referential nodes of a graph may stand for symbols. -/
def Vocabulary.closedIn (V : Vocabulary) (g : Graph) : Vocabulary where
  symbols x := V.symbols x ∨ g.isLoop x = true
  callees := V.callees
  operators := V.operators

/-- A node that reaches what a vocabulary covers only. -/
structure MadeOf (V : Vocabulary) (g : Graph) (x : NodeId) : Prop where
  lt_size_of_reaches : ∀ z, g.Reaches x z → z < g.size
  covers : ∀ z, g.Reaches x z → (V.closedIn g).Covers z (g.shape z)

variable {V V' : Vocabulary} {g g' : Graph} {s : Shape} {x y z : NodeId} {xs : List NodeId}

theorem Reaches.of_operand (hy : y ∈ g.operands x) (h : g.Reaches y z) : g.Reaches x z := by
  induction h with
  | refl => exact .step .refl hy
  | step _ hz ih => exact .step ih hz

theorem Vocabulary.covers_closedIn_iff :
    (V.closedIn g).Covers x s ↔ V.Covers x s ∨ (s.IsSymbol ∧ g.isLoop x = true) := by
  cases s with
  | symbol => simp only [Covers, closedIn, Shape.IsSymbol, true_and]
  | _ => simp only [Covers, closedIn, Shape.IsSymbol, false_and, or_false]

namespace MadeOf

theorem lt_size (h : g.MadeOf V x) : x < g.size := h.lt_size_of_reaches x .refl

theorem shape_covers (h : g.MadeOf V x) : (V.closedIn g).Covers x (g.shape x) := h.covers x .refl

theorem operands (h : g.MadeOf V x) : ∀ y ∈ g.operands x, g.MadeOf V y := fun _ hy =>
  ⟨fun z hz => h.lt_size_of_reaches z (hz.of_operand hy), fun z hz => h.covers z (hz.of_operand hy)⟩

/-- A class of nodes that are covered, with the operands of each, consists of nodes made of the
vocabulary. -/
theorem of_closed {K : NodeId → Prop} (hK : ∀ z, K z → z < g.size ∧
    (V.closedIn g).Covers z (g.shape z) ∧ ∀ y ∈ g.operands z, K y) (hx : K x) : g.MadeOf V x := by
  have hreach : ∀ z, g.Reaches x z → K z := by
    intro z hz
    induction hz with
    | refl => exact hx
    | step _ hz ih => exact (hK _ ih).2.2 _ hz
  exact ⟨fun z hz => (hK z (hreach z hz)).1, fun z hz => (hK z (hreach z hz)).2.1⟩

theorem of_operands (hx : x < g.size) (hc : (V.closedIn g).Covers x (g.shape x))
    (hops : ∀ y ∈ g.operands x, g.MadeOf V y) : g.MadeOf V x := by
  apply of_closed (K := fun z => z = x ∨ g.MadeOf V z) ?_ (.inl rfl)
  rintro z (rfl | hz)
  · exact ⟨hx, hc, fun y hy => .inr (hops y hy)⟩
  · exact ⟨hz.lt_size, hz.shape_covers, fun y hy => .inr (hz.operands y hy)⟩

theorem of_node (hx : x < g.size) (hn : g.node x = { shape := s, operands := xs })
    (hs : V.Covers x s) (hxs : ∀ y ∈ xs, g.MadeOf V y) : g.MadeOf V x := by
  apply of_operands hx
  · rw [shape, hn]
    exact V.covers_closedIn_iff.2 (.inl hs)
  · rwa [Graph.operands, hn]

theorem mono (h : g.MadeOf V x) (hV : ∀ z s, g.Reaches x z → V.Covers z s → V'.Covers z s) :
    g.MadeOf V' x := by
  refine ⟨h.lt_size_of_reaches, fun z hz => V'.covers_closedIn_iff.2 ?_⟩
  exact (V.covers_closedIn_iff.1 (h.covers z hz)).imp_left (hV z _ hz)

end MadeOf

theorem WellFormed.madeOf_zero (hg : g.WellFormed) : g.MadeOf V zero :=
  .of_node hg.zero_lt_size hg.node_zero trivial fun _ hy => absurd hy List.not_mem_nil

theorem WellFormed.madeOf_one (hg : g.WellFormed) : g.MadeOf V one :=
  .of_node hg.one_lt_size hg.node_one trivial fun _ hy => absurd hy List.not_mem_nil

theorem Extends.covers_closedIn (h : g.Extends g') (hx : x < g.size) :
    (V.closedIn g').Covers x s ↔ (V.closedIn g).Covers x s := by
  rw [V.covers_closedIn_iff, V.covers_closedIn_iff, h.isLoop_eq hx]

theorem Extends.madeOf (h : g.Extends g') (hx : g.MadeOf V x) : g'.MadeOf V x := by
  apply MadeOf.of_closed (K := g.MadeOf V) ?_ hx
  intro z hz
  rw [h.shape_eq hz.lt_size, h.operands_eq hz.lt_size]
  exact ⟨h.lt_size hz.lt_size, (h.covers_closedIn hz.lt_size).2 hz.shape_covers, hz.operands⟩

/-- What is made of a vocabulary after a graph has grown was so before. -/
theorem Extends.madeOf_of (h : g.Extends g') (hin : ∀ z, ∀ y ∈ g.operands z, y < g.size)
    (hx : g'.MadeOf V x) (hlt : x < g.size) : g.MadeOf V x := by
  apply MadeOf.of_closed (K := fun z => z < g.size ∧ g'.MadeOf V z) ?_ ⟨hlt, hx⟩
  rintro z ⟨hz, hm⟩
  have hc := hm.shape_covers
  have hops := hm.operands
  rw [h.shape_eq hz, h.covers_closedIn hz] at hc
  rw [h.operands_eq hz] at hops
  exact ⟨hz, hc, fun y hy => ⟨hin z y hy, hops y hy⟩⟩

/-! ### Constructions -/

theorem constant_made (hg : g.WellFormed) (q : Rat) :
    Meets Overflow (constant q) g fun x g' => g'.MadeOf V x ∧ g'.value? x = some q := by
  apply (constant_meets hg q).mono
  rintro x g' - - ⟨hx, hn⟩
  refine ⟨.of_node hx hn trivial fun _ hy => absurd hy List.not_mem_nil, ?_⟩
  rw [value?, shape, hn]
  rfl

theorem collapses_made {unit : NodeId} {le : NodeId → NodeId → Bool} (hx : g.Extends g')
    (hs : s = .sum ∨ s = .product) (hunit : g.MadeOf V unit) (hxs : ∀ x ∈ xs, g.MadeOf V x)
    (h : Collapses g g' s unit le xs y) : g'.MadeOf V y := by
  cases h with
  | nil => exact hx.madeOf hunit
  | single => exact hx.madeOf (hxs y (List.mem_singleton_self y))
  | node hlt _ hn =>
    refine .of_node hlt hn ?_ fun z hz => ?_
    · rcases hs with rfl | rfl <;> trivial
    · exact hx.madeOf (hxs z ((List.mergeSort_perm _ _).mem_iff.1 hz))

theorem flattenSum_made (hxs : ∀ x ∈ xs, g.MadeOf V x) :
    ∀ y ∈ g.flattenSum xs, g.MadeOf V y := by
  intro y hy
  obtain ⟨x, hx, hy⟩ := List.mem_flatMap.1 (List.mem_filter.1 hy).1
  split at hy
  · exact (hxs x hx).operands y hy
  · exact List.mem_singleton.1 hy ▸ hxs x hx

theorem flattenProduct_made (hxs : ∀ x ∈ xs, g.MadeOf V x) :
    ∀ y ∈ g.flattenProduct xs, g.MadeOf V y := by
  intro y hy
  obtain ⟨x, hx, hy⟩ := List.mem_flatMap.1 (List.mem_filter.1 hy).1
  split at hy
  · exact (hxs x hx).operands y hy
  · exact List.mem_singleton.1 hy ▸ hxs x hx

theorem sum_made (hg : g.WellFormed) (hxs : ∀ x ∈ xs, g.MadeOf V x) :
    Meets Overflow (sum xs) g fun y g' => g'.MadeOf V y :=
  (sum_meets hg fun x hx => (hxs x hx).lt_size).mono fun _ _ _ hext h =>
    collapses_made hext (.inl rfl) hg.madeOf_zero (flattenSum_made hxs) h

theorem product_made (hg : g.WellFormed) (hxs : ∀ x ∈ xs, g.MadeOf V x) :
    Meets Overflow (product xs) g fun y g' => g'.MadeOf V y := by
  apply (product_meets hg fun x hx => (hxs x hx).lt_size).mono
  rintro y g' hg' hext (⟨-, rfl⟩ | ⟨-, h⟩)
  · exact hg'.madeOf_zero
  · exact collapses_made hext (.inr rfl) hg.madeOf_one (flattenProduct_made hxs) h

theorem pair_made (hext : g.Extends g') (hx : g.MadeOf V x) (hy : g.MadeOf V y)
    (hz : z < g'.size) (hn : g'.node z = { shape := s, operands := [x, y] })
    (hs : V.Covers z s) : g'.MadeOf V z :=
  .of_node hz hn hs (by simp [hext.madeOf hx, hext.madeOf hy])

theorem power_made (hg : g.WellFormed) (hx : g.MadeOf V x) (hy : g.MadeOf V y) :
    Meets Overflow (power x y) g fun z g' => g'.MadeOf V z := by
  apply (power_meets hg hx.lt_size hy.lt_size).mono
  rintro z g' - hext (⟨-, rfl⟩ | ⟨-, hz, hn⟩)
  · exact hext.madeOf hx
  · exact pair_made hext hx hy hz hn trivial

theorem binary_made (hg : g.WellFormed) {op : Operator} (hop : V.operators op)
    (hx : g.MadeOf V x) (hy : g.MadeOf V y) :
    Meets Overflow (binary op x y) g fun z g' => g'.MadeOf V z :=
  (binary_meets hg op hx.lt_size hy.lt_size).mono fun _ _ _ hext h =>
    pair_made hext hx hy h.1 h.2 hop

theorem arrow_made (hg : g.WellFormed) (hx : g.MadeOf V x) (hy : g.MadeOf V y) :
    Meets Overflow (arrow x y) g fun z g' => g'.MadeOf V z :=
  (arrow_meets hg hx.lt_size hy.lt_size).mono fun _ _ _ hext h =>
    pair_made hext hx hy h.1 h.2 trivial

theorem unary_made (hg : g.WellFormed) (op : Operator) (hx : g.MadeOf V x) :
    Meets Overflow (unary op x) g fun z g' => g'.MadeOf V z :=
  (unary_meets hg op hx.lt_size).mono fun _ _ _ hext h =>
    .of_node h.1 h.2 trivial (by simp [hext.madeOf hx])

theorem set_made (hg : g.WellFormed) (hxs : ∀ x ∈ xs, g.MadeOf V x) :
    Meets Overflow (set xs) g fun z g' => g'.MadeOf V z :=
  (set_meets hg fun x hx => (hxs x hx).lt_size).mono fun _ _ _ hext h =>
    .of_node h.1 h.2 trivial fun x hx => hext.madeOf (hxs x hx)

theorem call_made (hg : g.WellFormed) {f : Callee} (hf : V.callees f)
    (hxs : ∀ x ∈ xs, g.MadeOf V x) :
    Meets Overflow (call f xs) g fun z g' => g'.MadeOf V z :=
  (call_meets hg f fun x hx => (hxs x hx).lt_size).mono fun _ _ _ hext h =>
    .of_node h.1 h.2 hf fun x hx => hext.madeOf (hxs x hx)

/-- A node of the same kind over other operands, as many as its kind needs. -/
theorem withOperands_made (hg : g.WellFormed) (hx : g.MadeOf V x) (hxs : ∀ y ∈ xs, g.MadeOf V y)
    (harity : (g.shape x).Allows xs.length) :
    Meets Overflow (withOperands x xs) g fun y g' => g'.MadeOf V y := by
  have hcov := hx.shape_covers
  have htwo : ∀ {f : NodeId × NodeId → Build NodeId}, xs.length = 2 →
      (∀ l r, g.MadeOf V l → g.MadeOf V r →
        Meets Overflow (f (l, r)) g fun y g' => g'.MadeOf V y) →
      Meets Overflow (do f (← pickPair xs)) g fun y g' => g'.MadeOf V y := by
    intro f hlen hf
    obtain ⟨l, r, rfl⟩ := List.length_eq_two.1 hlen
    exact hf l r (hxs l (by simp)) (hxs r (by simp))
  apply Meets.get
  cases hs : g.shape x with
  | constant | symbol => exact .pure hg hx
  | sum => exact sum_made hg hxs
  | product => exact product_made hg hxs
  | power =>
    rw [hs] at harity
    exact htwo harity fun _ _ => power_made hg
  | binary op =>
    rw [hs] at harity hcov
    exact htwo harity fun _ _ => binary_made hg hcov
  | unary op =>
    rw [hs] at harity
    obtain ⟨y, rfl⟩ := List.length_eq_one_iff.1 harity
    exact unary_made hg op (hxs y (by simp))
  | call f =>
    rw [hs] at hcov
    have hfit : g.Fits { shape := .call f, operands := xs } := by
      refine ⟨fun y hy => (hxs y hy).lt_size, ?_, trivial⟩
      rintro f' ⟨⟩
      exact hg.callee_mem x f hs
    apply (intern_meets hg hfit).mono
    exact fun z g' _ hext h => .of_node h.1 (h.2 id) hcov fun y hy => hext.madeOf (hxs y hy)
  | set => exact set_made hg hxs
  | arrow =>
    rw [hs] at harity
    exact htwo harity fun _ _ => arrow_made hg

end ExactAlgebra.Graph
