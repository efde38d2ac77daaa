import ExactAlgebra.Proofs.Reachable.Basic

/-!
Sums and products are associative and commutative. However their operands are ordered, and whichever
of them are gathered first, the same node results.
-/

namespace ExactAlgebra.Graph

variable {k : Gathering} {g g' : Graph} {x y z : NodeId} {xs xs' ys ys' zs : List NodeId}

/-! ### Operands that count as the same -/

/-- Whether there is a zero among operands, which takes over in a product. -/
def HasZero (g : Graph) (xs : List NodeId) : Prop := ∃ x ∈ xs, g.value? x = some 0

theorem hasZero_append : g.HasZero (xs ++ ys) ↔ g.HasZero xs ∨ g.HasZero ys := by
  simp only [HasZero, List.mem_append, or_and_right, exists_or]

theorem not_hasZero_nil : ¬ g.HasZero [] := fun ⟨_, hx, _⟩ => List.not_mem_nil hx

theorem Extends.hasZero_iff (hx : g.Extends g') (hxs : ∀ x ∈ xs, x < g.size) :
    g'.HasZero xs ↔ g.HasZero xs := by
  have hvalue : ∀ x ∈ xs, g'.value? x = g.value? x := fun x hmem => hx.value?_eq (hxs x hmem)
  constructor
  · intro ⟨x, hmem, h⟩
    exact ⟨x, hmem, (hvalue x hmem).symm.trans h⟩
  · intro ⟨x, hmem, h⟩
    exact ⟨x, hmem, (hvalue x hmem).trans h⟩

/-- Operands for which the same node stands. Without a zero, only their order may differ. -/
structure Interchangeable (g : Graph) (xs ys : List NodeId) : Prop where
  hasZero_iff : g.HasZero xs ↔ g.HasZero ys
  perm : ¬ g.HasZero xs → xs.Perm ys

namespace Interchangeable

theorem of_perm (h : xs.Perm ys) : g.Interchangeable xs ys where
  hasZero_iff := by simp only [HasZero, h.mem_iff]
  perm _ := h

theorem append (h : g.Interchangeable xs xs') (h' : g.Interchangeable ys ys') :
    g.Interchangeable (xs ++ ys) (xs' ++ ys') where
  hasZero_iff := by rw [hasZero_append, hasZero_append, h.hasZero_iff, h'.hasZero_iff]
  perm hz := by
    rw [hasZero_append, not_or] at hz
    exact (h.perm hz.1).append (h'.perm hz.2)

end Interchangeable

/-! ### The node of operands -/

/-- `y` is the node that stands for the operands `xs`, as far as they are kept. -/
inductive Gathers (k : Gathering) (g : Graph) : List NodeId → NodeId → Prop
  | zero {xs : List NodeId} (h : g.HasZero xs) : Gathers k g xs zero
  | unit : Gathers k g [] k.unit
  | single {x : NodeId} (h : ¬ g.HasZero [x]) : Gathers k g [x] x
  | node {xs ys : List NodeId} {y : NodeId} (h : ¬ g.HasZero xs) (hlen : 2 ≤ xs.length)
      (hp : ys.Perm xs) (hs : g.Sorted ys k.shape) (hy : y < g.size)
      (hn : g.node y = { shape := k.shape, operands := ys }) : Gathers k g xs y

namespace Gathers

theorem eq_zero (h : g.Gathers k xs y) (hz : g.HasZero xs) : y = Graph.zero := by
  cases h with
  | zero => rfl
  | unit => exact absurd hz not_hasZero_nil
  | single h => exact absurd hz h
  | node h => exact absurd hz h

/-- Only one node stands for given operands. -/
theorem unique (hg : g.WellFormed) (hxs : ∀ x ∈ xs, x < g.size) (h : g.Gathers k xs y)
    (h' : g.Gathers k xs z) : y = z := by
  cases h with
  | zero hz => exact (h'.eq_zero hz).symm
  | unit =>
    cases h' with
    | zero hz => exact absurd hz not_hasZero_nil
    | unit => rfl
    | node _ hlen => cases hlen
  | single hz =>
    cases h' with
    | zero hz' => exact absurd hz' hz
    | single => rfl
    | node _ hlen => exact absurd hlen (Nat.not_succ_le_self 1)
  | node hz hlen hp hs hy hn =>
    cases h' with
    | zero hz' => exact absurd hz' hz
    | unit => cases hlen
    | single => exact absurd hlen (Nat.not_succ_le_self 1)
    | node _ _ hp' hs' hy' hn' =>
      rw [Gathering.sorted_shape_iff] at hs hs'
      have hlt : ∀ x ∈ _, x < g.size := fun x hx => hxs x (hp.mem_iff.1 hx)
      have hops := Gathering.eq_of_perm hg hlt (hp.trans hp'.symm) hs hs'
      apply hg.eq_of_node_eq hy hy'
      · rw [isLoop, hn]
      · rw [shape, hn]
        exact Gathering.not_isSymbol
      · rw [hn, hn', hops]

theorem congr (h : g.Gathers k xs y) (hi : g.Interchangeable xs ys) : g.Gathers k ys y := by
  cases h with
  | zero hz => exact .zero (hi.hasZero_iff.1 hz)
  | unit => exact (hi.perm not_hasZero_nil).nil_eq ▸ .unit
  | single hz => exact (List.perm_singleton.1 (hi.perm hz).symm) ▸ .single hz
  | node hz hlen hp hs hy hn =>
    have hperm := hi.perm hz
    exact .node (fun h => hz (hi.hasZero_iff.2 h)) (hperm.length_eq ▸ hlen) (hp.trans hperm) hs hy
      hn

theorem extend (hg : g.WellFormed) (hx : g.Extends g') (hxs : ∀ x ∈ xs, x < g.size)
    (h : g.Gathers k xs y) : g'.Gathers k xs y := by
  have hzero := hx.hasZero_iff hxs
  cases h with
  | zero hz => exact .zero (hzero.2 hz)
  | unit => exact .unit
  | single hz => exact .single fun h => hz (hzero.1 h)
  | node hz hlen hp hs hy hn =>
    refine .node (fun h => hz (hzero.1 h)) hlen hp ?_ (hx.lt_size hy) ((hx.node_eq _ hy).trans hn)
    exact hx.sorted hg (fun x hmem => hxs x (hp.mem_iff.1 hmem)) hs

/-- As an operand, the node for kept operands is as good as these operands themselves. -/
theorem flatten (hg : g.WellFormed) (h : g.Gathers k xs y)
    (hxs : ∀ x ∈ xs, g.hasValue k.neutral x = false ∧ k.opens (g.node x) = false) :
    g.Interchangeable (k.flatten g [y]) xs := by
  have hfilter : ∀ {ys : List NodeId}, ys.Perm xs →
      ys.filter (fun x => !g.hasValue k.neutral x) = ys := by
    intro ys hp
    rw [List.filter_eq_self]
    intro x hx
    rw [(hxs x (hp.mem_iff.1 hx)).1]
    rfl
  cases h with
  | zero hz =>
    have hzero : g.shape Graph.zero = .constant 0 := congrArg Node.shape hg.node_zero
    -- The zero was kept, so that zeros are not neutral here, and the node for it is kept, too.
    have hne : (0 : Rat) ≠ k.neutral := by
      intro h0
      obtain ⟨x, hx, hv⟩ := hz
      have hneutral := (hxs x hx).1
      rw [hasValue, hv, ← h0] at hneutral
      exact absurd hneutral (by decide)
    rw [Gathering.flatten_constant hzero, if_neg hne]
    have hz' : g.HasZero [Graph.zero] :=
      ⟨Graph.zero, List.mem_singleton_self _, congrArg Shape.value? hzero⟩
    exact ⟨iff_of_true hz' hz, fun h => absurd hz' h⟩
  | unit =>
    rw [Gathering.flatten_unit hg]
    exact .of_perm .nil
  | single hz =>
    rw [Gathering.flatten_singleton, Gathering.parts_of_not_opens (hxs y List.mem_cons_self).2,
      hfilter (.refl _)]
    exact .of_perm (.refl _)
  | node hz hlen hp hs hy hn =>
    have hopens : k.opens (g.node y) := by
      rw [Gathering.opens_iff, shape, isLoop, hn]
      exact ⟨rfl, rfl⟩
    rw [Gathering.flatten_singleton, Gathering.parts_of_opens hopens, operands, hn, hfilter hp]
    exact .of_perm hp

end Gathers

/-! ### Building -/

/-- Two nodes that are built one after the other. -/
def both (m m' : Build NodeId) : Build (NodeId × NodeId) := do
  let x ← m
  let y ← m'
  return (x, y)

/-- The node for the two nodes for two groups of operands. -/
def grouped (build : List NodeId → Build NodeId) (xs ys : List NodeId) : Build NodeId := do
  let x ← build xs
  let y ← build ys
  build [x, y]

theorem Gathers.extend_flatten (hg : g.WellFormed) (hx : g.Extends g') (hxs : ∀ x ∈ xs, x < g.size)
    (h : g.Gathers k (k.flatten g xs) y) : g'.Gathers k (k.flatten g' xs) y := by
  rw [Gathering.flatten_eq hx hg hxs]
  exact h.extend hg hx (Gathering.flatten_lt hg hxs)

theorem WellFormed.build_gathers (hg : g.WellFormed) (k : Gathering) (hxs : ∀ x ∈ xs, x < g.size) :
    Meets Overflow (k.build xs) g fun y g' =>
      y < g'.size ∧ g'.Gathers k (k.flatten g xs) y := by
  have hlt := Gathering.flatten_lt (k := k) hg hxs
  have heq := Gathering.build_eq k xs g
  have hz : (k.flatten g xs).any (g.hasValue 0) ↔ g.HasZero (k.flatten g xs) := by
    simp only [List.any_eq_true, hasValue, decide_eq_true_eq, HasZero]
  split_ifs at heq with hany
  · exact .of_eq_ok heq hg ⟨hg.zero_lt_size, .zero (hz.1 hany)⟩
  rw [hz] at hany
  rcases hys : k.flatten g xs with _ | ⟨x, _ | ⟨y, ys⟩⟩
  · rw [hys] at heq
    exact .of_eq_ok heq hg ⟨Gathering.unit_lt hg k, .unit⟩
  · rw [hys] at heq hany hlt
    exact .of_eq_ok heq hg ⟨hlt x List.mem_cons_self, .single hany⟩
  · rw [hys] at heq hany hlt
    have hp := List.mergeSort_perm (x :: y :: ys) (k.le g)
    have hlt' : ∀ z ∈ (x :: y :: ys).mergeSort (k.le g), z < g.size := fun z hz =>
      hlt z (hp.mem_iff.1 hz)
    have hsorted : g.Sorted ((x :: y :: ys).mergeSort (k.le g)) k.shape :=
      Gathering.sorted_shape_iff.2 (Gathering.pairwise_mergeSort hg _)
    apply Meets.congr heq
    apply (intern_node hg Gathering.not_isSymbol Gathering.shape_ne_call (Gathering.allows _)
      hlt').mono
    intro z g' hg' hx hnode
    obtain ⟨hz, hn⟩ := hnode
    exact ⟨hz, .node (fun h => hany ((hx.hasZero_iff hlt).1 h)) (Nat.le_add_left 2 _) hp
      (hx.sorted hg hlt' hsorted) hz hn⟩

/-- A construction that comes to the node for the operands `xs`. -/
def Gathering.Builds (k : Gathering) (xs : List NodeId) (m : Build NodeId) : Prop :=
  ∀ ⦃g : Graph⦄, g.Regular → (∀ x ∈ xs, x < g.size) → Meets Overflow m g fun y g' =>
    g'.Regular ∧ y < g'.size ∧ g'.Gathers k (k.flatten g' xs) y

theorem Gathering.builds (k : Gathering) (xs : List NodeId) : k.Builds xs (k.build xs) := by
  intro g hg hxs
  have hregular := hg.build k xs
  have hbuild := hg.toWellFormed.build_gathers k hxs
  have hbuild' : Meets Overflow (k.build xs) g fun _ g' => g'.Regular :=
    hbuild.mono_of_eq_ok fun y g' he => by
      rw [he] at hregular
      exact hregular
  apply (hbuild'.and hbuild).mono
  intro y g' _ hx ⟨hg', hy, hgathers⟩
  rw [Gathering.flatten_eq hx hg.toWellFormed hxs]
  exact ⟨hg', hy, hgathers⟩

/-- Two groups of operands that are gathered come to what all of the operands come to. -/
theorem Gathering.builds_grouped (k : Gathering) (xs ys : List NodeId) :
    k.Builds (xs ++ ys) (grouped k.build xs ys) := by
  intro g hg hall
  have hxs : ∀ x ∈ xs, x < g.size := fun x hx => hall x (List.mem_append_left ys hx)
  apply (k.builds xs hg hxs).bind
  intro x g₁ hwf₁ hx₁ ⟨hg₁, hlt, hx⟩
  have hys : ∀ y ∈ ys, y < g₁.size := fun y hy =>
    hx₁.lt_size (hall y (List.mem_append_right xs hy))
  apply (k.builds ys hg₁ hys).bind
  intro y g₂ hwf₂ hx₂ ⟨hg₂, hlt', hy⟩
  have hxy : ∀ z ∈ [x, y], z < g₂.size := by
    intro z hz
    rcases List.mem_pair.1 hz with rfl | rfl
    · exact hx₂.lt_size hlt
    · exact hlt'
  apply (k.builds [x, y] hg₂ hxy).mono
  intro z g₃ hwf₃ hx₃ ⟨hg₃, hlt'', hz⟩
  refine ⟨hg₃, hlt'', hz.congr ?_⟩
  have hkept : ∀ zs : List NodeId, ∀ z ∈ k.flatten g₃ zs,
      g₃.hasValue k.neutral z = false ∧ k.opens (g₃.node z) = false := fun zs z hz =>
    ⟨(Gathering.mem_flatten.1 hz).2, (hg₃.flatten k zs z hz).2⟩
  have hx := hx.extend_flatten hwf₁ (hx₂.trans hx₃) fun z hz => hx₁.lt_size (hxs z hz)
  have hy := hy.extend_flatten hwf₂ hx₃ fun z hz => hx₂.lt_size (hys z hz)
  rw [Gathering.flatten_append, ← List.singleton_append, Gathering.flatten_append]
  exact (hx.flatten hwf₃ (hkept xs)).append (hy.flatten hwf₃ (hkept ys))

/-- Two ways to gather the same operands come to one node. -/
theorem Gathering.Builds.both {m m' : Build NodeId} (h : k.Builds xs m) (h' : k.Builds ys m')
    (hp : xs.Perm ys) (hg : g.Regular) (hxs : ∀ x ∈ xs, x < g.size) :
    Meets Overflow (both m m') g fun p _ => p.1 = p.2 := by
  apply (h hg hxs).bind
  intro y g₁ hwf₁ hx₁ ⟨hg₁, _, hy⟩
  have hxs₁ : ∀ x ∈ xs, x < g₁.size := fun x hmem => hx₁.lt_size (hxs x hmem)
  apply (h' hg₁ fun x hmem => hxs₁ x (hp.mem_iff.2 hmem)).bind
  intro z g₂ hwf₂ hx₂ ⟨_, _, hz⟩
  have hy := hy.extend_flatten hwf₁ hx₂ hxs₁
  have hz := hz.congr (.of_perm (flatten_perm hp.symm))
  have hlt : ∀ x ∈ k.flatten g₂ xs, x < g₂.size :=
    flatten_lt hwf₂ fun x hmem => hx₂.lt_size (hxs₁ x hmem)
  exact .pure hwf₂ (hy.unique hwf₂ hlt hz)

theorem Regular.regroup_either (hg : g.Regular) (k : Gathering) (hxs : ∀ x ∈ xs, x < g.size)
    (hys : ∀ y ∈ ys, y < g.size) (hzs : zs.Perm (xs ++ ys)) :
    Meets Overflow (both (grouped k.build xs ys) (k.build zs)) g (fun p _ => p.1 = p.2) ∧
      Meets Overflow (both (k.build zs) (grouped k.build xs ys)) g (fun p _ => p.1 = p.2) := by
  have hall : ∀ z ∈ xs ++ ys, z < g.size := fun z hz =>
    (List.mem_append.1 hz).elim (hxs z) (hys z)
  have hall' : ∀ z ∈ zs, z < g.size := fun z hz => hall z (hzs.mem_iff.1 hz)
  exact ⟨(k.builds_grouped xs ys).both (k.builds zs) hzs.symm hg hall,
    (k.builds zs).both (k.builds_grouped xs ys) hzs hg hall'⟩

/--
In every graph that programs reach, the sum of two sums is the sum of all their operands in any
order, whichever is built first, and so it is with products. Only for lack of room may there be no
such node.
-/
theorem Reachable.regroup (hg : g.Reachable) (hxs : ∀ x ∈ xs, x < g.size)
    (hys : ∀ y ∈ ys, y < g.size) (hzs : zs.Perm (xs ++ ys)) :
    Meets Overflow (both (grouped sum xs ys) (sum zs)) g (fun p _ => p.1 = p.2) ∧
      Meets Overflow (both (sum zs) (grouped sum xs ys)) g (fun p _ => p.1 = p.2) ∧
      Meets Overflow (both (grouped product xs ys) (product zs)) g (fun p _ => p.1 = p.2) ∧
      Meets Overflow (both (product zs) (grouped product xs ys)) g (fun p _ => p.1 = p.2) := by
  obtain ⟨hsum, hsum'⟩ := hg.regular.regroup_either .sum hxs hys hzs
  obtain ⟨hproduct, hproduct'⟩ := hg.regular.regroup_either .product hxs hys hzs
  exact ⟨hsum, hsum', hproduct, hproduct'⟩

theorem twoPlaceholders_regroup :
    Meets Overflow (both (grouped sum [2, 0] [3]) (sum [3, 2, 0])) twoPlaceholders
      fun p _ => p.1 = p.2 := by
  have hxs : ∀ x ∈ [2, 0], x < twoPlaceholders.size := by decide
  have hys : ∀ y ∈ [3], y < twoPlaceholders.size := by decide
  have hp : [3, 2, 0].Perm ([2, 0] ++ [3]) := by decide
  exact (twoPlaceholders_reachable.regroup hxs hys hp).1

end ExactAlgebra.Graph
