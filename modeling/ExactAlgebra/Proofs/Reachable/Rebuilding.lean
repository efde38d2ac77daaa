import ExactAlgebra.Proofs.Graph.Replay
import ExactAlgebra.Proofs.Reachable.Canonical
import ExactAlgebra.Proofs.Reachable.Regrouping
import ExactAlgebra.Proofs.Transform.Substitution

/-!
Building nodes again. What a construction leads to it finds again in the graph that it leaves, and
in all larger ones. Expressions without self-reference are found from their own operands, however
they came about.
-/

namespace ExactAlgebra.Graph

variable {V : Vocabulary} {k : Gathering} {g g' t : Graph} {s : Shape} {x y z : NodeId}
variable {xs ys : List NodeId} {m m' : Build NodeId}

/-- A construction that finds its node again in every larger graph. -/
def Lasting (m : Build NodeId) (g : Graph) : Prop :=
  Meets Overflow m g fun y g' =>
    y < g'.size ∧ ∀ t, t.WellFormed → g'.Extends t → m t = .ok y t

namespace Lasting

theorem pure (hg : g.WellFormed) (hx : x < g.size) : Lasting (Pure.pure x) g :=
  Meets.pure hg ⟨hx, fun _ _ _ => rfl⟩

/-- Two constructions that do the same in all larger graphs. -/
theorem congr (h : Lasting m' g) (he : ∀ t, g.Extends t → m t = m' t) : Lasting m g := by
  apply Meets.congr (he g (.refl g))
  apply Meets.mono h
  intro y g' _ hx ⟨hy, hfound⟩
  exact ⟨hy, fun t ht hx' => (he t (hx.trans hx')).trans (hfound t ht hx')⟩

theorem lt_size (h : Lasting m g) (he : m g = .ok y g) : y < g.size := by
  rw [Lasting, Meets, he] at h
  exact h.2.2.1

/-- What is found is still found when the graph has grown. -/
theorem extends_ok (h : Lasting m g) (he : m g = .ok y g) (ht : t.WellFormed) (hx : g.Extends t) :
    m t = .ok y t := by
  rw [Lasting, Meets, he] at h
  exact h.2.2.2 t ht hx

end Lasting

theorem intern_lasting (hg : g.WellFormed) (hs : ¬ s.IsSymbol)
    (hcall : ∀ f, s = .call f → f ∈ g.callees) (harity : s.Allows xs.length)
    (hxs : ∀ x ∈ xs, x < g.size) : Lasting (intern s xs) g := by
  apply (intern_meets hg ⟨hxs, hcall, harity⟩).mono
  intro y g' _ _ ⟨hy, hn⟩
  exact ⟨hy, fun t ht hx => intern_eq_ok ht (hx.lt_size hy) ((hx.node_eq y hy).trans (hn hs)) hs⟩

/-- The node that stands for what is kept of the operands is found. -/
theorem Gathers.build (hg : g.WellFormed) (hxs : ∀ x ∈ xs, x < g.size)
    (h : g.Gathers k (k.flatten g xs) y) : k.build xs g = .ok y g := by
  have hlt := Gathering.flatten_lt (k := k) hg hxs
  have hz : (k.flatten g xs).any (g.hasValue 0) ↔ g.HasZero (k.flatten g xs) := by
    simp only [List.any_eq_true, hasValue, decide_eq_true_eq, HasZero]
  rw [Gathering.build_eq]
  generalize k.flatten g xs = fs at h hlt hz
  cases h with
  | zero hzero => exact if_pos (hz.2 hzero)
  | unit => rfl
  | single hzero => exact if_neg fun h => hzero (hz.1 h)
  | @node _ ys _ hzero hlen hp hs hy hn =>
    rw [if_neg fun h => hzero (hz.1 h)]
    have hsort : fs.mergeSort (k.le g) = ys := by
      apply Gathering.eq_of_perm hg _ ((List.mergeSort_perm fs _).trans hp.symm)
      · exact Gathering.pairwise_mergeSort hg fs
      · exact Gathering.sorted_shape_iff.1 hs
      · exact fun x hx => hlt x (List.mem_mergeSort.1 hx)
    rcases fs with _ | ⟨a, _ | ⟨b, fs⟩⟩
    · cases hlen
    · exact absurd hlen (Nat.not_succ_le_self 1)
    · dsimp only
      rw [hsort, intern_eq_ok hg hy hn Gathering.not_isSymbol]

theorem WellFormed.build_lasting (hg : g.WellFormed) (k : Gathering) (hxs : ∀ x ∈ xs, x < g.size) :
    Lasting (k.build xs) g := by
  apply (hg.build_gathers k hxs).mono
  intro y g' hg' hx ⟨hy, hgathers⟩
  refine ⟨hy, fun t ht hx' => ?_⟩
  apply Gathers.build ht fun x hmem => (hx.trans hx').lt_size (hxs x hmem)
  rw [Gathering.flatten_eq (hx.trans hx') hg hxs]
  exact hgathers.extend hg' hx' fun x hmem => hx.lt_size (Gathering.flatten_lt hg hxs x hmem)

theorem power_lasting (hg : g.WellFormed) (hx : x < g.size) (hy : y < g.size) :
    Lasting (power x y) g := by
  have hpower : ∀ t, g.Extends t →
      power x y t = (if g.hasValue 1 y then Pure.pure x else intern .power [x, y]) t := by
    intro t hx'
    rw [power, get_bind, hasValue, hx'.value?_eq hy, ← hasValue]
  refine Lasting.congr ?_ hpower
  split
  · exact .pure hg hx
  · exact intern_lasting hg id (fun _ => Shape.noConfusion) (by exact rfl) (by simp [hx, hy])

theorem WellFormed.leaf_operands (hg : g.WellFormed) (hs : (g.shape x).IsLeaf) :
    g.operands x = [] := by
  have harity := hg.arity x
  cases hshape : g.shape x with
  | constant | symbol =>
    rw [hshape] at harity
    exact List.eq_nil_of_length_eq_zero harity
  | _ =>
    rw [hshape] at hs
    exact hs.elim

/-! ### The ways to build a node anew -/

/-- How a node of a shape is built over operands. -/
inductive Plan (x : NodeId) : Shape → List NodeId → Build NodeId → Prop
  | keep {s : Shape} {xs : List NodeId} (hs : s.IsLeaf) : Plan x s xs (Pure.pure x)
  | gather {xs : List NodeId} (k : Gathering) : Plan x k.shape xs (k.build xs)
  | power (l r : NodeId) : Plan x .power [l, r] (Graph.power l r)
  | intern {s : Shape} {xs : List NodeId} (hs : ¬ s.IsLeaf) (hk : ∀ k : Gathering, s ≠ k.shape)
      (hp : s ≠ .power) : Plan x s xs (Graph.intern s xs)

theorem not_isSymbol_of_not_isLeaf (hs : ¬ s.IsLeaf) : ¬ s.IsSymbol := by
  cases s with
  | symbol => exact absurd trivial hs
  | _ => exact id

theorem exists_plan (x : NodeId) (harity : s.Allows xs.length) :
    ∃ m, Plan x s xs m ∧ ∀ g : Graph, g.shape x = s → withOperands x xs g = m g := by
  have hpair : xs.length = 2 → ∃ l r, xs = [l, r] := List.length_eq_two.1
  have hintern : ¬ s.IsLeaf → (∀ k : Gathering, s ≠ k.shape) → s ≠ .power →
      (∀ g : Graph, g.shape x = s → withOperands x xs g = Graph.intern s xs g) →
      ∃ m, Plan x s xs m ∧ ∀ g : Graph, g.shape x = s → withOperands x xs g = m g :=
    fun hs hk hp he => ⟨_, .intern hs hk hp, he⟩
  have hk : s ≠ .sum → s ≠ .product → ∀ k : Gathering, s ≠ k.shape := by
    intro hsum hproduct k
    cases k
    · exact hsum
    · exact hproduct
  cases s with
  | constant | symbol =>
    refine ⟨_, .keep trivial, fun g hs => ?_⟩
    rw [withOperands, get_bind, hs]
  | sum =>
    refine ⟨_, .gather .sum, fun g hs => ?_⟩
    rw [withOperands, get_bind, hs]
    rfl
  | product =>
    refine ⟨_, .gather .product, fun g hs => ?_⟩
    rw [withOperands, get_bind, hs]
    rfl
  | power =>
    obtain ⟨l, r, rfl⟩ := hpair harity
    refine ⟨_, .power l r, fun g hs => ?_⟩
    rw [withOperands, get_bind, hs]
    rfl
  | binary op | arrow =>
    obtain ⟨l, r, rfl⟩ := hpair harity
    refine hintern id (hk nofun nofun) nofun fun g hs => ?_
    rw [withOperands, get_bind, hs]
    rfl
  | unary op =>
    obtain ⟨l, rfl⟩ := List.length_eq_one_iff.1 harity
    refine hintern id (hk nofun nofun) nofun fun g hs => ?_
    rw [withOperands, get_bind, hs]
    rfl
  | call f =>
    refine hintern id (hk nofun nofun) nofun fun g hs => ?_
    rw [withOperands, get_bind, hs]
  | set =>
    refine hintern id (hk nofun nofun) nofun fun g hs => ?_
    rw [withOperands, get_bind, hs]
    rfl

theorem withOperands_lasting (hg : g.WellFormed) (hx : x < g.size)
    (harity : (g.shape x).Allows xs.length) (hxs : ∀ y ∈ xs, y < g.size) :
    Lasting (withOperands x xs) g := by
  obtain ⟨m, hplan, he⟩ := exists_plan x harity
  refine Lasting.congr ?_ fun t hext => he t (hext.shape_eq hx)
  have hcall : ∀ f, g.shape x = .call f → f ∈ g.callees := hg.callee_mem x
  generalize g.shape x = s at hplan hcall harity
  cases hplan with
  | keep => exact .pure hg hx
  | gather k => exact hg.build_lasting k hxs
  | power l r => exact power_lasting hg (hxs l (by simp)) (hxs r (by simp))
  | intern hs => exact intern_lasting hg (not_isSymbol_of_not_isLeaf hs) hcall harity hxs

/-! ### What is built over operands -/

theorem Meets.of_eq {α : Type} {E : Error → Graph → Prop} {Q : α → Graph → Prop} {m : Build α}
    {a : α} (h : Meets E m g Q) (he : m g = .ok a g') : Q a g' := by
  rw [Meets, he] at h
  exact h.2.2

/-- What a node of the kind of `x` over the operands `ys` comes to. -/
inductive Rebuilt (g : Graph) (x : NodeId) (ys : List NodeId) : NodeId → Prop
  | leaf (hs : (g.shape x).IsLeaf) : Rebuilt g x ys x
  | gathered {k : Gathering} {y : NodeId} (hs : g.shape x = k.shape)
      (h : g.Gathers k (k.flatten g ys) y) : Rebuilt g x ys y
  | base {y e : NodeId} (hs : g.shape x = .power) (hys : ys = [y, e]) (he : g.hasValue 1 e) :
      Rebuilt g x ys y
  | node {y : NodeId} (hs : ¬ (g.shape x).IsLeaf) (hk : ∀ k : Gathering, g.shape x ≠ k.shape)
      (hy : y < g.size) (hn : g.node y = { shape := g.shape x, operands := ys }) : Rebuilt g x ys y

theorem withOperands_leaf (hs : (g.shape x).IsLeaf) : withOperands x ys g = .ok x g := by
  rw [withOperands, get_bind]
  cases hshape : g.shape x with
  | constant | symbol => rfl
  | _ =>
    rw [hshape] at hs
    exact hs.elim

theorem withOperands_gathering (hs : g.shape x = k.shape) : withOperands x ys g = k.build ys g := by
  rw [withOperands, get_bind, hs]
  cases k <;> rfl

theorem withOperands_congr (hleaf : ¬ (g.shape x).IsLeaf) (hs : g.shape y = g.shape x) :
    withOperands y ys g = withOperands x ys g := by
  rw [withOperands, get_bind, withOperands, get_bind, hs]
  cases hshape : g.shape x with
  | constant | symbol =>
    rw [hshape] at hleaf
    exact absurd trivial hleaf
  | _ => rfl

theorem rebuilt_of_withOperands (hg : g.WellFormed) (harity : (g.shape x).Allows ys.length)
    (hys : ∀ y ∈ ys, y < g.size) (h : withOperands x ys g = .ok y g) : Rebuilt g x ys y := by
  obtain ⟨m, hplan, he⟩ := exists_plan x harity
  rw [he g rfl] at h
  have hcall : ∀ f, g.shape x = .call f → f ∈ g.callees := hg.callee_mem x
  generalize hs : g.shape x = s at hplan hcall harity
  cases hplan with
  | keep hleaf =>
    cases h
    exact .leaf (hs ▸ hleaf)
  | gather k => exact .gathered hs ((hg.build_gathers k hys).of_eq h).2
  | power l r =>
    rw [power, get_bind] at h
    split at h
    · next hone =>
      cases h
      exact .base hs rfl hone
    · obtain ⟨hy, hn⟩ := (intern_meets hg ⟨hys, hcall, harity⟩).of_eq h
      refine .node (hs ▸ id) (fun k => ?_) hy (hs ▸ hn id)
      exact fun hk => Gathering.shape_ne_power (hk.symm.trans hs)
  | intern hleaf hk =>
    obtain ⟨hy, hn⟩ := (intern_meets hg ⟨hys, hcall, harity⟩).of_eq h
    exact .node (hs ▸ hleaf) (hs ▸ hk) hy (hs ▸ hn (not_isSymbol_of_not_isLeaf hleaf))

/-! ### What holds of all that is built

A property that sums and products hand on to their operands, and that new nodes take over from
theirs, holds of what is built over operands if it holds of these. -/

section Closed

variable {P : NodeId → Prop}

theorem Gathering.flatten_closed (hparts : ∀ x, P x → g.isLoop x = false → ∀ y ∈ g.operands x, P y)
    (hxs : ∀ x ∈ xs, P x) : ∀ x ∈ k.flatten g xs, P x := by
  intro x hx
  obtain ⟨⟨y, hy, hx⟩, -⟩ := mem_flatten.1 hx
  rw [parts] at hx
  split at hx
  · next hopens => exact hparts y (hxs y hy) (opens_iff.1 hopens).2 x hx
  · exact List.mem_singleton.1 hx ▸ hxs y hy

theorem Gathers.closed (hunit : ∀ k : Gathering, P k.unit) (hxs : ∀ x ∈ xs, P x)
    (hnode : y < g.size → g.isLoop y = false → ¬ (g.shape y).IsLeaf →
      (∀ z ∈ g.operands y, P z) → P y) (h : g.Gathers k xs y) : P y := by
  cases h with
  | zero => exact hunit .sum
  | unit => exact hunit k
  | single => exact hxs y (List.mem_singleton_self y)
  | node _ _ hp _ hy hn =>
    refine hnode hy (congrArg Node.isLoop hn) ?_ fun z hz => hxs z (hp.mem_iff.1 ?_)
    · rw [shape, hn]
      cases k <;> exact id
    · rwa [operands, hn] at hz

theorem Rebuilt.closed (hunit : ∀ k : Gathering, P k.unit)
    (hparts : ∀ x, P x → g.isLoop x = false → ∀ y ∈ g.operands x, P y)
    (hleaf : (g.shape x).IsLeaf → P x) (hys : ∀ y ∈ ys, P y)
    (hnode : y < g.size → g.isLoop y = false → ¬ (g.shape y).IsLeaf →
      (∀ z ∈ g.operands y, P z) → P y) (h : g.Rebuilt x ys y) : P y := by
  cases h with
  | leaf hs => exact hleaf hs
  | gathered _ h => exact h.closed hunit (Gathering.flatten_closed hparts hys) hnode
  | base _ hys' => exact hys y (by simp [hys'])
  | node hs _ hy hn =>
    refine hnode hy (congrArg Node.isLoop hn) ?_ ?_
    · rwa [shape, hn]
    · rwa [operands, hn]

end Closed

/-! ### Nodes that are their own sums and products -/

/-- Alone, the node is its own sum and product. Only what refers to itself can fail to be so: an
order that was lost when a placeholder was closed, or a closed `0` or `1`. -/
def Settled (g : Graph) (x : NodeId) : Prop := ∀ k : Gathering, k.build [x] g = .ok x g

theorem Settled.extend (h : g.Settled x) (hg : g.WellFormed) (hx : x < g.size)
    (hg' : g'.WellFormed) (hext : g.Extends g') : g'.Settled x := fun k =>
  (hg.build_lasting k (by simpa using hx)).extends_ok (h k) hg' hext

theorem Elementary.settled (hg : g.Regular) (hx : g.Elementary V x) : g.Settled x :=
  hg.build_singleton hx

theorem settled_of_shape (hs : ¬ (g.shape x).IsLeaf) (hk : ∀ k : Gathering, g.shape x ≠ k.shape) :
    g.Settled x := by
  intro k
  have hvalue : g.value? x = none := by
    rw [value?]
    cases hshape : g.shape x with
    | constant q =>
      rw [hshape] at hs
      exact absurd trivial hs
    | _ => rfl
  rw [Gathering.build_eq, Gathering.flatten_singleton,
    Gathering.parts_of_not_opens (Gathering.not_opens_of_shape (hk k))]
  simp [hasValue, hvalue]

theorem value?_of_gathering (hs : g.shape x = k.shape) : g.value? x = none := by
  rw [value?, hs]
  cases k <;> rfl

/-- A node with the value of a unit is the unit. -/
theorem Settled.eq_unit (h : g.Settled x) (hv : g.hasValue k.neutral x) : x = k.unit := by
  have hopens : k.opens (g.node x) = false := Gathering.not_opens_of_shape fun hs => by
    rw [hasValue, value?_of_gathering hs] at hv
    cases hv
  have hbuild := h k
  rw [Gathering.build_eq, Gathering.flatten_singleton, Gathering.parts_of_not_opens hopens,
    List.filter_singleton, hv] at hbuild
  cases hbuild
  rfl

/-- A sum or product that is taken over as a whole is taken over with all its operands. -/
theorem Settled.flatten_self (h : g.Settled x) (hg : g.WellFormed) (hx : x < g.size)
    (hl : g.isLoop x = false) (hs : g.shape x = k.shape) : k.flatten g [x] = g.operands x := by
  have hlt : ∀ y ∈ [x], y < g.size := by simpa using hx
  have hgathers : g.Gathers k (k.flatten g [x]) x := ((hg.build_gathers k hlt).of_eq (h k)).2
  have hflatten : k.flatten g [x] = (g.operands x).filter fun y => !g.hasValue k.neutral y := by
    rw [Gathering.flatten_singleton, Gathering.parts_of_opens (Gathering.opens_iff.2 ⟨hs, hl⟩)]
  have hsub : (k.flatten g [x]).Sublist (g.operands x) := hflatten ▸ List.filter_sublist
  have hunit : ∀ k' : Gathering, x ≠ k'.unit := by
    rintro k' rfl
    rw [shape, Gathering.node_unit hg] at hs
    cases k <;> cases hs
  generalize k.flatten g [x] = fs at hgathers hsub ⊢
  cases hgathers with
  | zero => exact absurd rfl (hunit .sum)
  | unit => exact absurd rfl (hunit k)
  | single =>
    have hmem : x ∈ g.operands x := hsub.subset (List.mem_singleton_self x)
    exact absurd (hg.operands_lt x hl x hmem) (Nat.lt_irrefl x)
  | node _ _ hp _ _ hn =>
    have hops : g.operands x = _ := congrArg Node.operands hn
    exact hsub.eq_of_length (hops ▸ hp.length_eq.symm)

/-- What is gathered from operands that are their own sums and products is so itself. -/
theorem Gathers.settled (hg : g.Regular) (hall : ∀ x ∈ xs, g.Settled x)
    (h : g.Gathers k (k.flatten g xs) y) : g.Settled y := by
  have hkept : ∀ z ∈ k.flatten g xs, g.hasValue k.neutral z = false := fun z hz =>
    (Gathering.mem_flatten.1 hz).2
  have hmem : ∀ z ∈ k.flatten g xs, ∃ x ∈ xs, z ∈ k.flatten g [x] ∧
      (k.flatten g [x]).Sublist (k.flatten g xs) := by
    intro z hz
    obtain ⟨⟨x, hx, hparts⟩, hvalue⟩ := Gathering.mem_flatten.1 hz
    refine ⟨x, hx, Gathering.mem_flatten.2 ⟨⟨x, List.mem_singleton_self x, hparts⟩, hvalue⟩, ?_⟩
    exact ((List.singleton_sublist.2 hx).flatMap _).filter _
  generalize k.flatten g xs = fs at h hkept hmem
  cases h with
  | zero => exact (hg.elementary_zero (V := .all)).settled hg
  | unit =>
    cases k with
    | sum => exact (hg.elementary_zero (V := .all)).settled hg
    | product => exact (hg.elementary_one (V := .all)).settled hg
  | single hz =>
    -- The operand that it is a part of has no other part, and so comes to it when built alone.
    obtain ⟨x, hx, hy, hsub⟩ := hmem y (List.mem_singleton_self y)
    have hparts : k.flatten g [x] = [y] := by
      rcases List.sublist_singleton.1 hsub with h | h
      · rw [h] at hy
        cases hy
      · exact h
    have hbuild := hall x hx k
    rw [Gathering.build_eq, hparts, if_neg (by simpa [HasZero, hasValue] using hz)] at hbuild
    cases hbuild
    exact hall y hx
  | @node _ ys _ hz hlen hp hs hy hn =>
    have hshape : g.shape y = k.shape := congrArg Node.shape hn
    have hloop : g.isLoop y = false := congrArg Node.isLoop hn
    intro k'
    apply Gathers.build hg.toWellFormed (by simpa using hy)
    rw [Gathering.flatten_singleton]
    by_cases hk : g.shape y = k'.shape
    · obtain rfl := Gathering.shape_injective (hshape.symm.trans hk)
      have hops : g.operands y = ys := congrArg Node.operands hn
      have hfilter : ys.filter (fun x => !g.hasValue k.neutral x) = ys := by
        rw [List.filter_eq_self]
        intro x hx
        rw [hkept x (hp.mem_iff.1 hx)]
        rfl
      rw [Gathering.parts_of_opens (Gathering.opens_iff.2 ⟨hk, hloop⟩), hops, hfilter]
      exact (Gathers.node hz hlen hp hs hy hn).congr (.of_perm hp.symm)
    · rw [Gathering.parts_of_not_opens (Gathering.not_opens_of_shape hk), List.filter_singleton]
      have hvalue := value?_of_gathering hshape
      simp only [hasValue, hvalue]
      exact .single (by simp [HasZero, hvalue])

theorem Rebuilt.settled (hg : g.Regular) (hx : (g.shape x).IsLeaf → g.Settled x)
    (hys : ∀ y ∈ ys, g.Settled y) (h : g.Rebuilt x ys y) : g.Settled y := by
  cases h with
  | leaf hs => exact hx hs
  | gathered _ h => exact h.settled hg hys
  | base _ hys' => exact hys y (by simp [hys'])
  | node hleaf hk _ hn =>
    have hshape : g.shape y = g.shape x := by rw [shape, hn]
    exact settled_of_shape (hshape ▸ hleaf) fun k => hshape ▸ hk k

/-! ### Nodes over their own operands -/

theorem node_eq_of_not_isLoop (hl : g.isLoop x = false) :
    g.node x = { shape := g.shape x, operands := g.operands x } := by
  have hfields : g.node x = ⟨g.shape x, g.operands x, g.isLoop x⟩ := rfl
  rw [hfields, hl]

theorem withOperands_regular (hg : g.Regular) (x : NodeId) (xs : List NodeId) :
    (final (withOperands x xs g)).Regular :=
  withOperands_holds regularizing x xs g hg

/-- The operands of a sum or product are kept as they are when it is built over them. -/
theorem Regular.flatten_operands_eq (hg : g.Regular) (hl : g.isLoop x = false)
    (hs : g.shape x = k.shape) : k.flatten g (g.operands x) = k.flatten g [x] := by
  have hkept : ∀ y ∈ g.operands x, k.opens (g.node y) = false := fun y hy =>
    ((hg.admits x hl).gathered k hs y hy).2.2
  have hparts : (g.operands x).flatMap (k.parts g) = (g.operands x).flatMap fun y => [y] :=
    List.flatMap_congr fun y hy => Gathering.parts_of_not_opens (hkept y hy)
  rw [Gathering.flatten_singleton, Gathering.parts_of_opens (Gathering.opens_iff.2 ⟨hs, hl⟩),
    Gathering.flatten, hparts, List.flatMap_singleton']

/-- Over its own operands, a node that is no loop is built again. -/
theorem withOperands_operands (hg : g.Regular) (hx : x < g.size) (hl : g.isLoop x = false)
    (hsettled : g.Settled x) (hops : ∀ y ∈ g.operands x, g.Settled y) :
    withOperands x (g.operands x) g = .ok x g := by
  obtain ⟨m, hplan, he⟩ := exists_plan x (hg.arity x)
  rw [he g rfl]
  have hnode := node_eq_of_not_isLoop hl
  generalize hs : g.shape x = s at hplan hnode
  generalize hxs : g.operands x = xs at hplan hnode
  cases hplan with
  | keep => rfl
  | gather k =>
    rw [Gathering.build_eq, ← hxs, hg.flatten_operands_eq hl hs, ← Gathering.build_eq, hsettled k]
  | power l r =>
    have hone : g.hasValue 1 r = false := by
      rw [Bool.eq_false_iff]
      intro h
      obtain rfl := (hops r (by simp [hxs])).eq_unit (k := .product) h
      exact (hg.admits x hl).exponent hs l hxs
    rw [power, get_bind, hone, if_neg Bool.false_ne_true]
    exact intern_eq_ok hg.toWellFormed hx hnode id
  | intern hleaf =>
    exact intern_eq_ok hg.toWellFormed hx hnode (not_isSymbol_of_not_isLeaf hleaf)

end ExactAlgebra.Graph
