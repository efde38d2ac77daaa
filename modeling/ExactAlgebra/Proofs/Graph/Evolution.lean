import ExactAlgebra.Proofs.Graph.Construction

/-!
How graphs change when placeholders are closed too. A node stays what it is, unless it is a symbol
that becomes self-referential.
-/

namespace ExactAlgebra.Graph

variable {α β : Type} {g g' g'' : Graph} {x y : NodeId}

/-- `g'` has the nodes of `g`, some symbols among which may have been closed, and maybe more. -/
structure Evolves (g g' : Graph) : Prop where
  size_le : g.size ≤ g'.size
  node_eq : ∀ x, x < g.size →
    g'.node x = g.node x ∨ ((g.shape x).IsSymbol ∧ g'.isLoop x = true)

theorem Extends.evolves (h : g.Extends g') : g.Evolves g' :=
  ⟨h.size_le, fun x hx => .inl (h.node_eq x hx)⟩

theorem Evolves.refl (g : Graph) : g.Evolves g := (Extends.refl g).evolves

theorem Evolves.lt_size (h : g.Evolves g') (hx : x < g.size) : x < g'.size :=
  hx.trans_le h.size_le

theorem Evolves.trans (h : g.Evolves g') (h' : g'.Evolves g'') : g.Evolves g'' := by
  refine ⟨h.size_le.trans h'.size_le, fun x hx => ?_⟩
  have hstep := h'.node_eq x (h.lt_size hx)
  rcases h.node_eq x hx with he | ⟨hs, hl⟩
  · rw [shape, he] at hstep
    exact hstep
  · rcases hstep with he | ⟨-, hl'⟩
    · right
      rw [isLoop, he]
      exact ⟨hs, hl⟩
    · exact .inr ⟨hs, hl'⟩

/-- Nodes that are no symbols never change. -/
theorem Evolves.node_eq_of_not_isSymbol (h : g.Evolves g') (hx : x < g.size)
    (hs : ¬ (g.shape x).IsSymbol) : g'.node x = g.node x :=
  (h.node_eq x hx).resolve_right fun hn => hs hn.1

/-- `g'` came from `g` by adding nodes, closing symbols and calling functions. -/
structure Develops (g g' : Graph) : Prop extends Evolves g g' where
  callees_prefix : g.callees.toList <+: g'.callees.toList

theorem Extends.develops (h : g.Extends g') : g.Develops g' := ⟨h.evolves, h.callees_prefix⟩

theorem GrowsTo.evolves (h : g.GrowsTo g') : g.Evolves g' := h.toExtends.evolves

theorem GrowsTo.develops (h : g.GrowsTo g') : g.Develops g' := h.toExtends.develops

theorem Develops.lt_size (h : g.Develops g') {i : NodeId} (hi : i < g.size) : i < g'.size :=
  h.toEvolves.lt_size hi

theorem Develops.refl (g : Graph) : g.Develops g := (Extends.refl g).develops

theorem Develops.trans (h : g.Develops g') (h' : g'.Develops g'') : g.Develops g'' :=
  ⟨h.toEvolves.trans h'.toEvolves, h.callees_prefix.trans h'.callees_prefix⟩

/-- A construction that keeps graphs well formed and changes them in a given way only, whatever its
outcome. -/
def Changing (R : Graph → Graph → Prop) (m : Build α) : Prop :=
  ∀ ⦃g : Graph⦄, g.WellFormed →
    match m g with
    | .ok _ g' => g'.WellFormed ∧ R g g'
    | .error _ g' => g'.WellFormed ∧ R g g'

/-- A construction that keeps graphs well formed and lets them evolve, whatever its outcome. -/
def Evolving (m : Build α) : Prop :=
  ∀ ⦃g : Graph⦄, g.WellFormed →
    match m g with
    | .ok _ g' => g'.WellFormed ∧ g.Evolves g'
    | .error _ g' => g'.WellFormed ∧ g.Evolves g'

abbrev Developing (m : Build α) : Prop := Changing Develops m

theorem Changing.mono {R R' : Graph → Graph → Prop} {m : Build α} (h : Changing R m)
    (hR : ∀ g g', g'.WellFormed → R g g' → R' g g') : Changing R' m := by
  intro g hg
  have hm := h hg
  cases he : m g with
  | ok a g' =>
    rw [he] at hm
    exact ⟨hm.1, hR g g' hm.1 hm.2⟩
  | error e g' =>
    rw [he] at hm
    exact ⟨hm.1, hR g g' hm.1 hm.2⟩

theorem Changing.final {R : Graph → Graph → Prop} {m : Build α} (h : Changing R m)
    (hg : g.WellFormed) : (final (m g)).WellFormed ∧ R g (final (m g)) := by
  have hm := h hg
  cases he : m g <;> rw [he] at hm <;> exact hm

theorem Grows.changing {m : Build α} (h : Grows m) : Changing GrowsTo m := by
  intro g hg
  have hm := h hg
  unfold Meets at hm
  cases he : m g with
  | ok a g' =>
    rw [he] at hm
    exact ⟨hm.1, hm.2.1⟩
  | error e g' =>
    rw [he] at hm
    exact ⟨hm.1, hm.2.1⟩

theorem Grows.developing {m : Build α} (h : Grows m) : Developing m :=
  h.changing.mono fun _ _ _ hx => hx.develops

theorem Grows.evolving {m : Build α} (h : Grows m) : Evolving m :=
  h.changing.mono fun _ _ _ hx => hx.evolves

theorem Developing.bind {m : Build α} {f : α → Build β} (hm : Developing m)
    (hf : ∀ a, Developing (f a)) : Developing (m >>= f) := by
  intro g hg
  have h := hm hg
  simp only [Bind.bind, EStateM.bind]
  cases he : m g with
  | error e g' =>
    rw [he] at h
    exact h
  | ok a g' =>
    rw [he] at h
    obtain ⟨hg', hx⟩ := h
    have h' := hf a hg'
    cases he' : f a g' with
    | ok b g'' =>
      simp only [he'] at h' ⊢
      exact ⟨h'.1, hx.trans h'.2⟩
    | error e g'' =>
      simp only [he'] at h' ⊢
      exact ⟨h'.1, hx.trans h'.2⟩

theorem Developing.get {f : Graph → Build β} (hf : ∀ g, Developing (f g)) :
    Developing (MonadState.get >>= f) :=
  fun g hg => hf g hg

theorem Developing.ite {c : Prop} [Decidable c] {m m' : Build α} (h : Developing m)
    (h' : Developing m') : Developing (if c then m else m') := by
  split
  · exact h
  · exact h'

/-- A construction that starts from `g` ends well, with an outcome in `Q`, or with an error in `E`.
In both cases it has changed the graph in a given way, and left it well formed. -/
def Changes (R : Graph → Graph → Prop) (E : Error → Graph → Prop) (m : Build α) (g : Graph)
    (Q : α → Graph → Prop) : Prop :=
  match m g with
  | .ok a g' => g'.WellFormed ∧ R g g' ∧ Q a g'
  | .error e g' => g'.WellFormed ∧ R g g' ∧ E e g'

section Changes

variable {R : Graph → Graph → Prop} {E E' : Error → Graph → Prop} {Q : α → Graph → Prop}

theorem Changes.pure {a : α} (hg : g.WellFormed) (hR : R g g) (h : Q a g) :
    Changes R E (Pure.pure a : Build α) g Q :=
  ⟨hg, hR, h⟩

theorem Changes.get {f : Graph → Build α} (h : Changes R E (f g) g Q) :
    Changes R E (MonadState.get >>= f) g Q := h

theorem Changes.ite {c : Prop} [Decidable c] {m m' : Build α} (h : c → Changes R E m g Q)
    (h' : ¬ c → Changes R E m' g Q) : Changes R E (if c then m else m') g Q := by
  split
  · exact h ‹_›
  · exact h' ‹_›

theorem Changes.mono_error {m : Build α} (h : Changes R E m g Q) (hE : ∀ e g', E e g' → E' e g') :
    Changes R E' m g Q := by
  unfold Changes at h ⊢
  cases he : m g with
  | ok a g' => simpa only [he] using h
  | error e g' =>
    simp only [he] at h ⊢
    exact ⟨h.1, h.2.1, hE e g' h.2.2⟩

/-- What has grown may go on in any way that makes up a change as a whole. -/
theorem Meets.bind_changes {m : Build α} {f : α → Build β} {Q' : β → Graph → Prop}
    (hm : Meets E m g Q) (hR : ∀ g', g'.WellFormed → g.GrowsTo g' → R g g')
    (hE : ∀ e g', E e g' → E' e g')
    (hf : ∀ a g', g'.WellFormed → g.GrowsTo g' → Q a g' →
      Changes (fun _ g'' => R g g'') E' (f a) g' Q') : Changes R E' (m >>= f) g Q' := by
  unfold Meets at hm
  unfold Changes
  simp only [Bind.bind, EStateM.bind]
  cases he : m g with
  | error e g' =>
    rw [he] at hm
    exact ⟨hm.1, hR g' hm.1 hm.2.1, hE e g' hm.2.2⟩
  | ok a g' =>
    rw [he] at hm
    exact hf a g' hm.1 hm.2.1 hm.2.2

end Changes

/-! ### Placeholders -/

/-- A node that is not entered in the index. -/
theorem WellFormed.push (hg : g.WellFormed) {n : Node} (hn : g.Fits n) (hs : n.shape.IsSymbol) :
    (g.push n).WellFormed := by
  obtain ⟨hlt, hlt', hcallee, harity⟩ := hg.nodes_push hn
  refine ⟨getElem?_push_of_some hg.zero_node, getElem?_push_of_some hg.one_node, hlt, hlt', ?_, ?_,
    ?_, hcallee, harity⟩
  · intro k x hk
    rw [size_push]
    exact Nat.lt_succ_of_lt (hg.index_lt_size k x hk)
  · intro k x hk hs
    exact (node_push_lt n (hg.index_lt_size k x hk)).trans (hg.index_node k x hk hs)
  · intro x hx hl hns
    rw [size_push] at hx
    rcases Nat.lt_succ_iff_lt_or_eq.1 hx with hx | rfl
    · simp only [shape, operands, isLoop, node_push_lt n hx] at hl hns ⊢
      exact hg.node_index x hx hl hns
    · rw [shape, node_push_self] at hns
      exact absurd hs hns

/-- A placeholder is a new node. -/
theorem openLoop_meets (hg : g.WellFormed) (label : String) :
    Meets Overflow (openLoop label) g fun x g' =>
      x = g.size ∧ x < g'.size ∧ g'.node x = { shape := .symbol label } := by
  have hfit : g.Fits { shape := .symbol label } :=
    ⟨fun y hy => absurd hy List.not_mem_nil, fun _ => Shape.noConfusion, rfl⟩
  rw [Meets, openLoop, append_eq]
  by_cases hc : capacity ≤ g.size
  · rw [if_pos hc]
    exact ⟨hg, .refl g, rfl, hc⟩
  · rw [if_neg hc]
    refine ⟨hg.push hfit trivial, growsTo_push g rfl, rfl, ?_, node_push_self g _⟩
    rw [size_push]
    exact Nat.lt_succ_self _

theorem openLoop_grows (label : String) : Grows (openLoop label) :=
  fun _ hg => (openLoop_meets hg label).grows

/-- The graph in which a node has become self-referential, with the structure of another. -/
def close (g : Graph) (x y : NodeId) (label : String) : Graph :=
  { g with
    labels := g.labels.insert x label
    nodes := g.nodes.setIfInBounds x { g.node y with isLoop := true } }

theorem size_close (g : Graph) (x y : NodeId) (label : String) :
    (g.close x y label).size = g.size := Array.size_setIfInBounds

theorem node_close_self (hx : x < g.size) (y : NodeId) (label : String) :
    (g.close x y label).node x = { g.node y with isLoop := true } := by
  simp only [node, close, Array.getElem?_setIfInBounds_self_of_lt hx, Option.getD_some]

theorem node_close_ne {z : NodeId} (hz : z ≠ x) (y : NodeId) (label : String) :
    (g.close x y label).node z = g.node z := by
  simp only [node, close, Array.getElem?_setIfInBounds_ne (Ne.symm hz)]

theorem getElem?_close_of_ne {z : NodeId} (hz : z ≠ x) (y : NodeId) (label : String) :
    (g.close x y label).nodes[z]? = g.nodes[z]? := by
  simp only [close, Array.getElem?_setIfInBounds_ne (Ne.symm hz)]

theorem WellFormed.close (hg : g.WellFormed) (hx : x < g.size) (hs : (g.shape x).IsSymbol)
    (y : NodeId) (label : String) : (g.close x y label).WellFormed := by
  have hzero : zero ≠ x := by
    rintro rfl
    rw [shape, hg.node_zero] at hs
    exact hs
  have hone : one ≠ x := by
    rintro rfl
    rw [shape, hg.node_one] at hs
    exact hs
  have hself := node_close_self hx y label
  have hnode : ∀ {z}, z ≠ x → (g.close x y label).node z = g.node z := fun hz =>
    node_close_ne hz y label
  have hopen : ∀ {z}, (g.close x y label).isLoop z = false → z ≠ x := by
    rintro z hl rfl
    rw [isLoop, hself] at hl
    cases hl
  exact {
    zero_node := (getElem?_close_of_ne hzero y label).trans hg.zero_node
    one_node := (getElem?_close_of_ne hone y label).trans hg.one_node
    operands_lt := by
      intro z hl u hu
      have hz := hopen hl
      rw [isLoop, hnode hz] at hl
      rw [operands, hnode hz] at hu
      exact hg.operands_lt z hl u hu
    operands_lt_size := by
      intro z u hu
      rw [size_close]
      by_cases hz : z = x
      · rw [operands, hz, hself] at hu
        exact hg.operands_lt_size y u hu
      · rw [operands, hnode hz] at hu
        exact hg.operands_lt_size z u hu
    index_lt_size := by
      intro k z hk
      rw [size_close]
      exact hg.index_lt_size k z hk
    index_node := by
      intro k z hk hns
      have hz : z ≠ x := by
        rintro rfl
        rw [shape, hg.index_node k z hk hns] at hs
        exact hns hs
      rw [hnode hz]
      exact hg.index_node k z hk hns
    node_index := by
      intro z hlt hl hns
      have hz := hopen hl
      rw [size_close] at hlt
      rw [shape, hnode hz] at hns
      rw [isLoop, hnode hz] at hl
      rw [shape, operands, hnode hz]
      exact hg.node_index z hlt hl hns
    callee_mem := by
      intro z f hf
      by_cases hz : z = x
      · rw [shape, hz, hself] at hf
        exact hg.callee_mem y f hf
      · rw [shape, hnode hz] at hf
        exact hg.callee_mem z f hf
    arity := by
      intro z
      by_cases hz : z = x
      · rw [shape, operands, hz, hself]
        exact hg.arity y
      · rw [shape, operands, hnode hz]
        exact hg.arity z }

theorem develops_close (hx : x < g.size) (hs : (g.shape x).IsSymbol) (y : NodeId)
    (label : String) : g.Develops (g.close x y label) := by
  refine ⟨⟨(size_close g x y label).ge, fun z hz => ?_⟩, List.prefix_rfl⟩
  by_cases he : z = x
  · subst he
    right
    rw [isLoop, node_close_self hx]
    exact ⟨hs, rfl⟩
  · exact .inl (node_close_ne he y label)

/-- A placeholder is closed, or nothing happens. -/
theorem closeLoop_cases (x y : NodeId) (g : Graph) :
    (∃ e, closeLoop x y g = .error e g) ∨
      ∃ label, x < g.size ∧ g.shape x = .symbol label ∧ g.isLoop x = false ∧
        closeLoop x y g = .ok () (g.close x y label) := by
  by_cases hc : g.contains x && g.contains y
  swap
  · left
    refine ⟨.closingUnknownNode, ?_⟩
    rw [closeLoop, get_bind, if_pos (Bool.not_eq_true' _ ▸ Bool.eq_false_iff.2 hc)]
    rfl
  have hx : x < g.size := by
    rw [Bool.and_eq_true] at hc
    exact of_decide_eq_true hc.1
  rw [closeLoop, get_bind, if_neg (by rw [hc]; decide)]
  simp only [close, shape, isLoop]
  rcases g.node x with ⟨s, xs, l⟩
  cases l with
  | true =>
    left
    refine ⟨.closingNonPlaceholder, ?_⟩
    cases s <;> rfl
  | false =>
    cases s with
    | symbol label => exact .inr ⟨label, hx, rfl, rfl, rfl⟩
    | _ => exact .inl ⟨.closingNonPlaceholder, rfl⟩

/-- A placeholder of the graph is closed over any node of it. -/
theorem closeLoop_eq {label : String} (hx : x < g.size) (hy : y < g.size)
    (hn : g.node x = { shape := .symbol label }) :
    closeLoop x y g = .ok () (g.close x y label) := by
  have hc : (g.contains x && g.contains y) = true := by
    simp only [contains, hx, hy, decide_true, Bool.and_self]
  rw [closeLoop, get_bind, if_neg (by rw [hc]; decide)]
  simp only [hn]
  rfl

theorem closeLoop_developing (x y : NodeId) : Developing (closeLoop x y) := by
  intro g hg
  rcases closeLoop_cases x y g with ⟨e, he⟩ | ⟨label, hx, hs, -, he⟩
  · rw [he]
    exact ⟨hg, .refl g⟩
  · have hs' : (g.shape x).IsSymbol := by
      rw [hs]
      trivial
    rw [he]
    exact ⟨hg.close hx hs' y label, develops_close hx hs' y label⟩

theorem WellFormed.recordForm (hg : g.WellFormed) (x y : NodeId) :
    { g with forms := g.forms.insert x y }.WellFormed :=
  ⟨hg.zero_node, hg.one_node, hg.operands_lt, hg.operands_lt_size, hg.index_lt_size, hg.index_node,
    hg.node_index, hg.callee_mem, hg.arity⟩

theorem recordForm_changing (x y : NodeId) : Changing Extends (recordForm x y) := fun _ hg =>
  ⟨hg.recordForm x y, ⟨Nat.le_refl _, fun _ _ => rfl, List.prefix_rfl⟩⟩

end ExactAlgebra.Graph
