import ExactAlgebra.Proofs.Graph.Course

/-!
What constructions leave as it was: the nodes, their entries in the index, and the numbering of
functions. Only placeholders may change, when they are closed.
-/

namespace ExactAlgebra.Graph

variable {α β : Type} {S S' : NodeId → Prop} {g g' g'' : Graph} {s : Shape} {x y : NodeId}

/-- The nodes of `g` are in `g'` what they were, apart from placeholders in `S` that were closed. -/
structure Intact (S : NodeId → Prop) (g g' : Graph) : Prop where
  size_le : g.size ≤ g'.size
  node_eq : ∀ x, x < g.size → (g'.node x = g.node x ∧ g'.label? x = g.label? x) ∨
    (S x ∧ (g.shape x).IsSymbol ∧ g.isLoop x = false ∧ g'.isLoop x = true)
  index_iff : ∀ (k : Shape × List NodeId) x, x < g.size →
    (g'.index[k]? = some x ↔ g.index[k]? = some x)
  callees_prefix : g.callees.toList <+: g'.callees.toList

namespace Intact

theorem refl (S : NodeId → Prop) (g : Graph) : g.Intact S g :=
  ⟨Nat.le_refl _, fun _ _ => .inl ⟨rfl, rfl⟩, fun _ _ _ => .rfl, List.prefix_rfl⟩

theorem lt_size (h : g.Intact S g') (hx : x < g.size) : x < g'.size := hx.trans_le h.size_le

theorem trans (h : g.Intact S g') (h' : g'.Intact S g'') : g.Intact S g'' where
  size_le := h.size_le.trans h'.size_le
  node_eq x hx := by
    have hstep := h'.node_eq x (h.lt_size hx)
    rcases h.node_eq x hx with ⟨hn, hl⟩ | ⟨hs, hsymbol, hopen, hclosed⟩
    · rw [shape, isLoop, hn, hl] at hstep
      exact hstep
    · rcases hstep with ⟨hn, -⟩ | ⟨-, -, -, hclosed'⟩
      · exact .inr ⟨hs, hsymbol, hopen, (congrArg Node.isLoop hn).trans hclosed⟩
      · exact .inr ⟨hs, hsymbol, hopen, hclosed'⟩
  index_iff k x hx := (h'.index_iff k x (h.lt_size hx)).trans (h.index_iff k x hx)
  callees_prefix := h.callees_prefix.trans h'.callees_prefix

/-- Of what was closed, only what there was before counts. -/
theorem restrict (h : g.Intact S' g') (hS : ∀ x, x < g.size → S' x → S x) : g.Intact S g' :=
  { h with node_eq := fun x hx => (h.node_eq x hx).imp_right fun hc => ⟨hS x hx hc.1, hc.2⟩ }

theorem mono (h : g.Intact S' g') (hS : ∀ x, S' x → S x) : g.Intact S g' :=
  h.restrict fun x _ => hS x

/-- Nothing else may be closed than what was added. -/
theorem trans_fresh (h : g.Intact S g') (h' : g'.Intact (fun x => S x ∨ g.size ≤ x) g'') :
    g.Intact S g'' :=
  ((h.mono fun _ => .inl).trans h').restrict fun _ hx hs =>
    hs.resolve_right (Nat.not_le_of_lt hx)

end Intact

theorem intact_push (S : NodeId → Prop) (g : Graph) (n : Node) : g.Intact S (g.push n) where
  size_le := by
    rw [size_push]
    exact Nat.le_succ _
  node_eq _ hx := .inl ⟨node_push_lt n hx, rfl⟩
  index_iff _ _ _ := .rfl
  callees_prefix := List.prefix_rfl

theorem intact_extend (S : NodeId → Prop) {xs : List NodeId} (h : g.index[(s, xs)]? = none) :
    g.Intact S (g.extend s xs) where
  size_le := (intact_push S g _).size_le
  node_eq := (intact_push S g _).node_eq
  index_iff k x hx := by
    rw [index_extend]
    by_cases hk : k = (s, xs)
    · subst hk
      have hne : g.size ≠ x := Nat.ne_of_gt hx
      simp only [if_pos, h, Option.some.injEq, hne, reduceCtorEq]
    · rw [if_neg hk]
  callees_prefix := List.prefix_rfl

theorem intact_close (S : NodeId → Prop) (hx : x < g.size) (hs : S x)
    (hsymbol : (g.shape x).IsSymbol) (hl : g.isLoop x = false) (y : NodeId) (label : String) :
    g.Intact S (g.close x y label) where
  size_le := (size_close g x y label).ge
  node_eq z _ := by
    by_cases hz : z = x
    · subst hz
      exact .inr ⟨hs, hsymbol, hl, congrArg Node.isLoop (node_close_self hx y label)⟩
    · left
      refine ⟨node_close_ne hz y label, ?_⟩
      simp only [label?, close, Std.HashMap.getElem?_insert, beq_iff_eq, Ne.symm hz, if_false]
  index_iff _ _ _ := .rfl
  callees_prefix := List.prefix_rfl

/-! ### Constructions -/

theorem intern_intact (S : NodeId → Prop) (s : Shape) (xs : List NodeId) (g : Graph) :
    g.Intact S (final (intern s xs g)) := by
  rw [intern_eq]
  cases hi : g.index[(s, xs)]? with
  | some x => exact .refl S g
  | none =>
    simp only
    split_ifs
    · exact .refl S g
    · exact intact_extend S hi
    · exact .refl S g

theorem register_intact (S : NodeId → Prop) (f : Callee) (g : Graph) :
    g.Intact S (final (register f g)) := by
  have heq : register f g =
      .ok () (if g.callees.contains f then g else { g with callees := g.callees.push f }) := rfl
  rw [heq, final]
  split
  · exact .refl S g
  · refine ⟨Nat.le_refl _, fun _ _ => .inl ⟨rfl, rfl⟩, fun _ _ _ => .rfl, ?_⟩
    simp only [Array.toList_push, List.prefix_append]

/-- The constructions that leave all nodes as they are, apart from placeholders in `S`. -/
def intact (S : NodeId → Prop) : Constructions where
  toClosure := .along (Intact S) (.refl S) .trans
  throw _ := .refl S
  get := .refl S
  intern _ _ := intern_intact S _ _
  call f xs := (Closure.along (Intact S) (.refl S) .trans).bind (register_intact S f) fun _ =>
    intern_intact S _ _
  callAgain {x xs} k hcall hother := by
    intro g
    change g.Intact S (final (k g g))
    by_cases hs : ∃ f, g.shape x = .call f
    · obtain ⟨f, hf⟩ := hs
      rw [hcall g f hf]
      exact intern_intact S _ _ g
    · exact hother g (fun f hf => hs ⟨f, hf⟩) g

/-- The course on which all nodes stay what they are, apart from placeholders in `S`. -/
def unchanging (S : NodeId → Prop) : Course where
  Leads := Intact S
  refl := .refl S
  trans := .trans
  construct c := c.build_holds (intact S).builders

theorem recordForm_intact (S : NodeId → Prop) (x form : NodeId) :
    (intact S).Holds (recordForm x form) := fun _ =>
  ⟨Nat.le_refl _, fun _ _ => .inl ⟨rfl, rfl⟩, fun _ _ _ => .rfl, List.prefix_rfl⟩

theorem openLoop_intact (S : NodeId → Prop) (label : String) :
    (intact S).Holds (openLoop label) := by
  intro g
  rw [openLoop, append_eq]
  split_ifs
  · exact .refl S g
  · exact intact_push S g _
  · exact .refl S g

theorem closeLoop_intact (hs : S x) (y : NodeId) : (intact S).Holds (closeLoop x y) := by
  intro g
  rcases closeLoop_cases x y g with ⟨e, he⟩ | ⟨label, hx, hsymbol, hl, he⟩
  · rw [he]
    exact .refl S g
  · rw [he]
    refine intact_close S hx hs ?_ hl y label
    rw [hsymbol]
    trivial

/-- The slot of a placeholder is a node that was not there. -/
theorem openLoop_fresh {label : String} (h : openLoop label g = .ok x g') : g.size ≤ x := by
  rw [openLoop, append_eq] at h
  split_ifs at h
  cases h
  exact Nat.le_refl _

/-- A placeholder may be closed again over what was built since it was opened. -/
theorem loop_intact (label : String) {body : NodeId → Build NodeId}
    (hbody : ∀ slot, (intact S).Holds (body slot)) :
    (intact S).Holds (do
      let slot ← openLoop label
      let content ← body slot
      closeLoop slot content
      return slot) := by
  intro g
  have hopen := openLoop_intact S label g
  simp only [bind, EStateM.bind]
  cases he : openLoop label g with
  | error e g' =>
    rw [he] at hopen
    exact hopen
  | ok slot g' =>
    rw [he] at hopen
    apply hopen.trans_fresh
    have hslot := openLoop_fresh he
    have hrest : (intact fun x => S x ∨ g.size ≤ x).Holds (do
        let content ← body slot
        closeLoop slot content
        return slot) := by
      apply (intact _).bind fun g => (hbody slot g).mono fun _ => .inl
      intro content
      exact (intact _).bind (closeLoop_intact (.inr hslot) content) fun _ => (intact _).pure slot
    exact hrest g'

end ExactAlgebra.Graph
