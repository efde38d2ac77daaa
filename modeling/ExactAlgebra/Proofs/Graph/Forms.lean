import ExactAlgebra.Proofs.Graph.Reach

/-!
What is recorded of self-referential nodes. Each has a label; a canonical form is recorded for nodes
of the graph only, and is made of nothing that the node itself is not made of. Adding nodes keeps
it so, and so does closing a placeholder, by which forms that were recorded before may change.
-/

namespace ExactAlgebra.Graph

variable {V : Vocabulary} {C : Callee → Prop} {g g' g'' : Graph} {x y z c : NodeId} {label : String}

/-- Whatever `x` is made of, calls to functions in `C` among it, `y` is made of it too. -/
def Derives (C : Callee → Prop) (g : Graph) (x y : NodeId) : Prop :=
  ∀ V : Vocabulary, (∀ f, V.callees f → C f) → g.MadeOf V x → g.MadeOf V y

/-- What is recorded of the self-referential nodes of a graph can be relied on. -/
structure Consistent (C : Callee → Prop) (g : Graph) : Prop where
  operands_lt_size : ∀ x, ∀ y ∈ g.operands x, y < g.size
  labelled : ∀ x, g.isLoop x = true → g.label? x ≠ none
  derives : ∀ x y, g.form? x = some y → x < g.size ∧ g.Derives C x y

/-- `g'` has the nodes of `g`, and what is recorded can be relied on if it could before. -/
structure Continues (C : Callee → Prop) (g g' : Graph) : Prop extends Extends g g' where
  consistent : g.Consistent C → g'.Consistent C

/-! ### Vocabularies -/

/-- What a node is made of. -/
def palette (g : Graph) (x : NodeId) : Vocabulary where
  symbols z := g.Reaches x z ∧ (g.shape z).IsSymbol ∧ g.isLoop z = false
  callees f := ∃ z, g.Reaches x z ∧ g.shape z = .call f
  operators op := ∃ z, g.Reaches x z ∧ g.shape z = .binary op

theorem Reaches.lt_size (h : g.Reaches x y) (hg : g.WellFormed) (hx : x < g.size) :
    y < g.size := by
  cases h with
  | refl => exact hx
  | step _ hy => exact hg.operands_lt_size _ y hy

theorem madeOf_palette (hg : g.WellFormed) (hx : x < g.size) : g.MadeOf (g.palette x) x := by
  refine ⟨fun z hz => hz.lt_size hg hx, fun z hz => (g.palette x).covers_closedIn_iff.2 ?_⟩
  cases hs : g.shape z with
  | symbol name =>
    cases hl : g.isLoop z with
    | true => exact .inr ⟨trivial, rfl⟩
    | false => exact .inl ⟨hz, by rw [hs]; trivial, hl⟩
  | call f => exact .inl ⟨z, hz, hs⟩
  | binary op => exact .inl ⟨z, hz, hs⟩
  | _ => exact .inl trivial

/-- What a node is made of is the least that it can be made of. -/
theorem MadeOf.palette_covers (h : g.MadeOf V x) {s : Shape} (hc : (g.palette x).Covers z s) :
    V.Covers z s := by
  cases s with
  | symbol name =>
    obtain ⟨hz, hs, hl⟩ := hc
    have hcov := h.covers z hz
    cases hsz : g.shape z with
    | symbol name =>
      rw [hsz] at hcov
      exact hcov.resolve_right fun h => Bool.noConfusion (hl.symm.trans h)
    | _ =>
      rw [hsz] at hs
      exact hs.elim
  | call f =>
    obtain ⟨z, hz, hs⟩ := hc
    have hcov := h.covers z hz
    rwa [hs] at hcov
  | binary op =>
    obtain ⟨z, hz, hs⟩ := hc
    have hcov := h.covers z hz
    rwa [hs] at hcov
  | _ => trivial

/-- With one symbol more. -/
def Vocabulary.insert (V : Vocabulary) (x : NodeId) : Vocabulary :=
  { V with symbols := fun z => V.symbols z ∨ z = x }

/-! ### Derivations -/

theorem Derives.refl (C : Callee → Prop) (g : Graph) (x : NodeId) : g.Derives C x x :=
  fun _ _ h => h

theorem Derives.extends_graph (h : g.Derives C x y) (hext : g.Extends g')
    (hin : ∀ z, ∀ y ∈ g.operands z, y < g.size) (hx : x < g.size) : g'.Derives C x y :=
  fun V hV hm => hext.madeOf (h V hV (hext.madeOf_of hin hm hx))

/-- What is made of nothing that a node is not made of derives from it. -/
theorem derives_of_palette (hg : g.WellFormed) (hext : g.Extends g') (hx : x < g.size)
    (h : (∀ f, (g.palette x).callees f → C f) → g'.MadeOf (g.palette x) y) :
    g'.Derives C x y := by
  intro V hV hm
  have hm₀ := hext.madeOf_of hg.operands_lt_size hm hx
  have hreal : ∀ f, (g.palette x).callees f → C f := fun f hf =>
    hV f (hm₀.palette_covers (s := .call f) (z := x) hf)
  exact (h hreal).mono fun _ _ _ => hm₀.palette_covers

/-! ### Closing -/

theorem Vocabulary.covers_insert_iff {s : Shape} :
    (V.insert z).Covers x s ↔ V.Covers x s ∨ (s.IsSymbol ∧ x = z) := by
  cases s with
  | symbol => simp only [Covers, insert, Shape.IsSymbol, true_and]
  | _ => simp only [Covers, insert, Shape.IsSymbol, false_and, or_false]

theorem Vocabulary.Covers.of_not_isSymbol {s : Shape} (h : V.Covers x s) (hs : ¬ s.IsSymbol) :
    V.Covers y s := by
  cases s with
  | symbol => exact absurd trivial hs
  | _ => exact h

/-- A placeholder that is closed over `c` may occur in what `c` is made of. -/
theorem MadeOf.close (hz : z < g.size) (hc : g.MadeOf (V.insert z) c)
    (hx : g.MadeOf (V.insert z) x) (label : String) : (g.close z c label).MadeOf V x := by
  apply MadeOf.of_closed (K := g.MadeOf (V.insert z)) ?_ hx
  intro w hw
  rw [size_close]
  refine ⟨hw.lt_size, ?_⟩
  by_cases he : w = z
  · subst he
    have hself := node_close_self hz c label
    rw [shape, Graph.operands, hself, V.covers_closedIn_iff]
    refine ⟨?_, hc.operands⟩
    by_cases hs : (g.shape c).IsSymbol
    · right
      rw [isLoop, hself]
      exact ⟨hs, rfl⟩
    · rcases (V.insert w).covers_closedIn_iff.1 hc.shape_covers with h | ⟨h, -⟩
      · rcases V.covers_insert_iff.1 h with h | ⟨h, -⟩
        · exact .inl (h.of_not_isSymbol hs)
        · exact absurd h hs
      · exact absurd h hs
  · have hsame := node_close_ne (g := g) he c label
    rw [shape, Graph.operands, hsame, V.covers_closedIn_iff, isLoop, hsame]
    refine ⟨?_, hw.operands⟩
    rcases (V.insert z).covers_closedIn_iff.1 hw.shape_covers with h | h
    · rcases V.covers_insert_iff.1 h with h | ⟨-, h⟩
      · exact .inl h
      · exact absurd h he
    · exact .inr h

/-- The vocabulary of which `V` is left when symbols have become what they are in `g`. -/
def Vocabulary.opened (V : Vocabulary) (g : Graph) : Vocabulary :=
  { V with symbols := g.MadeOf V }

theorem MadeOf.of_close (hg : g.WellFormed) (hz : z < g.size) (hs : (g.shape z).IsSymbol)
    (hx : (g.close z c label).MadeOf V x) : g.MadeOf (V.opened (g.close z c label)) x := by
  have hg' := hg.close hz hs c label
  apply MadeOf.of_closed (K := (g.close z c label).MadeOf V) ?_ hx
  intro w hw
  refine ⟨size_close g z c label ▸ hw.lt_size, ?_⟩
  by_cases he : w = z
  · subst he
    cases hsw : g.shape w with
    | symbol name =>
      have harity := hg.arity w
      rw [hsw] at harity
      rw [List.length_eq_zero_iff.1 harity]
      exact ⟨.inl hw, fun y hy => absurd hy List.not_mem_nil⟩
    | _ =>
      rw [hsw] at hs
      exact hs.elim
  · have hsame := node_close_ne (g := g) he c label
    have hcov := hw.shape_covers
    have hops := hw.operands
    rw [shape, hsame, ← shape] at hcov
    rw [Graph.operands, hsame] at hops
    refine ⟨?_, hops⟩
    cases hsw : g.shape w with
    | symbol name => exact .inl hw
    | _ =>
      rw [hsw] at hcov
      exact hcov

theorem MadeOf.of_opened (hg : g.WellFormed) (hz : z < g.size) (hs : (g.shape z).IsSymbol)
    (hl : g.isLoop z = false) (hx : g.MadeOf (V.opened (g.close z c label)) x) :
    (g.close z c label).MadeOf V x := by
  have hg' := hg.close hz hs c label
  apply MadeOf.of_closed (K := fun w => g.MadeOf (V.opened (g.close z c label)) w ∨
    (g.close z c label).MadeOf V w) ?_ (.inl hx)
  intro w hw
  by_cases hm : (g.close z c label).MadeOf V w
  · exact ⟨hm.lt_size, hm.shape_covers, fun y hy => .inr (hm.operands y hy)⟩
  have hw := hw.resolve_right hm
  -- A symbol that is still one was covered as such, unless it is self-referential.
  have hsym : (g.shape w).IsSymbol → g.isLoop w = true := by
    intro hsw
    have hcov := hw.shape_covers
    cases hsw' : g.shape w with
    | symbol name =>
      rw [hsw'] at hcov
      exact hcov.resolve_left hm
    | _ =>
      rw [hsw'] at hsw
      exact hsw.elim
  have he : w ≠ z := by
    rintro rfl
    rw [hsym hs] at hl
    cases hl
  have hsame := node_close_ne (g := g) he c label
  have hcov := hw.shape_covers
  rw [size_close, shape, Graph.operands, hsame]
  refine ⟨hw.lt_size, V.covers_closedIn_iff.2 ?_, fun y hy => .inl (hw.operands y hy)⟩
  rw [isLoop, hsame]
  cases hsw : g.shape w with
  | symbol name =>
    have hlw := hsym (by rw [hsw]; trivial)
    rw [shape] at hsw
    rw [hsw]
    exact .inr ⟨trivial, hlw⟩
  | _ =>
    rw [hsw] at hcov
    rw [shape] at hsw
    rw [hsw]
    exact .inl hcov

theorem Derives.close (h : g.Derives C x y) (hg : g.WellFormed) (hz : z < g.size)
    (hs : (g.shape z).IsSymbol) (hl : g.isLoop z = false) (c : NodeId) (label : String) :
    (g.close z c label).Derives C x y := by
  intro V hV hm
  have hbefore := h (V.opened (g.close z c label)) hV (hm.of_close hg hz hs)
  exact hbefore.of_opened hg hz hs hl

/-! ### Consistency -/

theorem empty_consistent (C : Callee → Prop) : empty.Consistent C := by
  have hloop : ∀ x, empty.isLoop x = false := by
    intro x
    match x with
    | 0 => rfl
    | 1 => rfl
    | x + 2 => rw [isLoop, node_of_size_le (Nat.le_add_left 2 x)]
  refine ⟨empty_wellFormed.operands_lt_size, fun x hl => ?_, fun x y h => ?_⟩
  · rw [hloop x] at hl
    cases hl
  · simp [form?, empty] at h

theorem Consistent.growsTo (h : g.Consistent C) (hg' : g'.WellFormed) (hx : g.GrowsTo g') :
    g'.Consistent C := by
  refine ⟨hg'.operands_lt_size, fun x hl => ?_, fun x y hxy => ?_⟩
  · have hlt := hx.lt_of_isLoop x hl
    rw [label?, hx.labels_eq]
    exact h.labelled x (hx.isLoop_eq hlt ▸ hl)
  · rw [form?, hx.forms_eq] at hxy
    obtain ⟨hlt, hd⟩ := h.derives x y hxy
    exact ⟨hx.lt_size hlt, hd.extends_graph hx.toExtends h.operands_lt_size hlt⟩

theorem Consistent.close (h : g.Consistent C) (hg : g.WellFormed) (hz : z < g.size)
    (hs : (g.shape z).IsSymbol) (hl : g.isLoop z = false) (c : NodeId) (label : String) :
    (g.close z c label).Consistent C := by
  refine ⟨(hg.close hz hs c label).operands_lt_size, fun x hlx => ?_, fun x y hxy => ?_⟩
  · simp only [label?, Graph.close, Std.HashMap.getElem?_insert]
    by_cases he : z = x
    · simp only [he, beq_self_eq_true, if_true]
      exact Option.some_ne_none _
    · rw [isLoop, node_close_ne (Ne.symm he)] at hlx
      simp only [beq_eq_false_iff_ne.2 he, Bool.false_eq_true, if_false]
      exact h.labelled x hlx
  · obtain ⟨hlt, hd⟩ := h.derives x y hxy
    rw [size_close]
    exact ⟨hlt, hd.close hg hz hs hl c label⟩

theorem Consistent.recordForm (h : g.Consistent C) (hx : x < g.size) (hd : g.Derives C x y) :
    { g with forms := g.forms.insert x y }.Consistent C := by
  have hext : g.Extends { g with forms := g.forms.insert x y } :=
    ⟨Nat.le_refl _, fun _ _ => rfl, List.prefix_rfl⟩
  refine ⟨h.operands_lt_size, h.labelled, fun z w hzw => ?_⟩
  simp only [form?, Std.HashMap.getElem?_insert] at hzw
  split at hzw
  · next he =>
    cases hzw
    obtain rfl := beq_iff_eq.1 he
    exact ⟨hx, hd.extends_graph hext h.operands_lt_size hx⟩
  · obtain ⟨hz, hd'⟩ := h.derives z w hzw
    exact ⟨hz, hd'.extends_graph hext h.operands_lt_size hz⟩

theorem Continues.refl (C : Callee → Prop) (g : Graph) : g.Continues C g := ⟨.refl g, id⟩

theorem Continues.trans (h : g.Continues C g') (h' : g'.Continues C g'') : g.Continues C g'' :=
  ⟨h.toExtends.trans h'.toExtends, fun hc => h'.consistent (h.consistent hc)⟩

theorem GrowsTo.continues (hx : g.GrowsTo g') (hg' : g'.WellFormed) : g.Continues C g' :=
  ⟨hx.toExtends, fun h => h.growsTo hg' hx⟩

end ExactAlgebra.Graph
