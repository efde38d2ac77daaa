import ExactAlgebra.Proofs.Graph.Elementary
import ExactAlgebra.Proofs.Graph.Sharing
import Mathlib.Data.List.Forall2

/-!
Nodes of two graphs that show one tree. Nodes are numbered in the order in which they were built, so
that the two graphs may number them differently; but within each graph an expression without calls,
placeholders and self-reference is one node only, and the canonical order looks at trees only.
-/

namespace ExactAlgebra.Graph

variable {V W : Vocabulary} {g g' t t' : Graph} {s : Shape} {a b a' b' x y x' y' : NodeId}
variable {xs ys : List NodeId} {d : Nat}

/-- The symbols that are found by their names, which placeholders are not, and no functions. -/
def interned (g : Graph) : Vocabulary where
  symbols x := ∃ name, g.node x = { shape := .symbol name } ∧
    g.index[((.symbol name : Shape), ([] : List NodeId))]? = some x
  callees _ := False
  operators _ := True

/-- A graph in which the symbols of a vocabulary without functions are told apart by their names. -/
structure Named (V : Vocabulary) (g : Graph) : Prop where
  wellFormed : g.WellFormed
  lt_size : ∀ x, V.symbols x → x < g.size
  unique : ∀ x y, V.symbols x → V.symbols y → g.node x = g.node y → x = y
  no_callees : ∀ f, ¬ V.callees f

theorem WellFormed.named (hg : g.WellFormed) : g.Named g.interned where
  wellFormed := hg
  lt_size := by
    rintro x ⟨name, hn, -⟩
    by_contra hx
    rw [node_of_size_le (Nat.le_of_not_lt hx)] at hn
    cases hn
  unique := by
    rintro x y ⟨name, hn, hx⟩ ⟨name', hn', hy⟩ he
    rw [hn, hn'] at he
    cases he
    rw [hx] at hy
    exact Option.some.inj hy
  no_callees _ := id

theorem Named.grow (h : g.Named V) (hx : g.Extends g') (hg' : g'.WellFormed) : g'.Named V where
  wellFormed := hg'
  lt_size x hs := hx.lt_size (h.lt_size x hs)
  unique x y hs hs' he := by
    rw [hx.node_eq x (h.lt_size x hs), hx.node_eq y (h.lt_size y hs')] at he
    exact h.unique x y hs hs' he
  no_callees := h.no_callees

/-! ### Trees of elementary expressions -/

theorem Elementary.tree_eq (hx : g.Elementary V x) (hg : g.WellFormed) :
    g.tree x = .node (g.shape x) ((g.operands x).map g.tree) :=
  tree_eq_node hg (fun _ hx => ⟨hx.isLoop_eq, hx.operands⟩) hx

theorem Extends.tree_eq (h : g.Extends g') (hg : g.WellFormed) (hg' : g'.WellFormed)
    (hx : g.Elementary V x) : g'.tree x = g.tree x := by
  induction hx with
  | @node x hlt hl hc hops ih =>
    have hx := Elementary.node hlt hl hc hops
    rw [(h.elementary hx).tree_eq hg', hx.tree_eq hg, h.shape_eq hlt, h.operands_eq hlt]
    congr 1
    exact List.map_congr_left ih

theorem eq_of_map_eq {α β : Type} {f : α → β} {as bs : List α} (h : as.map f = bs.map f)
    (hf : ∀ a ∈ as, ∀ b ∈ bs, f a = f b → a = b) : as = bs := by
  induction as generalizing bs with
  | nil => exact (List.map_eq_nil_iff.1 h.symm).symm
  | cons a as ih =>
    cases bs with
    | nil => cases h
    | cons b bs =>
      rw [List.map_cons, List.map_cons, List.cons.injEq] at h
      rw [hf a (by simp) b (by simp) h.1,
        ih h.2 fun a ha b hb => hf a (List.mem_cons_of_mem _ ha) b (List.mem_cons_of_mem _ hb)]

/-- In one graph an expression whose symbols are told apart by their names is one node only. -/
theorem Elementary.eq_of_tree_eq (hg : g.WellFormed)
    (hunique : ∀ x y, V.symbols x → V.symbols y → g.node x = g.node y → x = y)
    (hx : g.Elementary V x) (hy : g.Elementary V y) (he : g.tree x = g.tree y) : x = y := by
  induction hx generalizing y with
  | @node x hlt hl hc hops ih =>
    have hx := Elementary.node hlt hl hc hops
    rw [hx.tree_eq hg, hy.tree_eq hg] at he
    obtain ⟨hs, hmap⟩ := Tree.node.inj he
    have hoperands : g.operands x = g.operands y :=
      eq_of_map_eq hmap fun a ha b hb => ih a ha (hy.operands b hb)
    have hnode : g.node x = g.node y := by
      have hloop := hl.trans hy.isLoop_eq.symm
      simp only [shape, Graph.operands, isLoop] at hs hoperands hloop
      cases hn : g.node x
      cases hn' : g.node y
      simp_all
    by_cases hsym : (g.shape x).IsSymbol
    · have hc' := hy.covers
      rw [← hs] at hc'
      cases hsx : g.shape x with
      | symbol =>
        rw [hsx] at hc hc'
        exact hunique x y hc hc' hnode
      | _ =>
        rw [hsx] at hsym
        exact hsym.elim
    · exact hg.eq_of_node_eq hlt hy.lt_size hl hsym hnode

theorem Named.eq_of_tree_eq (h : g.Named V) (hx : g.Elementary V x) (hy : g.Elementary V y)
    (he : g.tree x = g.tree y) : x = y :=
  hx.eq_of_tree_eq h.wellFormed h.unique hy he

/-! ### Twins -/

/-- Two graphs, and a vocabulary of each whose symbols are told apart by their names. -/
structure Facing (V W : Vocabulary) (g t : Graph) : Prop where
  left : g.Named V
  right : t.Named W

theorem Facing.symm (h : Facing V W g t) : Facing W V t g := ⟨h.right, h.left⟩

theorem Facing.grow (h : Facing V W g t) (hx : g.Extends g') (hy : t.Extends t')
    (hg' : g'.WellFormed) (ht' : t'.WellFormed) : Facing V W g' t' :=
  ⟨h.left.grow hx hg', h.right.grow hy ht'⟩

/-- Nodes of two graphs that show one tree. -/
structure Twins (V W : Vocabulary) (g t : Graph) (x y : NodeId) : Prop where
  left : g.Elementary V x
  right : t.Elementary W y
  tree_eq : g.tree x = t.tree y

namespace Twins

theorem symm (h : Twins V W g t x y) : Twins W V t g y x := ⟨h.right, h.left, h.tree_eq.symm⟩

theorem grow (h : Twins V W g t x y) (hgt : Facing V W g t) (hgt' : Facing V W g' t')
    (hx : g.Extends g') (hy : t.Extends t') : Twins V W g' t' x y where
  left := hx.elementary h.left
  right := hy.elementary h.right
  tree_eq := by
    rw [hx.tree_eq hgt.left.wellFormed hgt'.left.wellFormed h.left,
      hy.tree_eq hgt.right.wellFormed hgt'.right.wellFormed h.right, h.tree_eq]

theorem shape_eq (h : Twins V W g t x y) (hgt : Facing V W g t) : g.shape x = t.shape y := by
  have he := h.tree_eq
  rw [h.left.tree_eq hgt.left.wellFormed, h.right.tree_eq hgt.right.wellFormed] at he
  exact (Tree.node.inj he).1

theorem operands (h : Twins V W g t x y) (hgt : Facing V W g t) :
    List.Forall₂ (Twins V W g t) (g.operands x) (t.operands y) := by
  have he := h.tree_eq
  rw [h.left.tree_eq hgt.left.wellFormed, h.right.tree_eq hgt.right.wellFormed] at he
  have hmap := (Tree.node.inj he).2
  rw [← List.forall₂_eq_eq_eq, List.forall₂_map_left_iff, List.forall₂_map_right_iff,
    List.forall₂_iff_zip] at hmap
  refine List.forall₂_iff_zip.2 ⟨hmap.1, fun {a b} hab => ?_⟩
  exact ⟨h.left.operands a (List.of_mem_zip hab).1, h.right.operands b (List.of_mem_zip hab).2,
    hmap.2 hab⟩

theorem value?_eq (h : Twins V W g t x y) (hgt : Facing V W g t) : g.value? x = t.value? y :=
  congrArg Shape.value? (h.shape_eq hgt)

theorem isConstant_eq (h : Twins V W g t x y) (hgt : Facing V W g t) :
    g.isConstant x = t.isConstant y :=
  congrArg Shape.isConstant (h.shape_eq hgt)

theorem hasValue_eq (h : Twins V W g t x y) (hgt : Facing V W g t) (q : Rat) :
    g.hasValue q x = t.hasValue q y := by
  rw [hasValue, hasValue, h.value?_eq hgt]

theorem isOpenSum_eq (h : Twins V W g t x y) (hgt : Facing V W g t) :
    (g.node x).isOpenSum = (t.node y).isOpenSum := by
  have hs := h.shape_eq hgt
  have hl := h.left.isLoop_eq.trans h.right.isLoop_eq.symm
  simp only [shape, isLoop] at hs hl
  rw [Node.isOpenSum, Node.isOpenSum, hs, hl]

theorem isOpenProduct_eq (h : Twins V W g t x y) (hgt : Facing V W g t) :
    (g.node x).isOpenProduct = (t.node y).isOpenProduct := by
  have hs := h.shape_eq hgt
  have hl := h.left.isLoop_eq.trans h.right.isLoop_eq.symm
  simp only [shape, isLoop] at hs hl
  rw [Node.isOpenProduct, Node.isOpenProduct, hs, hl]

theorem isOpenPower_eq (h : Twins V W g t x y) (hgt : Facing V W g t) :
    (g.node x).isOpenPower = (t.node y).isOpenPower := by
  have hs := h.shape_eq hgt
  have hl := h.left.isLoop_eq.trans h.right.isLoop_eq.symm
  simp only [shape, isLoop] at hs hl
  rw [Node.isOpenPower, Node.isOpenPower, hs, hl]

theorem terms (h : Twins V W g t x y) (hgt : Facing V W g t) :
    List.Forall₂ (Twins V W g t) (g.terms x) (t.terms y) := by
  rw [Graph.terms, Graph.terms, h.isOpenSum_eq hgt]
  split
  · exact h.operands hgt
  · exact .cons h .nil

theorem factors (h : Twins V W g t x y) (hgt : Facing V W g t) :
    List.Forall₂ (Twins V W g t) (g.factors x) (t.factors y) := by
  rw [Graph.factors, Graph.factors, h.isOpenProduct_eq hgt]
  split
  · exact h.operands hgt
  · exact .cons h .nil

/-- New nodes of one kind over twins are twins. -/
theorem of_node (hgt : Facing V W g t) (hx : x < g.size) (hy : y < t.size)
    (hn : g.node x = { shape := s, operands := xs }) (hn' : t.node y = { shape := s, operands := ys })
    (hs : V.Covers x s) (hs' : W.Covers y s) (h : List.Forall₂ (Twins V W g t) xs ys) :
    Twins V W g t x y := by
  have hleft : g.Elementary V x := by
    refine .of_node hx hn hs fun z hz => ?_
    obtain ⟨i, hi, rfl⟩ := List.getElem_of_mem hz
    exact (h.get hi (h.length_eq ▸ hi)).left
  have hright : t.Elementary W y := by
    refine .of_node hy hn' hs' fun z hz => ?_
    obtain ⟨i, hi, rfl⟩ := List.getElem_of_mem hz
    exact (h.get (h.length_eq ▸ hi) hi).right
  refine ⟨hleft, hright, ?_⟩
  have hmap : xs.map g.tree = ys.map t.tree := by
    rw [← List.forall₂_eq_eq_eq, List.forall₂_map_left_iff, List.forall₂_map_right_iff]
    exact h.imp fun _ _ h => h.tree_eq
  rw [hleft.tree_eq hgt.left.wellFormed, hright.tree_eq hgt.right.wellFormed, shape, shape,
    Graph.operands, Graph.operands, hn, hn', hmap]

theorem leftUnique (hgt : Facing V W g t) : Relator.LeftUnique (Twins V W g t) :=
  fun _ _ _ h h' => hgt.left.eq_of_tree_eq h.left h'.left (h.tree_eq.trans h'.tree_eq.symm)

theorem rightUnique (hgt : Facing V W g t) : Relator.RightUnique (Twins V W g t) :=
  fun _ _ _ h h' => leftUnique hgt.symm h.symm h'.symm

theorem biUnique (hgt : Facing V W g t) : Relator.BiUnique (Twins V W g t) :=
  ⟨leftUnique hgt, rightUnique hgt⟩

theorem eq_iff (h : Twins V W g t x y) (h' : Twins V W g t x' y') (hgt : Facing V W g t) :
    x = x' ↔ y = y' :=
  Relator.rel_eq (biUnique hgt) h h'

end Twins

theorem Facing.zero (h : Facing V W g t) : Twins V W g t zero zero :=
  .of_node h h.left.wellFormed.zero_lt_size h.right.wellFormed.zero_lt_size
    h.left.wellFormed.node_zero h.right.wellFormed.node_zero trivial trivial .nil

theorem Facing.one (h : Facing V W g t) : Twins V W g t one one :=
  .of_node h h.left.wellFormed.one_lt_size h.right.wellFormed.one_lt_size
    h.left.wellFormed.node_one h.right.wellFormed.node_one trivial trivial .nil

/-! ### The canonical order -/

theorem Twins.compareShapes_eq (ha : Twins V W g t a a') (hb : Twins V W g t b b')
    (hgt : Facing V W g t) (hab : a ≠ b) :
    g.compareShapes a b (g.shape a) (g.shape b) =
      t.compareShapes a' b' (t.shape a') (t.shape b') := by
  rw [← ha.shape_eq hgt, ← hb.shape_eq hgt]
  have hca := ha.left.covers
  have hcb := hb.left.covers
  cases hsa : g.shape a with
  | symbol name =>
    cases hsb : g.shape b with
    | symbol name' =>
      -- Two nodes of one name would be one node.
      have hne : name ≠ name' := by
        rintro rfl
        apply hab
        apply hgt.left.eq_of_tree_eq ha.left hb.left
        rw [ha.left.tree_eq hgt.left.wellFormed, hb.left.tree_eq hgt.left.wellFormed, hsa, hsb]
        have harity := hgt.left.wellFormed.arity a
        have harity' := hgt.left.wellFormed.arity b
        rw [hsa] at harity
        rw [hsb] at harity'
        rw [List.length_eq_zero_iff.1 harity, List.length_eq_zero_iff.1 harity']
      simp only [compareShapes]
      rcases lt_trichotomy name name' with h | h | h
      · rw [if_pos h, if_pos h]
      · exact absurd h hne
      · rw [if_neg h.not_gt, if_pos h, if_neg h.not_gt, if_pos h]
    | _ => rfl
  | call f =>
    rw [hsa] at hca
    exact absurd hca (hgt.left.no_callees f)
  | constant =>
    cases g.shape b <;> rfl
  | _ => cases g.shape b <;> rfl

theorem forall₂_compareLex {R : NodeId → NodeId → Prop} {cmp cmp' : NodeId → NodeId → Ordering}
    {xs' ys' : List NodeId} (hx : List.Forall₂ R xs xs') (hy : List.Forall₂ R ys ys')
    (h : ∀ a a' b b', R a a' → R b b' → cmp a b = cmp' a' b') :
    List.compareLex cmp xs ys = List.compareLex cmp' xs' ys' := by
  induction hx generalizing ys ys' with
  | nil => cases hy <;> rfl
  | cons ha _ ih =>
    cases hy with
    | nil => rfl
    | cons hb hbs =>
      rw [List.compareLex_cons_cons, List.compareLex_cons_cons, h _ _ _ _ ha hb, ih hbs]

theorem Twins.compareWithin_eq (ha : Twins V W g t a a') (hb : Twins V W g t b b')
    (hgt : Facing V W g t) : g.compareWithin d a b = t.compareWithin d a' b' := by
  induction d generalizing a b a' b' with
  | zero => rfl
  | succ d ih =>
    rw [compareWithin, compareWithin]
    by_cases hab : a = b
    · rw [if_pos hab, if_pos ((ha.eq_iff hb hgt).1 hab)]
    · rw [if_neg hab, if_neg fun h => hab ((ha.eq_iff hb hgt).2 h), ha.left.isLoop_eq,
        hb.left.isLoop_eq, ha.right.isLoop_eq, hb.right.isLoop_eq]
      simp only [ha.compareShapes_eq hb hgt hab]
      congr 1
      exact forall₂_compareLex (ha.operands hgt) (hb.operands hgt) fun _ _ _ _ ha hb => ih ha hb

theorem Twins.order_eq (ha : Twins V W g t a a') (hb : Twins V W g t b b')
    (hgt : Facing V W g t) : g.order a b = t.order a' b' := by
  have hlt : a < max a a' + 1 := Nat.lt_succ_of_le (Nat.le_max_left a a')
  have hlt' : a' < max a a' + 1 := Nat.lt_succ_of_le (Nat.le_max_right a a')
  rw [← hgt.left.wellFormed.compareWithin_eq hlt, ← hgt.right.wellFormed.compareWithin_eq hlt']
  exact ha.compareWithin_eq hb hgt

theorem Twins.productLe_eq (ha : Twins V W g t a a') (hb : Twins V W g t b b')
    (hgt : Facing V W g t) : g.productLe a b = t.productLe a' b' := by
  rw [productLe, productLe, ha.order_eq hb hgt]

theorem Twins.sumLe_eq (ha : Twins V W g t a a') (hb : Twins V W g t b b')
    (hgt : Facing V W g t) : g.sumLe a b = t.sumLe a' b' := by
  rw [sumLe, sumLe, ha.isConstant_eq hgt, hb.isConstant_eq hgt, ha.productLe_eq hb hgt]

/-- Lists of related elements are sorted alike, if related elements are compared alike. -/
theorem forall₂_mergeSort {α β : Type} {R : α → β → Prop} {le : α → α → Bool} {le' : β → β → Bool}
    {as : List α} {bs : List β} (h : List.Forall₂ R as bs)
    (hle : ∀ a b a' b', R a a' → R b b' → le a b = le' a' b') :
    List.Forall₂ R (as.mergeSort le) (bs.mergeSort le') := by
  obtain ⟨hlen, hR⟩ := List.forall₂_iff_zip.1 h
  have hR' : ∀ p ∈ as.zip bs, R p.1 p.2 := fun p hp => hR hp
  -- Both lists are images of the list of pairs, which is sorted as each of them is.
  have hfst : (as.zip bs).map Prod.fst = as := List.map_fst_zip hlen.le
  have hsnd : (as.zip bs).map Prod.snd = bs := List.map_snd_zip hlen.ge
  have hsort := List.map_mergeSort (r := fun p q : α × β => le p.1 q.1) (s := le) (f := Prod.fst)
    (l := as.zip bs) fun _ _ _ _ => rfl
  have hsort' := List.map_mergeSort (r := fun p q : α × β => le p.1 q.1) (s := le') (f := Prod.snd)
    (l := as.zip bs) fun p hp q hq => hle _ _ _ _ (hR' p hp) (hR' q hq)
  rw [hfst] at hsort
  rw [hsnd] at hsort'
  rw [← hsort, ← hsort', List.forall₂_map_left_iff, List.forall₂_map_right_iff, List.forall₂_same]
  exact fun p hp => hR' p (List.mem_mergeSort.1 hp)

end ExactAlgebra.Graph
