import ExactAlgebra.Proofs.Graph.Evolution
import ExactAlgebra.Proofs.Graph.Order

/-!
Elementary expressions: no node of theirs is self-referential, and their symbols, functions and
two-place operators come from a given vocabulary. Whatever happens to a graph, an elementary
expression stays what it is as long as its symbols are not closed.
-/

namespace ExactAlgebra.Graph

/-- The symbol nodes, functions and two-place operators that expressions may be made of. -/
structure Vocabulary where
  symbols : NodeId → Prop
  callees : Callee → Prop
  operators : Operator → Prop

namespace Vocabulary

/-- A node with a shape belongs to expressions over a vocabulary. -/
def Covers (V : Vocabulary) (x : NodeId) : Shape → Prop
  | .symbol _ => V.symbols x
  | .call f => V.callees f
  | .binary op => V.operators op
  | _ => True

/-- The vocabulary without the symbols that were closed in a graph. -/
def openIn (V : Vocabulary) (g : Graph) : Vocabulary where
  symbols x := V.symbols x ∧ g.isLoop x = false
  callees := V.callees
  operators := V.operators

end Vocabulary

inductive Elementary (V : Vocabulary) (g : Graph) : NodeId → Prop
  | node {x : NodeId} (hx : x < g.size) (hl : g.isLoop x = false) (hs : V.Covers x (g.shape x))
      (hops : ∀ y ∈ g.operands x, Elementary V g y) : Elementary V g x

/-- `g'` came from `g`, and no symbol of a vocabulary was closed. -/
structure Retains (V : Vocabulary) (g g' : Graph) : Prop extends Develops g g' where
  symbol_eq : ∀ x, V.symbols x → x < g.size → g'.node x = g.node x

variable {V V' : Vocabulary} {g g' g'' : Graph} {s : Shape} {x y : NodeId} {xs : List NodeId}

/-! ### Developments -/

theorem Extends.retains (h : g.Extends g') : g.Retains V g' :=
  ⟨h.develops, fun x _ => h.node_eq x⟩

theorem Retains.refl (V : Vocabulary) (g : Graph) : g.Retains V g := (Extends.refl g).retains

theorem Retains.trans (h : g.Retains V g') (h' : g'.Retains V g'') : g.Retains V g'' where
  toDevelops := h.toDevelops.trans h'.toDevelops
  symbol_eq x hs hx := (h'.symbol_eq x hs (h.lt_size hx)).trans (h.symbol_eq x hs hx)

/-- A symbol that is still open was not touched. -/
theorem Develops.node_eq_of_not_isLoop (h : g.Develops g') (hx : x < g.size)
    (hl : g'.isLoop x = false) : g'.node x = g.node x := by
  rcases h.node_eq x hx with he | ⟨-, hl'⟩
  · exact he
  · rw [hl] at hl'
    cases hl'

theorem Develops.retains_openIn (h : g.Develops g') (V : Vocabulary) :
    g.Retains (V.openIn g') g' :=
  ⟨h, fun _ hs hx => h.node_eq_of_not_isLoop hx hs.2⟩

theorem Retains.openIn (h : g.Retains V g') (g'' : Graph) : g.Retains (V.openIn g'') g' :=
  ⟨h.toDevelops, fun x hs => h.symbol_eq x hs.1⟩

/-! ### Elementary expressions -/

namespace Elementary

theorem lt_size (h : g.Elementary V x) : x < g.size := by
  cases h
  assumption

theorem isLoop_eq (h : g.Elementary V x) : g.isLoop x = false := by
  cases h
  assumption

theorem covers (h : g.Elementary V x) : V.Covers x (g.shape x) := by
  cases h
  assumption

theorem operands (h : g.Elementary V x) : ∀ y ∈ g.operands x, g.Elementary V y := by
  cases h
  assumption

theorem of_node (hx : x < g.size) (hn : g.node x = { shape := s, operands := xs })
    (hs : V.Covers x s) (hxs : ∀ y ∈ xs, g.Elementary V y) : g.Elementary V x := by
  refine .node hx ?_ ?_ ?_
  · rw [isLoop, hn]
  · rwa [shape, hn]
  · rwa [Graph.operands, hn]

/-- A larger vocabulary has the same expressions, and more. -/
theorem mono (h : g.Elementary V x) (hs : ∀ x s, V.Covers x s → V'.Covers x s) :
    g.Elementary V' x := by
  induction h with
  | node hx hl hc _ ih => exact .node hx hl (hs _ _ hc) ih

theorem of_openIn (h : g.Elementary (V.openIn g') x) : g.Elementary V x := by
  refine h.mono fun x s hs => ?_
  cases s with
  | symbol => exact hs.1
  | _ => exact hs

theorem openIn (h : g.Elementary V x) : g.Elementary (V.openIn g) x := by
  induction h with
  | @node x hx hl hc _ ih =>
    refine .node hx hl ?_ ih
    cases hs : g.shape x with
    | symbol =>
      rw [hs] at hc
      exact ⟨hc, hl⟩
    | _ =>
      rw [hs] at hc
      exact hc

end Elementary

theorem WellFormed.elementary_zero (hg : g.WellFormed) : g.Elementary V zero :=
  .of_node hg.zero_lt_size hg.node_zero trivial (fun _ hy => absurd hy List.not_mem_nil)

theorem WellFormed.elementary_one (hg : g.WellFormed) : g.Elementary V one :=
  .of_node hg.one_lt_size hg.node_one trivial (fun _ hy => absurd hy List.not_mem_nil)

theorem Retains.node_eq_of_elementary (h : g.Retains V g') (hx : g.Elementary V x) :
    g'.node x = g.node x := by
  rcases h.node_eq x hx.lt_size with he | ⟨hs, -⟩
  · exact he
  · have hc := hx.covers
    cases hsx : g.shape x with
    | symbol =>
      rw [hsx] at hc
      exact h.symbol_eq x hc hx.lt_size
    | _ =>
      rw [hsx] at hs
      exact hs.elim

theorem Retains.elementary (h : g.Retains V g') (hx : g.Elementary V x) : g'.Elementary V x := by
  induction hx with
  | @node x hx hl hc hops ih =>
    have he := h.node_eq_of_elementary (.node hx hl hc hops)
    refine .node (h.lt_size hx) ?_ ?_ ?_
    · rwa [isLoop, he]
    · rwa [shape, he]
    · rwa [operands, he]

theorem Extends.elementary (h : g.Extends g') (hx : g.Elementary V x) : g'.Elementary V x :=
  h.retains.elementary hx

/-- What is elementary after a development was so before. -/
theorem Develops.elementary_of (h : g.Develops g') (hg : g.WellFormed) (hx : g'.Elementary V x)
    (hlt : x < g.size) : g.Elementary V x := by
  induction hx with
  | @node x _ hl hc _ ih =>
    have he := h.node_eq_of_not_isLoop hlt hl
    rw [isLoop, he] at hl
    rw [shape, he] at hc
    rw [operands, he] at ih
    exact .node hlt hl hc fun y hy => ih y hy (hg.operands_lt_size x y hy)

theorem Retains.agree (h : g.Retains V g') (hg : g.WellFormed) : Agree (g.Elementary V) g g' where
  node_eq _ hx := h.node_eq_of_elementary hx
  operands _ hx := hx.operands
  calleeRank_eq x f _ hf := by
    obtain ⟨fs, hfs⟩ := h.callees_prefix
    simp only [Graph.calleeRank_eq, ← hfs]
    exact List.idxOf_append_of_mem (Array.mem_toList_iff.2 (hg.callee_mem x f hf))

end ExactAlgebra.Graph
