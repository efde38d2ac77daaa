import Mathlib
import ExactAlgebra.Proofs.Graph.Forms
import ExactAlgebra.Proofs.Graph.Twins
import ExactAlgebra.Proofs.Reachable.Canonical
import ExactAlgebra.Proofs.Tree.Reading

/-!
Expressions that are told apart by their texts. A sum does not put its operands in parentheses, and
only powers and negations do so with arrows. What is written of an expression without such operands
is read back in a graph that programs reach, provided that names are words.
-/

namespace ExactAlgebra

/-- An operand that is looser than a node of a shape, and stands in it without parentheses. -/
def Shape.Spills : Shape → Shape → Prop
  | .sum, .binary _ | .sum, .arrow | .product, .arrow | .binary _, .arrow | .arrow, .arrow => True
  | _, _ => False

/-- An operand that does not spill is less loose than the node, or in parentheses or brackets. -/
theorem Shape.holds_node {s s' : Shape} (hspills : ¬ s.Spills s') (hsum : s = sum → s' ≠ sum)
    (hproduct : s = product → s' ≠ product) (ts : List Tree) : s.Holds (.node s' ts) := by
  cases s with
  | constant | symbol | call | set => exact .inl rfl
  | unary | power =>
    cases s' with
    | constant | symbol | call | set => exact .inr (.inr (Nat.succ_pos _))
    | unary | power | product | sum | binary | arrow => exact .inr (.inl rfl)
  | product =>
    cases s' with
    | sum | binary => exact .inr (.inl rfl)
    | product => exact absurd rfl (hproduct rfl)
    | arrow => exact absurd trivial hspills
    | constant | symbol | call | set | unary | power =>
      exact .inr (.inr (Nat.le_of_ble_eq_true rfl))
  | sum =>
    cases s' with
    | sum => exact absurd rfl (hsum rfl)
    | binary | arrow => exact absurd trivial hspills
    | constant | symbol | call | set | unary | power | product =>
      exact .inr (.inr (Nat.le_of_ble_eq_true rfl))
  | binary =>
    cases s' with
    | binary => exact .inr (.inl rfl)
    | arrow => exact absurd trivial hspills
    | constant | symbol | call | set | unary | power | product | sum =>
      exact .inr (.inr (Nat.le_of_ble_eq_true rfl))
  | arrow =>
    cases s' with
    | arrow => exact absurd trivial hspills
    | constant | symbol | call | set | unary | power | product | sum | binary =>
      exact .inr (.inr (Nat.le_of_ble_eq_true rfl))

namespace Graph

variable {lib : String → Callee} {g : Graph} {x y : NodeId}

/-- Symbols that are found by their names, functions that a library has under theirs, and operators
for two operands. -/
def readable (g : Graph) (lib : String → Callee) : Vocabulary where
  symbols x := g.interned.symbols x ∧ ∀ name, g.shape x = .symbol name → IsName name
  callees f := IsWord f.name ∧ lib f.name = f
  operators op := op ∈ Operator.infixes

/-- An expression whose text says what it is: what has one operand is a negation, and no operand
spills out of its node. -/
structure Legible (g : Graph) (lib : String → Callee) (x : NodeId) : Prop where
  elementary : g.Elementary (g.readable lib) x
  negation : ∀ y op, g.Reaches x y → g.shape y = .unary op → op = .negation
  contains : ∀ y, g.Reaches x y → ∀ z ∈ g.operands y, ¬ (g.shape y).Spills (g.shape z)

theorem Legible.operand (h : g.Legible lib x) (hy : y ∈ g.operands x) : g.Legible lib y where
  elementary := h.elementary.operands y hy
  negation z op hz := h.negation z op (hz.of_operand hy)
  contains z hz := h.contains z (hz.of_operand hy)

theorem Regular.suits (hg : g.Regular) (h : g.Legible lib x) :
    (g.shape x).Suits lib (g.operands x).length := by
  have harity := hg.arity x
  have hcovers := h.elementary.covers
  have hadmits := hg.admits x h.elementary.isLoop_eq
  cases hs : g.shape x with
  | sum => exact hadmits.two_le .sum hs
  | product => exact hadmits.two_le .product hs
  | unary op =>
    rw [hs] at harity
    exact ⟨h.negation x op .refl hs, harity⟩
  | set => trivial
  | symbol name =>
    rw [hs] at harity hcovers
    exact ⟨hcovers.2 name hs, harity⟩
  | binary op =>
    rw [hs] at harity hcovers
    exact ⟨hcovers, harity⟩
  | call f =>
    rw [hs] at hcovers
    exact hcovers
  | constant | power | arrow =>
    rw [hs] at harity
    exact harity

theorem Regular.holds (hg : g.Regular) (h : g.Legible lib x) (hy : y ∈ g.operands x) :
    (g.shape x).Holds (g.tree y) := by
  rw [(h.operand hy).elementary.tree_eq hg.toWellFormed]
  apply Shape.holds_node (h.contains x .refl y hy)
  · exact fun hs => (hg.operand (k := .sum) h.elementary hs y hy).1
  · exact fun hs => (hg.operand (k := .product) h.elementary hs y hy).1

theorem Regular.legible_tree (hg : g.Regular) (h : g.Legible lib x) : (g.tree x).Legible lib := by
  have hx := h.elementary
  induction hx with
  | @node x hlt hl hc hops ih =>
    rw [h.elementary.tree_eq hg.toWellFormed]
    apply Tree.Legible.node
    · rw [List.length_map]
      exact hg.suits h
    · intro t ht
      obtain ⟨y, hy, rfl⟩ := List.mem_map.1 ht
      exact ih y hy (h.operand hy)
    · intro t ht
      obtain ⟨y, hy, rfl⟩ := List.mem_map.1 ht
      exact hg.holds h hy

/-- What is written of an expression is read back as its tree. -/
theorem Reachable.read_render (hg : g.Reachable) (h : g.Legible lib x) :
    Tree.read lib (g.render x) = some (g.tree x) :=
  (hg.regular.legible_tree h).read_render

/-- Expressions are told apart by their texts. -/
theorem Reachable.eq_of_render_eq (hg : g.Reachable) (hx : g.Legible lib x) (hy : g.Legible lib y)
    (he : g.render x = g.render y) : x = y := by
  have hwf := hg.regular.toWellFormed
  have htree : g.tree x = g.tree y := by
    have hread := hg.read_render hx
    rw [he, hg.read_render hy] at hread
    exact (Option.some.inj hread).symm
  refine hx.elementary.eq_of_tree_eq hwf ?_ hy.elementary htree
  exact fun a b ha hb => hwf.named.unique a b ha.1 hb.1

/-- The sum `x + x` is read back, and no other legible node has its text. -/
theorem doubled_legible : doubled.Reachable ∧ doubled.Legible lib 3 ∧
    Tree.read lib (doubled.render 3) = some (doubled.tree 3) ∧
    ∀ y, doubled.Legible lib y → doubled.render 3 = doubled.render y → 3 = y := by
  have hname : IsName "x" := ⟨⟨by decide, by decide, fun c hc => by cases hc; rfl⟩, by decide⟩
  have hsymbol : (doubled.readable lib).symbols 2 := by
    refine ⟨⟨"x", rfl, ?_⟩, fun name hs => ?_⟩
    · rw [doubled, index_extend, if_neg (by simp), index_extend, if_pos rfl]
      rfl
    · cases hs
      exact hname
  have hx : doubled.Elementary (doubled.readable lib) 2 :=
    .of_node (by decide) rfl hsymbol fun _ hy => absurd hy List.not_mem_nil
  have hsum : doubled.Elementary (doubled.readable lib) 3 :=
    .of_node (by decide) rfl trivial (by simpa using hx)
  have hlt : ∀ {y}, doubled.Reaches 3 y → y < 4 := fun h => h.lt_size doubled_wellFormed (by decide)
  have hlegible : doubled.Legible lib 3 := by
    refine ⟨hsum, fun y op hy hs => ?_, fun y hy z hz => ?_⟩
    · have := hlt hy
      interval_cases y <;> cases hs
    · have := hlt hy
      have hmem : y = 3 ∧ z = 2 := by
        interval_cases y <;> simp_all [doubled, operands, node, Graph.extend, push, empty]
      obtain ⟨rfl, rfl⟩ := hmem
      exact id
  exact ⟨doubled_reachable, hlegible, doubled_reachable.read_render hlegible,
    fun y hy => doubled_reachable.eq_of_render_eq hlegible hy⟩

/-- The sum of `x` and the relation `y = z`, and the relation between `x + y` and `z`. -/
def spilling : Graph :=
  [Action.construct (.symbol "x"), .construct (.symbol "y"), .construct (.symbol "z"),
    .construct (.binary .equal 3 4), .construct (.sum [2, 5]), .construct (.sum [2, 3]),
    .construct (.binary .equal 7 4)].foldl (fun g a => a.after g) empty

/-- Where an operand spills, two nodes have one text. -/
theorem spilling_render : spilling.Reachable ∧ (spilling.shape 6).Spills (spilling.shape 5) ∧
    spilling.render 6 = "x + y = z" ∧ spilling.render 8 = "x + y = z" := by
  have hsum : spilling.shape 6 = .sum := by cbv
  have hbinary : spilling.shape 5 = .binary .equal := by cbv
  have htext : spilling.render 6 = "x + y = z" := by cbv
  have htext' : spilling.render 8 = "x + y = z" := by cbv
  refine ⟨Reachable.empty.acts _, ?_, htext, htext'⟩
  rw [hsum, hbinary]
  trivial

end Graph

end ExactAlgebra
