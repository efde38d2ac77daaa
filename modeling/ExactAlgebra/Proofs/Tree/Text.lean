import ExactAlgebra.Graph.Tree
import ExactAlgebra.Proofs.Graph.WellFormed

/-!
The texts of trees, put together from the texts of the operands with what links or encloses them.
-/

namespace ExactAlgebra

namespace Shape

/-- The kinds of nodes from those that are one piece to those that fall apart most easily. -/
def looseness : Shape → Nat
  | constant _ | symbol _ | call _ | set => 0
  | unary _ => 1
  | power => 2
  | product => 3
  | sum => 4
  | binary _ => 5
  | arrow => 6

theorem looseness_le (s : Shape) : s.looseness ≤ 6 := by
  cases s <;> exact Nat.le_of_ble_eq_true rfl

/-- The text between the operands of a node. -/
def link : Shape → String
  | power => "^"
  | product => "*"
  | sum => " + "
  | binary op => op.text
  | arrow => " -> "
  | _ => ""

/-- Which operands stand in parentheses. -/
def groups : Shape → Tree → Bool
  | product, t => t.isLooseFactor
  | power, t | unary _, t => !t.standsAlone
  | binary _, t => t.isBinary
  | _, _ => false

end Shape

namespace Tree

variable {s : Shape} {t : Tree} {ts : List Tree}

/-- The text of an operand. -/
def part (s : Shape) (t : Tree) : String := enclose (s.groups t) t.render

theorem renderAll_eq_map (ts : List Tree) : renderAll ts = ts.map render := by
  induction ts with
  | nil => rfl
  | cons t ts ih => rw [renderAll, ih, List.map_cons]

theorem zipWith_enclose (test : Tree → Bool) (ts : List Tree) :
    List.zipWith (fun t text => enclose (test t) text) ts (renderAll ts) =
      ts.map fun t => enclose (test t) t.render := by
  rw [renderAll_eq_map, List.zipWith_map_right, List.zipWith_self]

theorem render_linked (hs : 1 < s.looseness) (ts : List Tree) :
    (node s ts).render = s.link.intercalate (ts.map (part s)) := by
  rw [render]
  cases s with
  | sum | arrow =>
    rw [assemble, renderAll_eq_map]
    rfl
  | product | power | binary =>
    simp only [assemble, zipWith_enclose]
    rfl
  | constant | symbol | call | set => exact absurd hs (Nat.not_lt_zero 1)
  | unary => exact absurd hs (Nat.lt_irrefl 1)

theorem render_unary (op : Operator) (t : Tree) :
    (node (.unary op) [t]).render = op.text ++ part (.unary op) t := by
  rw [render]
  simp only [assemble, zipWith_enclose]
  rfl

theorem render_call (f : Callee) (ts : List Tree) :
    (node (.call f) ts).render = f.name ++ "(" ++ ", ".intercalate (ts.map render) ++ ")" := by
  rw [render, assemble, renderAll_eq_map]

theorem render_set (ts : List Tree) :
    (node .set ts).render = "\x7b" ++ ", ".intercalate (ts.map render) ++ "\x7d" := by
  rw [render, assemble, renderAll_eq_map]

/-! ### Lengths -/

theorem length_le_intercalate {separator text : String} {texts : List String} (h : text ∈ texts) :
    text.length ≤ (separator.intercalate texts).length := by
  induction texts with
  | nil => cases h
  | cons first texts ih =>
    cases texts with
    | nil =>
      rw [List.mem_singleton.1 h]
      exact Nat.le_refl _
    | cons second texts =>
      have htext : separator.intercalate (first :: second :: texts) =
          first ++ separator ++ separator.intercalate (second :: texts) := by
        rw [← String.toList_inj]
        simp only [String.toList_intercalate, String.toList_append, List.map_cons,
          List.intercalate_cons_cons]
      rw [htext, String.length_append, String.length_append]
      rcases List.mem_cons.1 h with rfl | h
      · rw [Nat.add_assoc]
        exact Nat.le_add_right ..
      · exact (ih h).trans (Nat.le_add_left ..)

theorem length_part (s : Shape) (t : Tree) :
    (part s t).length = t.render.length + if s.groups t then 2 else 0 := by
  rw [part, enclose]
  split
  · rw [String.length_append, String.length_append]
    change 1 + _ + 1 = _
    omega
  · rfl

theorem length_part_le (hs : s.Allows ts.length) (h : t ∈ ts) (hloose : s.looseness ≠ 0) :
    (part s t).length ≤ (node s ts).render.length := by
  by_cases hlinked : 1 < s.looseness
  · rw [render_linked hlinked]
    exact length_le_intercalate (List.mem_map_of_mem h)
  · cases s with
    | unary op =>
      obtain ⟨u, rfl⟩ := List.length_eq_one_iff.1 hs
      rw [List.mem_singleton.1 h, render_unary, String.length_append]
      exact Nat.le_add_left ..
    | constant | symbol | call | set => exact absurd rfl hloose
    | power | product | sum | binary | arrow => exact absurd (Nat.le_of_ble_eq_true rfl) hlinked

theorem length_operand_le (hs : s.Allows ts.length) (h : t ∈ ts) (hloose : s.looseness ≠ 0) :
    t.render.length ≤ (node s ts).render.length := by
  have hpart := length_part_le hs h hloose
  rw [length_part] at hpart
  exact (Nat.le_add_right ..).trans hpart

/-- In parentheses or brackets, the text of an operand is shorter than the text of the node. -/
theorem length_operand_lt (hs : s.Allows ts.length) (h : t ∈ ts)
    (hbrackets : s.looseness = 0 ∨ s.groups t = true) :
    t.render.length < (node s ts).render.length := by
  by_cases hloose : s.looseness = 0
  · have hitem : t.render.length ≤ (", ".intercalate (ts.map render)).length :=
      length_le_intercalate (List.mem_map_of_mem h)
    cases s with
    | constant | symbol =>
      rw [List.eq_nil_of_length_eq_zero hs] at h
      cases h
    | call f =>
      rw [render_call, String.length_append, String.length_append]
      exact Nat.lt_succ_of_le (hitem.trans (Nat.le_add_left ..))
    | set =>
      rw [render_set, String.length_append, String.length_append]
      exact Nat.lt_succ_of_le (hitem.trans (Nat.le_add_left ..))
    | unary | power | product | sum | binary | arrow => cases hloose
  · have hpart := length_part_le hs h hloose
    rw [length_part, if_pos (hbrackets.resolve_left hloose)] at hpart
    exact Nat.lt_of_lt_of_le (Nat.lt_add_of_pos_right Nat.two_pos) hpart

end Tree

end ExactAlgebra
