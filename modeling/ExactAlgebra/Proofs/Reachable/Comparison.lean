import ExactAlgebra.Proofs.Reachable.Basic
import ExactAlgebra.Proofs.Graph.Order

/-!
Comparing two nodes comes to an end, whatever they are made of, and what comes out is a total order
of the nodes of a graph.
-/

namespace ExactAlgebra.Graph

variable {g : Graph} {a b c : NodeId} {xs ys : List NodeId} {r : Ordering}

mutual

/-- The recursion that compares `a` with `b`, loops not being entered, comes to the end `r`. -/
inductive Compares (g : Graph) : NodeId → NodeId → Ordering → Prop
  | same (a : NodeId) : Compares g a a .eq
  | loops {a b : NodeId} (hab : a ≠ b) (ha : g.isLoop a = true) (hb : g.isLoop b = true) :
      Compares g a b (ofLess (a < b))
  | loopFirst {a b : NodeId} (ha : g.isLoop a = true) (hb : g.isLoop b = false) :
      Compares g a b .gt
  | loopSecond {a b : NodeId} (ha : g.isLoop a = false) (hb : g.isLoop b = true) :
      Compares g a b .lt
  | shapes {a b : NodeId} {r : Ordering} (hab : a ≠ b) (ha : g.isLoop a = false)
      (hb : g.isLoop b = false) (h : g.compareShapes a b (g.shape a) (g.shape b) = r)
      (hr : r ≠ .eq) : Compares g a b r
  | operands {a b : NodeId} {r : Ordering} (hab : a ≠ b) (ha : g.isLoop a = false)
      (hb : g.isLoop b = false) (h : g.compareShapes a b (g.shape a) (g.shape b) = .eq)
      (hs : ComparesAll g (g.operands a) (g.operands b) r) : Compares g a b r

/-- The recursion compares operands from left to right, up to the first that differ. -/
inductive ComparesAll (g : Graph) : List NodeId → List NodeId → Ordering → Prop
  | done : ComparesAll g [] [] .eq
  | shorter {y : NodeId} {ys : List NodeId} : ComparesAll g [] (y :: ys) .lt
  | longer {x : NodeId} {xs : List NodeId} : ComparesAll g (x :: xs) [] .gt
  | differ {x y : NodeId} {xs ys : List NodeId} {r : Ordering} (h : Compares g x y r)
      (hr : r ≠ .eq) : ComparesAll g (x :: xs) (y :: ys) r
  | agree {x y : NodeId} {xs ys : List NodeId} {r : Ordering} (h : Compares g x y .eq)
      (hs : ComparesAll g xs ys r) : ComparesAll g (x :: xs) (y :: ys) r

end

/-- One step of the comparison, after which any depth will do. -/
theorem WellFormed.order_eq (hg : g.WellFormed) (a b : NodeId) :
    g.order a b =
      if a = b then .eq
      else match g.isLoop a, g.isLoop b with
        | true, true => ofLess (a < b)
        | true, false => .gt
        | false, true => .lt
        | false, false => (g.compareShapes a b (g.shape a) (g.shape b)).then
            (List.compareLex g.order (g.operands a) (g.operands b)) := by
  rw [order, compareWithin]
  split_ifs with hab
  · rfl
  cases ha : g.isLoop a with
  | true => cases g.isLoop b <;> rfl
  | false =>
    cases g.isLoop b with
    | true => rfl
    | false =>
      dsimp only
      congr 1
      apply compareLex_congr
      intro x hx y _
      exact hg.compareWithin_eq (hg.operands_lt a ha x hx) y

mutual

theorem Compares.order_eq (hg : g.WellFormed) {a b : NodeId} {r : Ordering} :
    g.Compares a b r → g.order a b = r
  | .same a => by
    rw [hg.order_eq, if_pos rfl]
  | .loops hab ha hb => by
    rw [hg.order_eq, if_neg hab, ha, hb]
  | .loopFirst ha hb => by
    have hab : a ≠ b := fun h => by rw [h, hb] at ha; cases ha
    rw [hg.order_eq, if_neg hab, ha, hb]
  | .loopSecond ha hb => by
    have hab : a ≠ b := fun h => by rw [h, hb] at ha; cases ha
    rw [hg.order_eq, if_neg hab, ha, hb]
  | .shapes hab ha hb h hr => by
    rw [hg.order_eq, if_neg hab, ha, hb]
    dsimp only
    rw [h]
    cases r with
    | eq => exact absurd rfl hr
    | lt | gt => rfl
  | .operands hab ha hb h hs => by
    rw [hg.order_eq, if_neg hab, ha, hb]
    dsimp only
    rw [h, Ordering.eq_then]
    exact hs.compareLex_eq hg

theorem ComparesAll.compareLex_eq (hg : g.WellFormed) {xs ys : List NodeId} {r : Ordering} :
    g.ComparesAll xs ys r → List.compareLex g.order xs ys = r
  | .done => rfl
  | .shorter => rfl
  | .longer => rfl
  | .differ h hr => by
    rw [List.compareLex_cons_cons, h.order_eq hg]
    cases r with
    | eq => exact absurd rfl hr
    | lt | gt => rfl
  | .agree h hs => by
    rw [List.compareLex_cons_cons, h.order_eq hg, Ordering.eq_then]
    exact hs.compareLex_eq hg

end

theorem comparesAll_compareLex (h : ∀ x ∈ xs, ∀ y, g.Compares x y (g.order x y)) :
    g.ComparesAll xs ys (List.compareLex g.order xs ys) := by
  induction xs generalizing ys with
  | nil =>
    cases ys with
    | nil => exact .done
    | cons y ys => exact .shorter
  | cons x xs ih =>
    cases ys with
    | nil => exact .longer
    | cons y ys =>
      have hx : g.Compares x y (g.order x y) := h x List.mem_cons_self y
      have hxs : g.ComparesAll xs ys (List.compareLex g.order xs ys) :=
        ih fun z hz => h z (List.mem_cons_of_mem x hz)
      rw [List.compareLex_cons_cons]
      cases hr : g.order x y with
      | eq =>
        rw [hr] at hx
        rw [Ordering.eq_then]
        exact .agree hx hxs
      | lt =>
        rw [hr] at hx
        rw [Ordering.lt_then]
        exact .differ hx Ordering.noConfusion
      | gt =>
        rw [hr] at hx
        rw [Ordering.gt_then]
        exact .differ hx Ordering.noConfusion

/-- The recursion ends, since the operands of a node that is no loop have smaller numbers. -/
theorem WellFormed.compares_order (hg : g.WellFormed) (a b : NodeId) :
    g.Compares a b (g.order a b) := by
  induction a using Nat.strong_induction_on generalizing b with
  | _ a ih =>
    rw [hg.order_eq]
    split_ifs with hab
    · exact hab ▸ .same a
    cases ha : g.isLoop a with
    | true =>
      cases hb : g.isLoop b with
      | true => exact .loops hab ha hb
      | false => exact .loopFirst ha hb
    | false =>
      cases hb : g.isLoop b with
      | true => exact .loopSecond ha hb
      | false =>
        have hops : g.ComparesAll (g.operands a) (g.operands b)
            (List.compareLex g.order (g.operands a) (g.operands b)) :=
          comparesAll_compareLex fun x hx => ih x (hg.operands_lt a ha x hx)
        dsimp only
        cases hs : g.compareShapes a b (g.shape a) (g.shape b) with
        | eq =>
          rw [Ordering.eq_then]
          exact .operands hab ha hb hs hops
        | lt =>
          rw [Ordering.lt_then]
          exact .shapes hab ha hb hs Ordering.noConfusion
        | gt =>
          rw [Ordering.gt_then]
          exact .shapes hab ha hb hs Ordering.noConfusion

theorem WellFormed.compares_iff (hg : g.WellFormed) : g.Compares a b r ↔ g.order a b = r := by
  constructor
  · exact Compares.order_eq hg
  · intro h
    exact h ▸ hg.compares_order a b

/--
In every graph that programs reach, the comparison of nodes ends with one outcome only. Exchanged
nodes compare the other way round, smaller nodes than smaller ones are smaller, and only a node and
itself compare equal.
-/
theorem Reachable.order_total (hg : g.Reachable) (ha : a < g.size) (hb : b < g.size) :
    (∀ r, g.Compares a b r ↔ g.order a b = r) ∧
      g.order a b = (g.order b a).swap ∧
      (∀ c, g.order a b = .lt → g.order b c = .lt → g.order a c = .lt) ∧
      (g.order a b = .eq ↔ a = b) := by
  have hwf := hg.regular.toWellFormed
  have htrans := hwf.transCmp_order
  refine ⟨fun r => hwf.compares_iff, htrans.eq_swap, fun c => Std.TransCmp.lt_trans, ?_⟩
  constructor
  · exact hwf.eq_of_order ha hb
  · intro h
    rw [h]
    exact compareWithin_self g _ b

theorem twoPlaceholders_order :
    twoPlaceholders.Compares 3 2 .lt ∧ twoPlaceholders.order 2 3 = .gt := by
  have hsize : 2 < twoPlaceholders.size ∧ 3 < twoPlaceholders.size := by decide
  have hlt : twoPlaceholders.order 3 2 = .lt := by decide
  obtain ⟨hcompares, -, -, -⟩ := twoPlaceholders_reachable.order_total hsize.2 hsize.1
  obtain ⟨-, hswap, -, -⟩ := twoPlaceholders_reachable.order_total hsize.1 hsize.2
  constructor
  · exact (hcompares .lt).2 hlt
  · rw [hswap, hlt]
    rfl

end ExactAlgebra.Graph
