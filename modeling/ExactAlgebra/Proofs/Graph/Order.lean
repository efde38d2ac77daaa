import ExactAlgebra.Graph.Order
import ExactAlgebra.Proofs.Graph.WellFormed
import Mathlib.Data.String.Basic

/-!
The canonical order is a total order of the nodes of a graph: lists of operands have one sorted
form only.
-/

namespace ExactAlgebra.Graph

open Std (TransCmp OrientedCmp)

variable {g g' : Graph} {a b c x y : NodeId} {d d' : Nat} {xs ys : List NodeId}

/-! ### The keys of nodes -/

/-- Loops come last, by number. -/
def loopRank (g : Graph) (x : NodeId) : Nat := if g.isLoop x then x + 1 else 0

/-- Symbols of one name are told apart by number. -/
def symbolRank (g : Graph) (x : NodeId) : Nat :=
  match g.shape x with
  | .symbol _ => x
  | _ => 0

def symbolName (g : Graph) (x : NodeId) : String :=
  match g.shape x with
  | .symbol name => name
  | _ => ""

def callRank (g : Graph) (x : NodeId) : Nat :=
  match g.shape x with
  | .call f => g.calleeRank f
  | _ => 0

/-- The comparison of two nodes without their operands. -/
def compareKeys (g : Graph) : NodeId → NodeId → Ordering :=
  compareLex (compareOn g.loopRank) <|
  compareLex (compareOn fun x => (g.shape x).rank) <|
  compareLex (compareOn fun x => (g.shape x).op.rank) <|
  compareLex (compareOn fun x => (g.value? x).getD 0) <|
  compareLex (compareOn g.symbolName) <|
  compareLex (compareOn g.symbolRank) (compareOn g.callRank)

instance (g : Graph) : TransCmp g.compareKeys := by
  unfold compareKeys
  infer_instance

theorem compare_eq_ite {α : Type} [LinearOrder α] (p q : α) :
    compare p q = if p < q then .lt else if q < p then .gt else .eq := by
  rcases lt_trichotomy p q with h | h | h
  · rw [if_pos h, compare_lt_iff_lt.2 h]
  · rw [if_neg h.not_lt, if_neg h.symm.not_lt, compare_eq_iff_eq.2 h]
  · rw [if_neg h.not_gt, if_pos h, compare_gt_iff_gt.2 h]

theorem compare_of_ne (h : a ≠ b) : compare a b = ofLess (a < b) := by
  rw [compare_eq_ite]
  rcases Nat.lt_or_gt_of_ne h with hlt | hlt
  · rw [if_pos hlt, decide_eq_true hlt]
    rfl
  · rw [if_neg (Nat.lt_asymm hlt), if_pos hlt, decide_eq_false (Nat.lt_asymm hlt)]
    rfl

theorem ite_ofLess {s t : String} (h : a ≠ b) :
    (if s < t then .lt else if t < s then .gt else ofLess (a < b)) =
      (compare s t).then (compare a b) := by
  rw [compare_eq_ite s t, compare_of_ne h]
  split_ifs <;> rfl

/-- Between nodes that are no loops, the comparison of shapes is that of keys. -/
theorem compareShapes_eq (hab : a ≠ b) (ha : g.isLoop a = false) (hb : g.isLoop b = false) :
    g.compareShapes a b (g.shape a) (g.shape b) = g.compareKeys a b := by
  have hloop : compare (g.loopRank a) (g.loopRank b) = .eq := by
    simp [loopRank, ha, hb]
  simp only [compareKeys, compareLex, compareOn, hloop, symbolName, symbolRank, callRank, value?,
    Ordering.eq_then]
  cases hsa : g.shape a with
  | constant p =>
    cases g.shape b with
    | constant q => simp [compareShapes, Shape.rank, Shape.op, Shape.value?, compare_eq_ite p q]
    | _ => rfl
  | symbol s =>
    cases g.shape b with
    | symbol t =>
      rw [compareShapes, ite_ofLess hab]
      simp [Shape.rank, Shape.op, Shape.value?]
    | _ => rfl
  | sum | product | power | set | arrow =>
    cases g.shape b with
    | sum | product | power | set | arrow => simp [compareShapes, Shape.op, Shape.value?]
    | _ => rfl
  | call f =>
    cases g.shape b with
    | call f' => simp [compareShapes, Shape.rank, Shape.op, Shape.value?]
    | _ => rfl
  | binary op =>
    cases g.shape b with
    | binary op' => simp [compareShapes, Shape.value?]
    | _ => rfl
  | unary op =>
    cases g.shape b with
    | unary op' => simp [compareShapes, Shape.value?]
    | _ => rfl

/-! ### Transitivity -/

/-- The operands that are compared; loops are not entered. -/
def inner (g : Graph) (x : NodeId) : List NodeId := if g.isLoop x then [] else g.operands x

theorem compareWithin_self (g : Graph) (d : Nat) (a : NodeId) : g.compareWithin d a a = .eq := by
  cases d with
  | zero => rfl
  | succ d => rw [compareWithin, if_pos rfl]

theorem compareLex_self (g : Graph) (d : Nat) (xs : List NodeId) :
    List.compareLex (g.compareWithin d) xs xs = .eq := by
  induction xs with
  | nil => rfl
  | cons x xs ih => rw [List.compareLex_cons_cons, compareWithin_self, ih, Ordering.eq_then]

/-- Nodes are compared by their keys, and then by their operands. -/
theorem compareWithin_succ (g : Graph) (d : Nat) (a b : NodeId) :
    g.compareWithin (d + 1) a b =
      (g.compareKeys a b).then (List.compareLex (g.compareWithin d) (g.inner a) (g.inner b)) := by
  by_cases hab : a = b
  · subst hab
    have hkeys : g.compareKeys a a = .eq := Std.ReflCmp.compare_self
    rw [compareWithin_self, hkeys, compareLex_self, Ordering.eq_then]
  rw [compareWithin, if_neg hab]
  cases ha : g.isLoop a with
  | false =>
    cases hb : g.isLoop b with
    | false =>
      simp only [compareShapes_eq hab ha hb, inner, ha, hb, Bool.false_eq_true, if_false]
    | true =>
      have hlt : compare (g.loopRank a) (g.loopRank b) = .lt := by
        simp only [loopRank, ha, hb, Bool.false_eq_true, if_false, if_true]
        exact compare_lt_iff_lt.2 (Nat.succ_pos b)
      simp only [compareKeys, compareLex, compareOn, hlt, Ordering.lt_then]
  | true =>
    cases hb : g.isLoop b with
    | false =>
      have hgt : compare (g.loopRank a) (g.loopRank b) = .gt := by
        simp only [loopRank, ha, hb, Bool.false_eq_true, if_false, if_true]
        exact compare_gt_iff_gt.2 (Nat.succ_pos a)
      simp only [compareKeys, compareLex, compareOn, hgt, Ordering.gt_then]
    | true =>
      have hne : compare (g.loopRank a) (g.loopRank b) = ofLess (a < b) := by
        simp only [loopRank, ha, hb, if_true]
        rw [compare_of_ne fun h => hab (Nat.succ.inj h)]
        simp only [Nat.succ_lt_succ_iff]
      simp only [compareKeys, compareLex, compareOn, hne]
      cases decide (a < b) <;> rfl

theorem transCmp_comap {α β : Type} {cmp : β → β → Ordering} (h : TransCmp cmp) (f : α → β) :
    TransCmp fun a b => cmp (f a) (f b) where
  eq_swap := h.eq_swap
  isLE_trans := h.isLE_trans

theorem transCmp_compareWithin (g : Graph) (d : Nat) : TransCmp (g.compareWithin d) := by
  induction d with
  | zero => exact { eq_swap := rfl, isLE_trans := fun _ _ => rfl }
  | succ d ih =>
    have hinner : TransCmp fun a b =>
        List.compareLex (g.compareWithin d) (g.inner a) (g.inner b) :=
      transCmp_comap inferInstance g.inner
    have hlex : TransCmp (compareLex g.compareKeys fun a b =>
        List.compareLex (g.compareWithin d) (g.inner a) (g.inner b)) := inferInstance
    have heq : g.compareWithin (d + 1) = compareLex g.compareKeys fun a b =>
        List.compareLex (g.compareWithin d) (g.inner a) (g.inner b) := by
      funext a b
      exact compareWithin_succ g d a b
    rw [heq]
    exact hlex

theorem compareLex_congr {cmp cmp' : NodeId → NodeId → Ordering}
    (h : ∀ x ∈ xs, ∀ y ∈ ys, cmp x y = cmp' x y) :
    List.compareLex cmp xs ys = List.compareLex cmp' xs ys := by
  induction xs generalizing ys with
  | nil => cases ys <;> rfl
  | cons x xs ih =>
    cases ys with
    | nil => rfl
    | cons y ys =>
      have hx : cmp x y = cmp' x y := h x (by simp) y (by simp)
      have hxs : List.compareLex cmp xs ys = List.compareLex cmp' xs ys :=
        ih fun x hx y hy => h x (by simp [hx]) y (by simp [hy])
      rw [List.compareLex_cons_cons, List.compareLex_cons_cons, hx, hxs]

theorem WellFormed.inner_lt (hg : g.WellFormed) : ∀ y ∈ g.inner a, y < a := by
  intro y hy
  cases ha : g.isLoop a with
  | true =>
    rw [inner, ha] at hy
    exact absurd hy List.not_mem_nil
  | false =>
    rw [inner, ha] at hy
    exact hg.operands_lt a ha y hy

/-- Any depth above the number of the first node leads to the same order. -/
theorem WellFormed.compareWithin_eq (hg : g.WellFormed) (ha : a < d) (b : NodeId) :
    g.compareWithin d a b = g.order a b := by
  have hall : ∀ d d', a < d → a < d' → g.compareWithin d a b = g.compareWithin d' a b := by
    clear ha
    induction a using Nat.strong_induction_on generalizing b with
    | _ a ih =>
      intro d d' hd hd'
      obtain ⟨d, rfl⟩ := Nat.exists_eq_succ_of_ne_zero (Nat.ne_of_gt (Nat.zero_lt_of_lt hd))
      obtain ⟨d', rfl⟩ := Nat.exists_eq_succ_of_ne_zero (Nat.ne_of_gt (Nat.zero_lt_of_lt hd'))
      rw [Nat.succ_eq_add_one, compareWithin_succ, compareWithin_succ]
      congr 1
      apply compareLex_congr
      intro x hx y _
      have hlt := hg.inner_lt x hx
      have hx : x < d := hlt.trans_le (Nat.le_of_lt_succ hd)
      have hx' : x < d' := hlt.trans_le (Nat.le_of_lt_succ hd')
      exact ih x hlt y d d' hx hx'
  exact hall d (a + 1) ha (Nat.lt_succ_self a)

theorem WellFormed.transCmp_order (hg : g.WellFormed) : TransCmp g.order where
  eq_swap {a b} := by
    have ha : a < max a b + 1 := Nat.lt_succ_of_le (Nat.le_max_left a b)
    have hb : b < max a b + 1 := Nat.lt_succ_of_le (Nat.le_max_right a b)
    rw [← hg.compareWithin_eq ha, ← hg.compareWithin_eq hb]
    exact (transCmp_compareWithin g _).eq_swap
  isLE_trans {a b c} hab hbc := by
    have ha : a < max a b + 1 := Nat.lt_succ_of_le (Nat.le_max_left a b)
    have hb : b < max a b + 1 := Nat.lt_succ_of_le (Nat.le_max_right a b)
    rw [← hg.compareWithin_eq ha] at hab ⊢
    rw [← hg.compareWithin_eq hb] at hbc
    exact (transCmp_compareWithin g _).isLE_trans hab hbc

/-! ### Nodes that compare equal -/

theorem rank_injective {op op' : Operator} (h : op.rank = op'.rank) : op = op' := by
  cases op <;> cases op' <;> first | rfl | cases h

theorem calleeRank_eq (g : Graph) (f : Callee) :
    g.calleeRank f = g.callees.toList.idxOf f := by
  rw [calleeRank]
  cases g.callees
  simp

theorem calleeRank_injective {f f' : Callee} (hf : f ∈ g.callees)
    (h : g.calleeRank f = g.calleeRank f') : f = f' := by
  rw [calleeRank_eq, calleeRank_eq] at h
  exact (List.idxOf_inj (Array.mem_toList_iff.2 hf)).1 h

/-- Two nodes with equal keys are one node, or have one shape and are no loops. -/
theorem eq_of_compareKeys (hg : g.WellFormed) (h : g.compareKeys a b = .eq) :
    a = b ∨ (g.isLoop a = false ∧ g.isLoop b = false ∧ g.shape a = g.shape b ∧
      ¬ (g.shape a).IsSymbol) := by
  simp only [compareKeys, compareLex_eq_eq, compareOn, compare_eq_iff_eq] at h
  obtain ⟨hloop, hrank, hop, hvalue, hname, hsymbol, hcall⟩ := h
  by_cases hab : a = b
  · exact .inl hab
  have hl : g.isLoop a = false ∧ g.isLoop b = false := by
    unfold loopRank at hloop
    split_ifs at hloop with ha hb hb
    · exact absurd (Nat.succ.inj hloop) hab
    · exact ⟨Bool.eq_false_iff.2 ha, Bool.eq_false_iff.2 hb⟩
  refine .inr ⟨hl.1, hl.2, ?_⟩
  have hmem := hg.callee_mem a
  rw [value?, value?] at hvalue
  rw [symbolRank, symbolRank] at hsymbol
  rw [callRank, callRank] at hcall
  cases hsa : g.shape a with
  | constant p =>
    cases hsb : g.shape b with
    | constant q =>
      rw [hsa, hsb] at hvalue
      exact ⟨congrArg Shape.constant hvalue, id⟩
    | _ => rw [hsa, hsb] at hrank; cases hrank
  | symbol s =>
    cases hsb : g.shape b with
    | symbol t =>
      rw [hsa, hsb] at hsymbol
      exact absurd hsymbol hab
    | _ => rw [hsa, hsb] at hrank; cases hrank
  | binary op =>
    cases hsb : g.shape b with
    | binary op' =>
      rw [hsa, hsb] at hop
      exact ⟨congrArg Shape.binary (rank_injective hop), id⟩
    | _ => rw [hsa, hsb] at hrank; cases hrank
  | unary op =>
    cases hsb : g.shape b with
    | unary op' =>
      rw [hsa, hsb] at hop
      exact ⟨congrArg Shape.unary (rank_injective hop), id⟩
    | _ => rw [hsa, hsb] at hrank; cases hrank
  | call f =>
    cases hsb : g.shape b with
    | call f' =>
      rw [hsa, hsb] at hcall
      exact ⟨congrArg Shape.call (calleeRank_injective (hmem f hsa) hcall), id⟩
    | _ => rw [hsa, hsb] at hrank; cases hrank
  | _ =>
    cases hsb : g.shape b with
    | sum | product | power | set | arrow =>
      rw [hsa, hsb] at hrank
      first | exact ⟨rfl, id⟩ | cases hrank
    | _ => rw [hsa, hsb] at hrank; cases hrank

theorem compareLex_eq_eq_iff {cmp : NodeId → NodeId → Ordering} :
    List.compareLex cmp xs ys = .eq ↔ List.Forall₂ (fun x y => cmp x y = .eq) xs ys := by
  induction xs generalizing ys with
  | nil =>
    rw [List.compareLex_nil_left_eq_eq, List.forall₂_nil_left_iff]
  | cons x xs ih =>
    cases ys with
    | nil => simp [List.compareLex_cons_nil]
    | cons y ys =>
      rw [List.compareLex_cons_cons, Ordering.then_eq_eq, ih, List.forall₂_cons]

theorem WellFormed.eq_of_order (hg : g.WellFormed) (ha : a < g.size) (hb : b < g.size)
    (h : g.order a b = .eq) : a = b := by
  induction a using Nat.strong_induction_on generalizing b with
  | _ a ih =>
    rw [order, compareWithin_succ, Ordering.then_eq_eq, compareLex_eq_eq_iff] at h
    obtain ⟨hkeys, hops⟩ := h
    rcases eq_of_compareKeys hg hkeys with hab | ⟨hla, hlb, hshape, hs⟩
    · exact hab
    have hlt := hg.operands_lt a hla
    simp only [inner, hla, hlb, Bool.false_eq_true, if_false] at hops
    have heq : g.operands a = g.operands b := by
      apply List.ext_getElem hops.length_eq
      intro i hi hi'
      have hx := hlt _ (List.getElem_mem hi)
      have hxs := hg.operands_lt_size a _ (List.getElem_mem hi)
      have hys := hg.operands_lt_size b _ (List.getElem_mem hi')
      apply ih _ hx hxs hys
      rw [← hg.compareWithin_eq hx]
      exact hops.get hi hi'
    apply hg.eq_of_node_eq ha hb hla hs
    have hnode : ∀ x, g.node x = ⟨g.shape x, g.operands x, g.isLoop x⟩ := fun _ => rfl
    rw [hnode a, hnode b, hshape, heq, hla, hlb]

/-! ### Sorting -/

theorem WellFormed.productLe_trans (hg : g.WellFormed) (h : g.productLe a b)
    (h' : g.productLe b c) : g.productLe a c := by
  simp only [productLe, bne_iff_ne, ← Ordering.isLE_iff_ne_gt] at h h' ⊢
  exact hg.transCmp_order.isLE_trans h h'

theorem WellFormed.productLe_total (hg : g.WellFormed) (a b : NodeId) :
    g.productLe a b || g.productLe b a := by
  have hswap := hg.transCmp_order.eq_swap (a := a) (b := b)
  simp only [productLe]
  cases h : g.order b a <;> rw [h] at hswap <;> rw [hswap] <;> rfl

theorem WellFormed.productLe_antisymm (hg : g.WellFormed) (ha : a < g.size) (hb : b < g.size)
    (h : g.productLe a b) (h' : g.productLe b a) : a = b := by
  apply hg.eq_of_order ha hb
  have hswap := hg.transCmp_order.eq_swap (a := a) (b := b)
  simp only [productLe, bne_iff_ne] at h h'
  cases ho : g.order b a <;> rw [ho] at hswap h'
  · exact absurd hswap h
  · exact hswap
  · exact absurd rfl h'

theorem WellFormed.sumLe_trans (hg : g.WellFormed) (h : g.sumLe a b) (h' : g.sumLe b c) :
    g.sumLe a c := by
  have htrans := hg.productLe_trans (a := a) (b := b) (c := c)
  unfold sumLe at h h' ⊢
  cases ha : g.isConstant a <;> cases hb : g.isConstant b <;> cases hc : g.isConstant c <;>
    simp_all

theorem WellFormed.sumLe_total (hg : g.WellFormed) (a b : NodeId) :
    g.sumLe a b || g.sumLe b a := by
  have htotal := hg.productLe_total a b
  unfold sumLe
  cases ha : g.isConstant a <;> cases hb : g.isConstant b <;> simp_all

theorem WellFormed.sumLe_antisymm (hg : g.WellFormed) (ha : a < g.size) (hb : b < g.size)
    (h : g.sumLe a b) (h' : g.sumLe b a) : a = b := by
  apply hg.productLe_antisymm ha hb <;> unfold sumLe at h h' <;>
    cases hca : g.isConstant a <;> cases hcb : g.isConstant b <;> simp_all

/-- Sorting leads to the one sorted list with given members. -/
theorem mergeSort_eq_of_perm {le : NodeId → NodeId → Bool}
    (htrans : ∀ a b c, le a b → le b c → le a c) (htotal : ∀ a b, le a b || le b a)
    (hanti : ∀ a b, a < g.size → b < g.size → le a b → le b a → a = b)
    (hys : ∀ y ∈ ys, y < g.size) (hp : xs.Perm ys) (hs : ys.Pairwise fun a b => le a b) :
    xs.mergeSort le = ys := by
  have hmem : ∀ a ∈ xs.mergeSort le, a < g.size := fun a ha =>
    hys a (hp.mem_iff.1 (List.mem_mergeSort.1 ha))
  have hsorted := List.pairwise_mergeSort htrans htotal xs
  have hperm := (List.mergeSort_perm xs le).trans hp
  exact List.Perm.eq_of_pairwise (fun a b ha hb => hanti a b (hmem a ha) (hys b hb)) hsorted hs
    hperm

theorem WellFormed.mergeSort_sumLe (hg : g.WellFormed) (hys : ∀ y ∈ ys, y < g.size)
    (hp : xs.Perm ys) (hs : ys.Pairwise fun a b => g.sumLe a b) : xs.mergeSort g.sumLe = ys :=
  mergeSort_eq_of_perm (fun _ _ _ => hg.sumLe_trans) hg.sumLe_total
    (fun _ _ => hg.sumLe_antisymm) hys hp hs

theorem WellFormed.mergeSort_productLe (hg : g.WellFormed) (hys : ∀ y ∈ ys, y < g.size)
    (hp : xs.Perm ys) (hs : ys.Pairwise fun a b => g.productLe a b) :
    xs.mergeSort g.productLe = ys :=
  mergeSort_eq_of_perm (fun _ _ _ => hg.productLe_trans) hg.productLe_total
    (fun _ _ => hg.productLe_antisymm) hys hp hs

/-! ### Graphs that agree -/

/-- Two graphs have the same nodes in `P`, a set of nodes with all their operands. -/
structure Agree (P : NodeId → Prop) (g g' : Graph) : Prop where
  node_eq : ∀ x, P x → g'.node x = g.node x
  operands : ∀ x, P x → ∀ y ∈ g.operands x, P y
  calleeRank_eq : ∀ x f, P x → g.shape x = .call f → g'.calleeRank f = g.calleeRank f

theorem Extends.calleeRank_eq (hx : g.Extends g') {f : Callee} (hf : f ∈ g.callees) :
    g'.calleeRank f = g.calleeRank f := by
  obtain ⟨fs, hfs⟩ := hx.callees_prefix
  simp only [Graph.calleeRank_eq, ← hfs]
  exact List.idxOf_append_of_mem (Array.mem_toList_iff.2 hf)

theorem Extends.agree (hx : g.Extends g') (hg : g.WellFormed) : Agree (· < g.size) g g' where
  node_eq := hx.node_eq
  operands x _ := hg.operands_lt_size x
  calleeRank_eq x f _ hf := hx.calleeRank_eq (hg.callee_mem x f hf)

namespace Agree

variable {P : NodeId → Prop}

theorem shape_eq (h : Agree P g g') (ha : P a) : g'.shape a = g.shape a :=
  congrArg Node.shape (h.node_eq a ha)

theorem operands_eq (h : Agree P g g') (ha : P a) : g'.operands a = g.operands a :=
  congrArg Node.operands (h.node_eq a ha)

theorem isLoop_eq (h : Agree P g g') (ha : P a) : g'.isLoop a = g.isLoop a :=
  congrArg Node.isLoop (h.node_eq a ha)

theorem symm (h : Agree P g g') : Agree P g' g where
  node_eq a ha := (h.node_eq a ha).symm
  operands a ha y hy := h.operands a ha y (h.operands_eq ha ▸ hy)
  calleeRank_eq a f ha hf := (h.calleeRank_eq a f ha (h.shape_eq ha ▸ hf)).symm

theorem value?_eq (h : Agree P g g') (ha : P a) : g'.value? a = g.value? a :=
  congrArg Shape.value? (h.shape_eq ha)

theorem isConstant_eq (h : Agree P g g') (ha : P a) : g'.isConstant a = g.isConstant a :=
  congrArg Shape.isConstant (h.shape_eq ha)

theorem hasValue_eq (h : Agree P g g') (ha : P a) (q : Rat) : g'.hasValue q a = g.hasValue q a := by
  rw [hasValue, hasValue, h.value?_eq ha]

theorem callRank_eq (h : Agree P g g') (ha : P a) : g'.callRank a = g.callRank a := by
  have hrank := h.calleeRank_eq a
  rw [callRank, callRank, h.shape_eq ha]
  cases hs : g.shape a with
  | call f => exact hrank f ha hs
  | _ => rfl

theorem compareKeys_eq (h : Agree P g g') (ha : P a) (hb : P b) :
    g'.compareKeys a b = g.compareKeys a b := by
  simp only [compareKeys, compareLex, compareOn, loopRank, symbolName, symbolRank,
    h.callRank_eq ha, h.callRank_eq hb, h.shape_eq ha, h.shape_eq hb, h.isLoop_eq ha,
    h.isLoop_eq hb, h.value?_eq ha, h.value?_eq hb]

theorem inner_eq (h : Agree P g g') (ha : P a) : g'.inner a = g.inner a := by
  rw [inner, inner, h.isLoop_eq ha, h.operands_eq ha]

theorem of_mem_inner (h : Agree P g g') (ha : P a) : ∀ y ∈ g.inner a, P y := by
  intro y hy
  rw [inner] at hy
  split at hy
  · exact absurd hy List.not_mem_nil
  · exact h.operands a ha y hy

theorem compareWithin_eq (h : Agree P g g') (ha : P a) (hb : P b) :
    g'.compareWithin d a b = g.compareWithin d a b := by
  induction d generalizing a b with
  | zero => rfl
  | succ d ih =>
    rw [compareWithin_succ, compareWithin_succ, h.compareKeys_eq ha hb, h.inner_eq ha,
      h.inner_eq hb]
    congr 1
    apply compareLex_congr
    intro x hxa y hyb
    exact ih (h.of_mem_inner ha x hxa) (h.of_mem_inner hb y hyb)

theorem productLe_eq (h : Agree P g g') (ha : P a) (hb : P b) :
    g'.productLe a b = g.productLe a b := by
  rw [productLe, productLe, order, order, h.compareWithin_eq ha hb]

theorem sumLe_eq (h : Agree P g g') (ha : P a) (hb : P b) : g'.sumLe a b = g.sumLe a b := by
  rw [sumLe, sumLe, h.productLe_eq ha hb, h.isConstant_eq ha, h.isConstant_eq hb]

/-- Sorting depends on the order of what is sorted only. -/
theorem mergeSort_sumLe (h : Agree P g g') (hg : g.WellFormed) (hg' : g'.WellFormed)
    (hxs : ∀ x ∈ xs, P x ∧ x < g'.size) : xs.mergeSort g'.sumLe = xs.mergeSort g.sumLe := by
  have hmem : ∀ x ∈ xs.mergeSort g.sumLe, P x ∧ x < g'.size := fun x hx =>
    hxs x (List.mem_mergeSort.1 hx)
  have htrans : ∀ a b c, g.sumLe a b → g.sumLe b c → g.sumLe a c := fun _ _ _ => hg.sumLe_trans
  have hsorted := List.pairwise_mergeSort htrans hg.sumLe_total xs
  have hperm : xs.Perm (xs.mergeSort g.sumLe) := (List.mergeSort_perm xs g.sumLe).symm
  apply hg'.mergeSort_sumLe (fun x hx => (hmem x hx).2) hperm
  refine hsorted.imp_of_mem fun {a b} ha hb hle => ?_
  rwa [h.sumLe_eq (hmem a ha).1 (hmem b hb).1]

theorem mergeSort_productLe (h : Agree P g g') (hg : g.WellFormed) (hg' : g'.WellFormed)
    (hxs : ∀ x ∈ xs, P x ∧ x < g'.size) :
    xs.mergeSort g'.productLe = xs.mergeSort g.productLe := by
  have hmem : ∀ x ∈ xs.mergeSort g.productLe, P x ∧ x < g'.size := fun x hx =>
    hxs x (List.mem_mergeSort.1 hx)
  have htrans : ∀ a b c, g.productLe a b → g.productLe b c → g.productLe a c := fun _ _ _ =>
    hg.productLe_trans
  have hsorted := List.pairwise_mergeSort htrans hg.productLe_total xs
  have hperm : xs.Perm (xs.mergeSort g.productLe) := (List.mergeSort_perm xs g.productLe).symm
  apply hg'.mergeSort_productLe (fun x hx => (hmem x hx).2) hperm
  refine hsorted.imp_of_mem fun {a b} ha hb hle => ?_
  rwa [h.productLe_eq (hmem a ha).1 (hmem b hb).1]

end Agree

theorem Extends.productLe_eq (hx : g.Extends g') (hg : g.WellFormed) (ha : a < g.size)
    (hb : b < g.size) : g'.productLe a b = g.productLe a b := (hx.agree hg).productLe_eq ha hb

theorem Extends.sumLe_eq (hx : g.Extends g') (hg : g.WellFormed) (ha : a < g.size)
    (hb : b < g.size) : g'.sumLe a b = g.sumLe a b := (hx.agree hg).sumLe_eq ha hb

end ExactAlgebra.Graph
