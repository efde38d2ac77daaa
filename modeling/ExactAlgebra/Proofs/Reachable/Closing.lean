import ExactAlgebra.Proofs.Graph.Reach
import ExactAlgebra.Proofs.Reachable.Comparison

/-!
What closing a placeholder does to the canonical order of operands. Operands that do not reach the
placeholder stay as they are ordered, and what was built of them is found again. The placeholder
itself moves behind all nodes that are no loops, but the operands of sums and products that were
built over it do not.
-/

namespace ExactAlgebra.Graph

variable {P : NodeId → Prop} {k : Gathering} {g g' : Graph} {s : Shape} {x y z : NodeId}
variable {xs ys : List NodeId} {label : String}

theorem close_agree (g : Graph) (x y : NodeId) (label : String) :
    Agree (fun z => ¬ g.Reaches z x) g (g.close x y label) where
  node_eq z hz := by
    apply node_close_ne
    rintro rfl
    exact hz .refl
  operands z hz w hw hreach := hz (hreach.of_operand hw)
  calleeRank_eq _ _ _ _ := rfl

/-- What is taken over of an operand reaches nothing that the operand does not reach. -/
theorem not_reaches_of_mem_parts (hx : ¬ g.Reaches x y) (hz : z ∈ k.parts g x) :
    ¬ g.Reaches z y := by
  unfold Gathering.parts at hz
  split at hz
  · exact fun h => hx (h.of_operand hz)
  · exact List.mem_singleton.1 hz ▸ hx

/-- Operands that do not reach the placeholder keep their order. -/
theorem sorted_close (hxs : ∀ z ∈ xs, ¬ g.Reaches z x) (h : g.Sorted xs s) (y : NodeId)
    (label : String) : (g.close x y label).Sorted xs s :=
  (close_agree g x y label).sorted hxs h

theorem hasValue_close {q : Rat} (hz : ¬ g.Reaches z x) (y : NodeId) (label : String) :
    (g.close x y label).hasValue q z = g.hasValue q z := by
  rw [hasValue, hasValue, value?, value?, (close_agree g x y label).shape_eq hz]

theorem flatten_close (hxs : ∀ z ∈ xs, ¬ g.Reaches z x) (y : NodeId) (label : String) :
    k.flatten (g.close x y label) xs = k.flatten g xs := by
  have hagree := close_agree g x y label
  have hparts : xs.flatMap (k.parts (g.close x y label)) = xs.flatMap (k.parts g) := by
    apply List.flatMap_congr
    intro z hz
    rw [Gathering.parts, Gathering.parts, hagree.node_eq z (hxs z hz),
      hagree.operands_eq (hxs z hz)]
  rw [Gathering.flatten, Gathering.flatten, hparts]
  apply List.filter_congr
  intro z hz
  obtain ⟨w, hw, hz⟩ := List.mem_flatMap.1 hz
  rw [hasValue_close (not_reaches_of_mem_parts (hxs w hw) hz)]

theorem order_close (hg : g.WellFormed) (hx : x < g.size) (hs : (g.shape x).IsSymbol)
    (hz : z ≠ x) (hl : g.isLoop z = false) (y : NodeId) (label : String) :
    (g.close x y label).order x z = .gt := by
  have hself : (g.close x y label).isLoop x = true := by
    rw [isLoop, node_close_self hx]
  have hother : (g.close x y label).isLoop z = false := by
    rw [isLoop, node_close_ne hz]
    exact hl
  rw [(hg.close hx hs y label).order_eq, if_neg hz.symm, hself, hother]

theorem le_close (hg : g.WellFormed) (hx : x < g.size) (hs : (g.shape x).IsSymbol) (hz : z ≠ x)
    (hl : g.isLoop z = false) (hc : g.isConstant z = false) (y : NodeId) (label : String) :
    k.le (g.close x y label) x z = false := by
  have hproduct : (g.close x y label).productLe x z = false := by
    rw [productLe, order_close hg hx hs hz hl]
    rfl
  cases k with
  | product => exact hproduct
  | sum =>
    have hc' : (g.close x y label).isConstant z = false := by
      rw [isConstant, shape, node_close_ne hz]
      exact hc
    rw [Gathering.le, sumLe, hc', hproduct]
    cases (g.close x y label).isConstant x <;> rfl

/-- What stands behind a placeholder is out of order as soon as the placeholder is closed, unless it
is a constant or a loop. -/
theorem not_sorted_close (hg : g.WellFormed) (hx : x < g.size) (hs : (g.shape x).IsSymbol)
    (hz : z ∈ ys) (hzx : z ≠ x) (hl : g.isLoop z = false) (hc : g.isConstant z = false)
    (y : NodeId) (label : String) : ¬ (g.close x y label).Sorted (xs ++ x :: ys) k.shape := by
  rw [Gathering.sorted_shape_iff]
  intro h
  have hle := List.rel_of_pairwise_cons (List.pairwise_append.1 h).2.1 hz
  rw [le_close hg hx hs hzx hl hc] at hle
  cases hle

/-- Nothing is added exactly if the node is found. -/
theorem intern_eq_ok_iff : intern s xs g = .ok z g ↔ g.index[(s, xs)]? = some z := by
  rw [intern_eq]
  cases g.index[(s, xs)]? with
  | some w => exact ⟨fun h => by cases h; rfl, fun h => by cases h; rfl⟩
  | none =>
    refine iff_of_false ?_ nofun
    dsimp only
    split_ifs
    · exact id
    · intro h
      have hsize := congrArg (fun r => (final r).size) h
      simp only [final, size_extend] at hsize
      exact absurd hsize (Nat.succ_ne_self _)
    · exact id

theorem mergeSort_close (hg : g.WellFormed) (hx : x < g.size) (hs : (g.shape x).IsSymbol)
    (hxs : ∀ z ∈ xs, z < g.size ∧ ¬ g.Reaches z x) (y : NodeId) (label : String) :
    xs.mergeSort (k.le (g.close x y label)) = xs.mergeSort (k.le g) := by
  have hagree := close_agree g x y label
  have hg' := hg.close hx hs y label
  have hkept : ∀ z ∈ xs, ¬ g.Reaches z x ∧ z < (g.close x y label).size := fun z hz =>
    ⟨(hxs z hz).2, by rw [size_close]; exact (hxs z hz).1⟩
  cases k with
  | sum => exact hagree.mergeSort_sumLe hg hg' hkept
  | product => exact hagree.mergeSort_productLe hg hg' hkept

/-- A sum or product of what does not reach the placeholder is found after the closing exactly if it
was found before, and then it is the same. -/
theorem build_close (hg : g.WellFormed) (hx : x < g.size) (hs : (g.shape x).IsSymbol)
    (hxs : ∀ z ∈ xs, z < g.size ∧ ¬ g.Reaches z x) (y : NodeId) (label : String) :
    k.build xs (g.close x y label) = .ok z (g.close x y label) ↔ k.build xs g = .ok z g := by
  have hkept : ∀ w ∈ k.flatten g xs, w < g.size ∧ ¬ g.Reaches w x := by
    intro w hw
    obtain ⟨⟨v, hv, hw⟩, -⟩ := Gathering.mem_flatten.1 hw
    exact ⟨Gathering.parts_lt hg (hxs v hv).1 w hw, not_reaches_of_mem_parts (hxs v hv).2 hw⟩
  have hany : (k.flatten g xs).any ((g.close x y label).hasValue 0) =
      (k.flatten g xs).any (g.hasValue 0) := by
    rw [Bool.eq_iff_iff, List.any_eq_true, List.any_eq_true]
    apply exists_congr
    intro w
    apply and_congr_right
    intro hw
    rw [hasValue_close (hkept w hw).2]
  rw [Gathering.build_eq, Gathering.build_eq, flatten_close (fun w hw => (hxs w hw).2), hany]
  have hok : ∀ w, (EStateM.Result.ok w (g.close x y label) : EStateM.Result Error Graph NodeId) =
      .ok z (g.close x y label) ↔ (EStateM.Result.ok w g : EStateM.Result Error Graph NodeId) =
        .ok z g := by
    intro w
    simp only [EStateM.Result.ok.injEq, and_true]
  split_ifs
  · exact hok zero
  · generalize k.flatten g xs = ws at hkept
    match ws with
    | [] => exact hok k.unit
    | [w] => exact hok w
    | w :: w' :: ws =>
      dsimp only
      rw [intern_eq_ok_iff, intern_eq_ok_iff, mergeSort_close hg hx hs hkept]
      rfl

/-- The placeholder of `a` stands before the one of `b` only as long as it is open. -/
example :
    let g := (Action.openLoop "b").after ((Action.openLoop "a").after .empty)
    g.sumLe 2 3 ∧ (g.close 2 0 "a").sumLe 2 3 = false := by
  decide

end ExactAlgebra.Graph
