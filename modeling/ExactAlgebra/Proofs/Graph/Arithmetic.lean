import ExactAlgebra.Proofs.Graph.Meaning

/-!
The values of the nodes that constructions give, from the values of what they are built from.
-/

namespace ExactAlgebra.Graph

variable {M : Semantics} {g g' : Graph} {d : Nat} {x y : NodeId} {v w : Rat} {s : Shape}
variable {xs ys : List NodeId} {vs ws : List Rat}

/-- The values of the nodes of a list, whose structures are at most `d` deep. -/
abbrev ValuesWithin (M : Semantics) (g : Graph) (d : Nat) : List NodeId → List Rat → Prop :=
  List.Forall₂ fun x v => g.valueWithin? M [] d x = some v

/-- The values of the nodes of a list. -/
abbrev AllDenote (M : Semantics) (g : Graph) : List NodeId → List Rat → Prop :=
  List.Forall₂ fun x v => g.Denotes M [] x v

/-- The values of the operands of a node with a value. -/
theorem valueWithin?_operands (h : g.valueWithin? M [] (d + 1) x = some v) :
    g.isLoop x = false ∧
      ∃ vs, g.ValuesWithin M d (g.operands x) vs ∧ M.combine (g.shape x) vs = some v := by
  cases valueWithin?_succ.1 h with
  | bound _ hs => cases hs
  | node _ _ hl hvs hv => exact ⟨hl, _, hvs, hv⟩

theorem valueWithin?_node (hx : x < g.size) (hn : g.node x = { shape := s, operands := xs })
    (hvs : g.ValuesWithin M d xs vs) (hv : M.combine s vs = some v) :
    g.valueWithin? M [] (d + 1) x = some v := by
  have hvs : g.ValuesWithin M d (g.operands x) vs := by
    rw [operands, hn]
    exact hvs
  have hv : M.combine (g.shape x) vs = some v := by
    rw [shape, hn]
    exact hv
  exact valueWithin?_succ.2 (.node hx rfl (congrArg Node.isLoop hn) hvs hv)

/-- A constant has its own value, if it has any. -/
theorem eq_of_valueWithin? (h : g.valueWithin? M [] d x = some v) (hq : g.value? x = some w) :
    v = w := by
  cases d with
  | zero => cases h
  | succ d =>
    obtain ⟨-, vs, -, hv⟩ := valueWithin?_operands h
    rw [value?] at hq
    cases hs : g.shape x with
    | constant q =>
      rw [hs] at hq hv
      exact Option.some.inj (hv.symm.trans hq)
    | _ => rw [hs] at hq; cases hq

theorem ValuesWithin.lt_size (h : g.ValuesWithin M d xs vs) : ∀ x ∈ xs, x < g.size := by
  intro x hx
  obtain ⟨i, hi, rfl⟩ := List.getElem_of_mem hx
  exact lt_size_of_valueWithin? (h.get hi (h.length_eq ▸ hi))

theorem ValuesWithin.mono (h : g.ValuesWithin M d xs vs) {d' : Nat} (hd : d ≤ d') :
    g.ValuesWithin M d' xs vs :=
  h.imp fun _ _ hv => valueWithin?_mono hv hd

theorem ValuesWithin.extends (h : g.ValuesWithin M d xs vs) (hg : g.WellFormed)
    (hx : g.Extends g') : g'.ValuesWithin M d xs vs :=
  h.imp fun _ _ hv => (hx.valueWithin?_eq hg (lt_size_of_valueWithin? hv)).trans hv

theorem ValuesWithin.singleton (h : g.ValuesWithin M d [x] vs) :
    ∃ v, g.valueWithin? M [] d x = some v ∧ vs = [v] := by
  obtain ⟨v, vs, hv, hvs, rfl⟩ := List.forall₂_cons_left_iff.1 h
  obtain rfl := List.forall₂_nil_left_iff.1 hvs
  exact ⟨v, hv, rfl⟩

theorem valueWithin?_extends (h : g.valueWithin? M [] d x = some v) (hg : g.WellFormed)
    (hx : g.Extends g') : g'.valueWithin? M [] d x = some v :=
  (hx.valueWithin?_eq hg (lt_size_of_valueWithin? h)).trans h

/-- The values of a rearranged list are rearranged likewise. -/
theorem ValuesWithin.perm (h : g.ValuesWithin M d xs vs) (hp : ys.Perm xs) :
    ∃ ws, g.ValuesWithin M d ys ws ∧ ws.Perm vs :=
  List.perm_comp_forall₂ hp h

theorem AllDenote.valuesWithin (h : g.AllDenote M xs vs) : ∃ d, g.ValuesWithin M d xs vs := by
  induction h with
  | nil => exact ⟨0, .nil⟩
  | cons hv _ ih =>
    obtain ⟨d, hd⟩ := hv
    obtain ⟨d', hd'⟩ := ih
    refine ⟨max d d', .cons (valueWithin?_mono hd (Nat.le_max_left d d')) ?_⟩
    exact hd'.imp fun _ _ hw => valueWithin?_mono hw (Nat.le_max_right d d')

theorem ValuesWithin.allDenote (h : g.ValuesWithin M d xs vs) : g.AllDenote M xs vs :=
  h.imp fun _ _ hv => ⟨d, hv⟩

theorem Denotes.extends (h : g.Denotes M [] x v) (hg : g.WellFormed) (hx : g.Extends g') :
    g'.Denotes M [] x v :=
  (hx.denotes_iff hg h.lt_size).2 h

theorem AllDenote.extends (h : g.AllDenote M xs vs) (hg : g.WellFormed) (hx : g.Extends g') :
    g'.AllDenote M xs vs :=
  h.imp fun _ _ hv => hv.extends hg hx

theorem AllDenote.lt_size (h : g.AllDenote M xs vs) : ∀ x ∈ xs, x < g.size :=
  h.valuesWithin.choose_spec.lt_size

theorem Denotes.operands (h : g.Denotes M [] x v) :
    g.isLoop x = false ∧
      ∃ vs, g.AllDenote M (g.operands x) vs ∧ M.combine (g.shape x) vs = some v := by
  obtain ⟨d, hd⟩ := h
  cases d with
  | zero => cases hd
  | succ d =>
    obtain ⟨hl, vs, hvs, hv⟩ := valueWithin?_operands hd
    exact ⟨hl, vs, hvs.allDenote, hv⟩

theorem Denotes.node (hx : x < g.size) (hn : g.node x = { shape := s, operands := xs })
    (hvs : g.AllDenote M xs vs) (hv : M.combine s vs = some v) : g.Denotes M [] x v := by
  obtain ⟨d, hd⟩ := hvs.valuesWithin
  exact ⟨d + 1, valueWithin?_node hx hn hd hv⟩

theorem Denotes.eq_of_value? (h : g.Denotes M [] x v) (hq : g.value? x = some w) : v = w :=
  eq_of_valueWithin? h.choose_spec hq

/-! ### Constants -/

theorem valueWithin?_constant (hx : x < g.size) (hn : g.node x = { shape := .constant v }) :
    g.valueWithin? M [] (d + 1) x = some v :=
  valueWithin?_node hx hn .nil rfl

theorem value?_eq_some : g.value? x = some v ↔ g.shape x = .constant v := by
  rw [value?]
  constructor
  · intro h
    cases hs : g.shape x with
    | constant q =>
      rw [hs] at h
      rw [Option.some.inj h]
    | _ =>
      rw [hs] at h
      cases h
  · intro h
    rw [h]
    rfl

/-- Constants that are not self-referential have no structure but their values. -/
theorem WellFormed.node_of_plainValue? (hg : g.WellFormed) (h : g.plainValue? x = some v) :
    g.node x = { shape := .constant v } := by
  obtain ⟨-, hl, hv⟩ := plainValue?_eq_some.1 h
  have hs := value?_eq_some.1 hv
  have hops := hg.constant_operands hs
  rw [isLoop] at hl
  rw [shape] at hs
  rw [operands] at hops
  rw [← hs, ← hops, ← hl]

theorem WellFormed.valueWithin?_plain (hg : g.WellFormed) (h : g.plainValue? x = some v) :
    g.valueWithin? M [] (d + 1) x = some v :=
  valueWithin?_constant (plainValue?_eq_some.1 h).1 (hg.node_of_plainValue? h)

theorem WellFormed.valueWithin?_zero (hg : g.WellFormed) :
    g.valueWithin? M [] (d + 1) zero = some 0 :=
  valueWithin?_constant hg.zero_lt_size hg.node_zero

theorem WellFormed.valueWithin?_one (hg : g.WellFormed) :
    g.valueWithin? M [] (d + 1) one = some 1 :=
  valueWithin?_constant hg.one_lt_size hg.node_one

theorem WellFormed.denotes_zero (hg : g.WellFormed) : g.Denotes M [] zero 0 :=
  ⟨1, hg.valueWithin?_zero⟩

theorem WellFormed.denotes_one (hg : g.WellFormed) : g.Denotes M [] one 1 :=
  ⟨1, hg.valueWithin?_one⟩

theorem constant_denotes (M : Semantics) (hg : g.WellFormed) (q : Rat) :
    Meets Overflow (constant q) g fun x g' => g'.Denotes M [] x q :=
  (constant_meets hg q).mono fun _ _ _ _ h => ⟨1, valueWithin?_constant h.1 h.2⟩

/-! ### Sums and products -/

section Flattening

variable {K : Type} [CommSemiring K] {R : NodeId → K → Prop} {us : List K}

theorem filter_nonzero_values (hzero : ∀ x u, R x u → g.value? x = some 0 → u = 0)
    (h : List.Forall₂ R xs us) :
    ∃ ws, List.Forall₂ R (xs.filter fun x => !g.hasValue 0 x) ws ∧ ws.sum = us.sum := by
  induction h with
  | nil => exact ⟨[], .nil, rfl⟩
  | @cons x u xs us hu _ ih =>
    obtain ⟨ws, hws, hsum⟩ := ih
    by_cases hx : g.value? x = some 0
    · refine ⟨ws, ?_, ?_⟩
      · rw [List.filter_cons_of_neg (by simp [hasValue, hx])]
        exact hws
      · rw [List.sum_cons, hzero x u hu hx, zero_add, hsum]
    · refine ⟨u :: ws, ?_, ?_⟩
      · rw [List.filter_cons_of_pos (by simp [hasValue, hx])]
        exact .cons hu hws
      · rw [List.sum_cons, List.sum_cons, hsum]

theorem filter_nonone_values (hone : ∀ x u, R x u → g.value? x = some 1 → u = 1)
    (h : List.Forall₂ R xs us) :
    ∃ ws, List.Forall₂ R (xs.filter fun x => !g.hasValue 1 x) ws ∧ ws.prod = us.prod := by
  induction h with
  | nil => exact ⟨[], .nil, rfl⟩
  | @cons x u xs us hu _ ih =>
    obtain ⟨ws, hws, hprod⟩ := ih
    by_cases hx : g.value? x = some 1
    · refine ⟨ws, ?_, ?_⟩
      · rw [List.filter_cons_of_neg (by simp [hasValue, hx])]
        exact hws
      · rw [List.prod_cons, hone x u hu hx, one_mul, hprod]
    · refine ⟨u :: ws, ?_, ?_⟩
      · rw [List.filter_cons_of_pos (by simp [hasValue, hx])]
        exact .cons hu hws
      · rw [List.prod_cons, List.prod_cons, hprod]

/-- The terms of terms add up to the same sum, without those that are zero. -/
theorem flattenSum_values (hzero : ∀ x u, R x u → g.value? x = some 0 → u = 0)
    (hterms : ∀ x u, R x u → ∃ ws, List.Forall₂ R (g.terms x) ws ∧ ws.sum = u)
    (h : List.Forall₂ R xs us) :
    ∃ ws, List.Forall₂ R (g.flattenSum xs) ws ∧ ws.sum = us.sum := by
  have hflat : ∃ ws, List.Forall₂ R (xs.flatMap g.terms) ws ∧ ws.sum = us.sum := by
    induction h with
    | nil => exact ⟨[], .nil, rfl⟩
    | cons hu _ ih =>
      obtain ⟨ts, hts, hsum⟩ := hterms _ _ hu
      obtain ⟨ws, hws, hsum'⟩ := ih
      refine ⟨ts ++ ws, ?_, ?_⟩
      · rw [List.flatMap_cons]
        exact List.rel_append hts hws
      · rw [List.sum_append, List.sum_cons, hsum, hsum']
  obtain ⟨ws, hws, hsum⟩ := hflat
  obtain ⟨ts, hts, hsum'⟩ := filter_nonzero_values hzero hws
  exact ⟨ts, hts, hsum'.trans hsum⟩

/-- The factors of factors multiply to the same product, without those that are one. -/
theorem flattenProduct_values (hone : ∀ x u, R x u → g.value? x = some 1 → u = 1)
    (hfactors : ∀ x u, R x u → ∃ ws, List.Forall₂ R (g.factors x) ws ∧ ws.prod = u)
    (h : List.Forall₂ R xs us) :
    ∃ ws, List.Forall₂ R (g.flattenProduct xs) ws ∧ ws.prod = us.prod := by
  have hflat : ∃ ws, List.Forall₂ R (xs.flatMap g.factors) ws ∧ ws.prod = us.prod := by
    induction h with
    | nil => exact ⟨[], .nil, rfl⟩
    | cons hu _ ih =>
      obtain ⟨fs, hfs, hprod⟩ := hfactors _ _ hu
      obtain ⟨ws, hws, hprod'⟩ := ih
      refine ⟨fs ++ ws, ?_, ?_⟩
      · rw [List.flatMap_cons]
        exact List.rel_append hfs hws
      · rw [List.prod_append, List.prod_cons, hprod, hprod']
  obtain ⟨ws, hws, hprod⟩ := hflat
  obtain ⟨fs, hfs, hprod'⟩ := filter_nonone_values hone hws
  exact ⟨fs, hfs, hprod'.trans hprod⟩

end Flattening

theorem isOpenSum_iff : (g.node x).isOpenSum ↔ g.shape x = .sum ∧ g.isLoop x = false := by
  simp only [Node.isOpenSum, shape, isLoop, Bool.and_eq_true, beq_iff_eq, Bool.not_eq_true']

theorem isOpenProduct_iff :
    (g.node x).isOpenProduct ↔ g.shape x = .product ∧ g.isLoop x = false := by
  simp only [Node.isOpenProduct, shape, isLoop, Bool.and_eq_true, beq_iff_eq, Bool.not_eq_true']

theorem isOpenPower_iff : (g.node x).isOpenPower ↔ g.shape x = .power ∧ g.isLoop x = false := by
  simp only [Node.isOpenPower, shape, isLoop, Bool.and_eq_true, beq_iff_eq, Bool.not_eq_true']

theorem isOpenSum_of_shape (h : g.shape x ≠ .sum) : (g.node x).isOpenSum = false :=
  Bool.eq_false_iff.2 fun ho => h (isOpenSum_iff.1 ho).1

theorem isOpenProduct_of_shape (h : g.shape x ≠ .product) : (g.node x).isOpenProduct = false :=
  Bool.eq_false_iff.2 fun ho => h (isOpenProduct_iff.1 ho).1

theorem isOpenPower_of_shape (h : g.shape x ≠ .power) : (g.node x).isOpenPower = false :=
  Bool.eq_false_iff.2 fun ho => h (isOpenPower_iff.1 ho).1

/-- The terms of a node add up to its value. -/
theorem terms_values (h : g.valueWithin? M [] (d + 1) x = some v) :
    ∃ vs, g.ValuesWithin M (d + 1) (g.terms x) vs ∧ vs.sum = v := by
  rw [terms]
  split
  · next ho =>
    obtain ⟨-, vs, hvs, hv⟩ := valueWithin?_operands h
    rw [(isOpenSum_iff.1 ho).1] at hv
    exact ⟨vs, hvs.mono (Nat.le_succ d), Option.some.inj hv⟩
  · exact ⟨[v], .cons h .nil, List.sum_singleton⟩

/-- The factors of a node multiply to its value. -/
theorem factors_values (h : g.valueWithin? M [] (d + 1) x = some v) :
    ∃ vs, g.ValuesWithin M (d + 1) (g.factors x) vs ∧ vs.prod = v := by
  rw [factors]
  split
  · next ho =>
    obtain ⟨-, vs, hvs, hv⟩ := valueWithin?_operands h
    rw [(isOpenProduct_iff.1 ho).1] at hv
    exact ⟨vs, hvs.mono (Nat.le_succ d), Option.some.inj hv⟩
  · exact ⟨[v], .cons h .nil, List.prod_singleton⟩

theorem sum_valueWithin? (hg : g.WellFormed) (h : g.ValuesWithin M (d + 1) xs vs) :
    Meets Overflow (sum xs) g fun y g' => g'.valueWithin? M [] (d + 2) y = some vs.sum := by
  obtain ⟨ws, hws, hsum⟩ := flattenSum_values (fun _ _ => eq_of_valueWithin?)
    (fun _ _ => terms_values) h
  refine (sum_meets hg h.lt_size).mono fun y g' hg' hx hy => ?_
  rw [← hsum]
  generalize hzs : g.flattenSum xs = zs at hws hy
  cases hy with
  | nil =>
    cases hws
    exact hg'.valueWithin?_zero
  | single hz =>
    obtain ⟨v, hv, rfl⟩ := ValuesWithin.singleton hws
    rw [List.sum_singleton]
    exact valueWithin?_mono (valueWithin?_extends hv hg hx) (Nat.le_succ _)
  | node hlt _ hn =>
    obtain ⟨us, hus, hp⟩ := ValuesWithin.perm hws (List.mergeSort_perm _ g.sumLe)
    exact valueWithin?_node hlt hn (hus.extends hg hx) (congrArg some hp.sum_eq)

theorem product_valueWithin? (hg : g.WellFormed) (h : g.ValuesWithin M (d + 1) xs vs) :
    Meets Overflow (product xs) g fun y g' => g'.valueWithin? M [] (d + 2) y = some vs.prod := by
  obtain ⟨ws, hws, hprod⟩ := flattenProduct_values (fun _ _ => eq_of_valueWithin?)
    (fun _ _ => factors_values) h
  refine (product_meets hg h.lt_size).mono fun y g' hg' hx hy => ?_
  rw [← hprod]
  rcases hy with ⟨⟨z, hz, hz0⟩, rfl⟩ | ⟨-, hy⟩
  · obtain ⟨i, hi, rfl⟩ := List.getElem_of_mem hz
    have hi' : i < ws.length := hws.length_eq ▸ hi
    have h0 : ws[i] = 0 := eq_of_valueWithin? (hws.get hi hi') hz0
    rw [List.prod_eq_zero (h0 ▸ List.getElem_mem hi')]
    exact hg'.valueWithin?_zero
  generalize hzs : g.flattenProduct xs = zs at hws hy
  cases hy with
  | nil =>
    cases hws
    exact hg'.valueWithin?_one
  | single hz =>
    obtain ⟨v, hv, rfl⟩ := ValuesWithin.singleton hws
    rw [List.prod_singleton]
    exact valueWithin?_mono (valueWithin?_extends hv hg hx) (Nat.le_succ _)
  | node hlt _ hn =>
    obtain ⟨us, hus, hp⟩ := ValuesWithin.perm hws (List.mergeSort_perm _ g.productLe)
    exact valueWithin?_node hlt hn (hus.extends hg hx) (congrArg some hp.prod_eq)

theorem sum_denotes (hg : g.WellFormed) (h : g.AllDenote M xs vs) :
    Meets Overflow (sum xs) g fun y g' => g'.Denotes M [] y vs.sum := by
  obtain ⟨d, hd⟩ := h.valuesWithin
  exact (sum_valueWithin? hg (hd.mono (Nat.le_succ d))).mono fun _ _ _ _ hv => ⟨_, hv⟩

theorem product_denotes (hg : g.WellFormed) (h : g.AllDenote M xs vs) :
    Meets Overflow (product xs) g fun y g' => g'.Denotes M [] y vs.prod := by
  obtain ⟨d, hd⟩ := h.valuesWithin
  exact (product_valueWithin? hg (hd.mono (Nat.le_succ d))).mono fun _ _ _ _ hv => ⟨_, hv⟩

/-! ### Powers -/

theorem power_valueWithin? (hM : ∀ b, M.power b 1 = some b) (hg : g.WellFormed)
    (hx : g.valueWithin? M [] d x = some v) (hy : g.valueWithin? M [] d y = some w) {p : Rat}
    (hp : M.power v w = some p) :
    Meets Overflow (power x y) g fun z g' => g'.valueWithin? M [] (d + 1) z = some p := by
  refine (power_meets hg (lt_size_of_valueWithin? hx) (lt_size_of_valueWithin? hy)).mono ?_
  rintro z g' - hext (⟨hy1, rfl⟩ | ⟨-, hz, hn⟩)
  · obtain rfl := eq_of_valueWithin? hy hy1
    obtain rfl := Option.some.inj ((hM v).symm.trans hp)
    exact valueWithin?_mono (valueWithin?_extends hx hg hext) (Nat.le_succ d)
  · have hxy : g'.ValuesWithin M d [x, y] [v, w] :=
      .cons (valueWithin?_extends hx hg hext) (.cons (valueWithin?_extends hy hg hext) .nil)
    exact valueWithin?_node hz hn hxy hp

theorem power_denotes (hM : ∀ b, M.power b 1 = some b) (hg : g.WellFormed)
    (hx : g.Denotes M [] x v) (hy : g.Denotes M [] y w) {p : Rat} (hp : M.power v w = some p) :
    Meets Overflow (power x y) g fun z g' => g'.Denotes M [] z p := by
  obtain ⟨d, hd⟩ := hx
  obtain ⟨d', hd'⟩ := hy
  have hx := valueWithin?_mono hd (Nat.le_max_left d d')
  have hy := valueWithin?_mono hd' (Nat.le_max_right d d')
  exact (power_valueWithin? hM hg hx hy hp).mono fun _ _ _ _ hv => ⟨_, hv⟩

end ExactAlgebra.Graph
