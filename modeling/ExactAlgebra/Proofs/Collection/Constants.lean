import ExactAlgebra.Proofs.Collection.Folding
import ExactAlgebra.Proofs.Collection.Weights
import ExactAlgebra.Proofs.Graph.Arithmetic

/-!
Collecting constants: like terms and like factors that are all constants combine to a constant.
-/

namespace ExactAlgebra.Graph

variable {g g' : Graph} {x y : NodeId} {q v : Rat} {xs : List NodeId} {vs : List Rat}

/-- Nodes that are constants, and their values. -/
abbrev Constants (g : Graph) : List NodeId → List Rat → Prop :=
  List.Forall₂ fun x v => g.plainValue? x = some v

theorem plainValue?_of_node (hx : x < g.size) (h : g.node x = { shape := .constant v }) :
    g.plainValue? x = some v := by
  refine plainValue?_eq_some.2 ⟨hx, congrArg Node.isLoop h, ?_⟩
  rw [value?, shape, h]
  rfl

theorem plainValue?_evolves (h : g.plainValue? x = some v) (hx : g.Evolves g') :
    g'.plainValue? x = some v := by
  obtain ⟨hlt, hl, hv⟩ := plainValue?_eq_some.1 h
  have hs : ¬ (g.shape x).IsSymbol := by
    rw [value?_eq_some.1 hv]
    exact id
  have he := hx.node_eq_of_not_isSymbol hlt hs
  rw [isLoop] at hl
  rw [value?, shape] at hv
  refine plainValue?_eq_some.2 ⟨hx.lt_size hlt, ?_, ?_⟩
  · rw [isLoop, he, hl]
  · rw [value?, shape, he, hv]

theorem Constants.evolves (h : g.Constants xs vs) (hx : g.Evolves g') : g'.Constants xs vs :=
  h.imp fun _ _ hv => plainValue?_evolves hv hx

theorem value?_of_plainValue? (h : g.plainValue? x = some v) : g.value? x = some v :=
  (plainValue?_eq_some.1 h).2.2

theorem WellFormed.plainValue?_zero (hg : g.WellFormed) : g.plainValue? zero = some 0 :=
  plainValue?_of_node hg.zero_lt_size hg.node_zero

theorem WellFormed.plainValue?_one (hg : g.WellFormed) : g.plainValue? one = some 1 :=
  plainValue?_of_node hg.one_lt_size hg.node_one

theorem constant_plainValue? (hg : g.WellFormed) (q : Rat) :
    Meets Overflow (constant q) g fun x g' => g'.plainValue? x = some q :=
  (constant_meets hg q).mono fun _ _ _ _ h => plainValue?_of_node h.1 h.2

/-- The shape of a constant rules out all others. -/
theorem shape_ne_of_plainValue? (h : g.plainValue? x = some v) {s : Shape} (hs : s.value? = none) :
    g.shape x ≠ s := by
  rintro rfl
  have hv := value?_of_plainValue? h
  rw [value?, hs] at hv
  cases hv

theorem isOpenSum_of_plainValue? (h : g.plainValue? x = some v) : (g.node x).isOpenSum = false :=
  Bool.eq_false_iff.2 fun ho => shape_ne_of_plainValue? h rfl (isOpenSum_iff.1 ho).1

theorem isOpenProduct_of_plainValue? (h : g.plainValue? x = some v) :
    (g.node x).isOpenProduct = false :=
  Bool.eq_false_iff.2 fun ho => shape_ne_of_plainValue? h rfl (isOpenProduct_iff.1 ho).1

theorem terms_of_plainValue? (h : g.plainValue? x = some v) : g.terms x = [x] := by
  rw [terms, isOpenSum_of_plainValue? h]
  rfl

theorem factors_of_plainValue? (h : g.plainValue? x = some v) : g.factors x = [x] := by
  rw [factors, isOpenProduct_of_plainValue? h]
  rfl

/-! ### Sums -/

theorem sum_singleton (h : g.plainValue? x = some v) (hv : v ≠ 0) : sum [x] g = .ok x g := by
  have hflat : g.flattenSum [x] = [x] := by
    have hx : g.hasValue 0 x = false := by
      rw [hasValue, value?_of_plainValue? h]
      exact decide_eq_false fun he => hv (Option.some.inj he)
    simp [flattenSum, isOpenSum_of_plainValue? h, hx]
  rw [sum, get_bind, hflat]
  rfl

theorem Terms.readAddend_plain (h : g.plainValue? x = some v) (ts : Terms) :
    ts.readAddend x g = .ok { ts with constant := ts.constant + v } g := by
  have hread : ts.read x g = .ok { ts with constant := ts.constant + v } g := by
    rw [Terms.read, get_bind, value?_of_plainValue? h]
    rfl
  rw [Terms.readAddend, get_bind, terms_of_plainValue? h, List.foldlM_cons]
  simp only [bind, EStateM.bind, hread, List.foldlM_nil]
  rfl

theorem Terms.foldlM_plain (h : g.Constants xs vs) (ts : Terms) :
    xs.foldlM Terms.readAddend ts g = .ok { ts with constant := ts.constant + vs.sum } g := by
  induction h generalizing ts with
  | nil =>
    rw [List.sum_nil, add_zero]
    rfl
  | cons hv _ ih =>
    rw [List.foldlM_cons]
    simp only [bind, EStateM.bind, readAddend_plain hv, ih, List.sum_cons, add_assoc]

theorem checked_eq (hx : x < g.size) : checked x g = .ok x g := by
  have hc : g.contains x = true := decide_eq_true hx
  rw [checked, get_bind, if_pos hc]
  rfl

theorem Terms.emit_plain (hg : g.WellFormed) (q : Rat) :
    Meets Overflow (Terms.emit ⟨.empty, q⟩) g fun y g' => g'.plainValue? y = some q := by
  unfold Terms.emit
  refine Meets.ite (fun h0 => ?_) fun h0 => ?_
  · obtain rfl : q = 0 := h0
    exact .pure hg hg.plainValue?_zero
  · refine (constant_plainValue? hg q).bind fun c g' hg' _ hc => ?_
    have hlt := (plainValue?_eq_some.1 hc).1
    have hentries : ((Weights.empty : Weights NodeId).add c 1).entries = [(c, 1)] :=
      Weights.add_nil c 1
    apply Meets.of_eq_ok (a := c) _ hg' hc
    have hsum : (do sum (← [(c, (1 : Rat))].filterMapM weightedTerm?)) g' = .ok c g' := by
      have hterm : weightedTerm? (c, 1) g' = .ok (some c) g' := by
        rw [weightedTerm?, if_neg one_ne_zero]
        simp only [bind, EStateM.bind, checked_eq hlt]
        rfl
      simp only [List.filterMapM_cons, bind, EStateM.bind, hterm]
      exact sum_singleton hc h0
    rw [← hentries] at hsum
    exact hsum

/-- The sum of constants is the constant that is their sum. -/
theorem combineTerms_plain (hg : g.WellFormed) (h : g.Constants xs vs) :
    Meets Overflow (combineTerms xs) g fun y g' => g'.plainValue? y = some vs.sum := by
  have hread := Terms.foldlM_plain h {}
  rw [zero_add] at hread
  have hm : Meets Overflow (xs.foldlM Terms.readAddend {}) g fun ts _ =>
      ts = ⟨.empty, vs.sum⟩ := .of_eq_ok hread hg rfl
  apply hm.bind
  rintro ts g' hg' - rfl
  exact Terms.emit_plain hg' vs.sum

/-! ### Products -/

theorem product_singleton (h : g.plainValue? x = some v) (hv : v ≠ 1) (hv' : v ≠ 0) :
    product [x] g = .ok x g := by
  have hone : g.hasValue 1 x = false := by
    rw [hasValue, value?_of_plainValue? h]
    exact decide_eq_false fun he => hv (Option.some.inj he)
  have hzero : g.hasValue 0 x = false := by
    rw [hasValue, value?_of_plainValue? h]
    exact decide_eq_false fun he => hv' (Option.some.inj he)
  have hflat : g.flattenProduct [x] = [x] := by
    simp [flattenProduct, isOpenProduct_of_plainValue? h, hone]
  rw [product, get_bind, hflat]
  simp only [List.any_cons, List.any_nil, hzero, Bool.or_self, Bool.false_eq_true, if_false]
  rfl

theorem Factors.readFactor_plain (h : g.plainValue? x = some v) (fs : Factors) :
    fs.readFactor g x = { fs with constant := fs.constant * v } := by
  rw [Factors.readFactor, factors_of_plainValue? h, List.foldl_cons, List.foldl_nil, Factors.read,
    value?_of_plainValue? h]

theorem Factors.foldl_plain (h : g.Constants xs vs) (fs : Factors) :
    xs.foldl (Factors.readFactor g) fs = { fs with constant := fs.constant * vs.prod } := by
  induction h generalizing fs with
  | nil => rw [List.prod_nil, mul_one, List.foldl_nil]
  | cons hv _ ih =>
    rw [List.foldl_cons, readFactor_plain hv, ih, List.prod_cons, mul_assoc]

theorem Factors.emit_plain (hg : g.WellFormed) (q : Rat) :
    Meets Overflow (Factors.emit ⟨.empty, q⟩) g fun y g' => g'.plainValue? y = some q := by
  rw [emit_eq]
  refine Meets.get (Meets.ite (fun h0 => ?_) fun h0 => ?_)
  · obtain rfl : q = 0 := h0
    exact .pure hg hg.plainValue?_zero
  have hplace : Meets Overflow (placeConstant ⟨.empty, q⟩) g fun ws g' =>
      (q = 1 ∧ ws.entries = []) ∨ (q ≠ 1 ∧ ∃ c, ws.entries = [(c, 1)] ∧
        g'.plainValue? c = some q) := by
    have hq : (⟨.empty, q⟩ : Factors).constant ≠ 0 := h0
    rw [placeConstant_eq hq]
    refine Meets.ite (fun h1 => .pure hg (.inl ⟨h1, rfl⟩)) fun h1 => Meets.get ?_
    refine (constant_plainValue? hg q).bind fun c g' hg' _ hc => .pure hg' ?_
    exact .inr ⟨h1, c, Weights.add_nil c 1, hc⟩
  apply hplace.bind
  rintro ws g' hg' - (⟨rfl, hws⟩ | ⟨h1, c, hws, hc⟩)
  · rw [hws]
    exact .pure hg' hg'.plainValue?_one
  · have hlt := (plainValue?_eq_some.1 hc).1
    have hfactor : weightedFactor? (c, 1) g' = .ok (some c) g' := by
      rw [weightedFactor?, if_neg one_ne_zero]
      simp only [bind, EStateM.bind, checked_eq hlt]
      rfl
    rw [hws]
    apply Meets.of_eq_ok (a := c) _ hg' hc
    simp only [List.filterMapM_cons, bind, EStateM.bind, hfactor]
    exact product_singleton hc h1 h0

/-- The product of constants is the constant that is their product. -/
theorem combineFactors_plain (hg : g.WellFormed) (h : g.Constants xs vs) :
    Meets Overflow (combineFactors xs) g fun y g' => g'.plainValue? y = some vs.prod := by
  apply Meets.get
  rw [Factors.foldl_plain h, one_mul]
  exact Factors.emit_plain hg vs.prod

end ExactAlgebra.Graph
