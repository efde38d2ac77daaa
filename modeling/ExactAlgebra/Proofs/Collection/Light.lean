import ExactAlgebra.Proofs.Collection.CollectedFactors

/-!
The weight of expressions. It bounds how deep products and sums are nested, with the exponents that
stand on them; combining like terms and like factors does not raise it. What a power is taken apart
into weighs less than the power.
-/

namespace ExactAlgebra

/-- Nodes that evaluation leaves as they are, once their operands are evaluated. -/
def Shape.IsPassive : Shape → Prop
  | .unary _ | .call _ | .set | .arrow => True
  | .binary op => op ≠ .substitution
  | _ => False

namespace Graph

/-- A node weighs at most `n`. -/
inductive Light (g : Graph) : Nat → NodeId → Prop
  | constant {n : Nat} {x : NodeId} {q : Rat} (hs : g.shape x = .constant q) : Light g n x
  | symbol {n : Nat} {x : NodeId} {name : String} (hs : g.shape x = .symbol name) (hn : 1 ≤ n) :
      Light g n x
  | sum {m n : Nat} {x : NodeId} (hs : g.shape x = .sum) (hm : 1 ≤ m) (hn : m + 1 ≤ n)
      (hops : ∀ t ∈ g.operands x, ∀ f ∈ g.factors t, Light g m f) : Light g n x
  | product {m n : Nat} {x : NodeId} (hs : g.shape x = .product) (hm : 1 ≤ m) (hn : m + 1 ≤ n)
      (hops : ∀ f ∈ g.operands x, Light g m f) : Light g n x
  | power {m k n : Nat} {x b e : NodeId} (hs : g.shape x = .power) (hops : g.operands x = [b, e])
      (hm : 1 ≤ m) (hn : m + k ≤ n) (hb : Light g m b) (he : ∀ f ∈ g.factors e, Light g k f) :
      Light g n x
  | passive {m n : Nat} {x : NodeId} (hs : (g.shape x).IsPassive) (hn : m + 1 ≤ n)
      (hops : ∀ y ∈ g.operands x, ∀ f ∈ g.factors y, Light g m f) : Light g n x

/-- Each factor of a node weighs at most `n`. -/
def Thin (g : Graph) (n : Nat) (x : NodeId) : Prop := ∀ f ∈ g.factors x, g.Light n f

variable {V : Vocabulary} {F : Stable} {g g' : Graph} {m n k : Nat} {x y z b e f : NodeId} {q : Rat}
variable {xs ys : List NodeId} {P : NodeId → Prop}

theorem Light.mono (h : g.Light m x) (hn : m ≤ n) : g.Light n x := by
  cases h with
  | constant hs => exact .constant hs
  | symbol hs hm => exact .symbol hs (hm.trans hn)
  | sum hs hm hn' hops => exact .sum hs hm (hn'.trans hn) hops
  | product hs hm hn' hops => exact .product hs hm (hn'.trans hn) hops
  | power hs hops hm hn' hb he => exact .power hs hops hm (hn'.trans hn) hb he
  | passive hs hn' hops => exact .passive hs (hn'.trans hn) hops

theorem Thin.mono (h : g.Thin m x) (hn : m ≤ n) : g.Thin n x := fun f hf => (h f hf).mono hn

theorem light_of_value? (h : g.value? x = some q) : g.Light n x := .constant (value?_eq_some.1 h)

/-- Only constants weigh nothing. -/
theorem Light.one_le (h : g.Light n x) (hv : g.value? x = none) : 1 ≤ n := by
  cases h with
  | constant hs =>
    rw [value?, hs] at hv
    cases hv
  | symbol hs hn => exact hn
  | _ => omega

/-! What a node weighs, by its shape. -/

theorem Light.of_sum (h : g.Light n x) (hs : g.shape x = .sum) :
    ∃ m, 1 ≤ m ∧ m + 1 ≤ n ∧ ∀ t ∈ g.operands x, g.Thin m t := by
  cases h with
  | sum _ hm hn hops => exact ⟨_, hm, hn, hops⟩
  | constant hs' | symbol hs' | product hs' | power hs' => rw [hs] at hs'; cases hs'
  | passive hs' => rw [hs] at hs'; exact hs'.elim

theorem Light.of_product (h : g.Light n x) (hs : g.shape x = .product) :
    ∃ m, 1 ≤ m ∧ m + 1 ≤ n ∧ ∀ f ∈ g.operands x, g.Light m f := by
  cases h with
  | product _ hm hn hops => exact ⟨_, hm, hn, hops⟩
  | constant hs' | symbol hs' | sum hs' | power hs' => rw [hs] at hs'; cases hs'
  | passive hs' => rw [hs] at hs'; exact hs'.elim

theorem Light.of_power (h : g.Light n x) (hs : g.shape x = .power) (hops : g.operands x = [b, e]) :
    ∃ m k, 1 ≤ m ∧ m + k ≤ n ∧ g.Light m b ∧ g.Thin k e := by
  cases h with
  | power _ hops' hm hn hb he =>
    rw [hops] at hops'
    cases hops'
    exact ⟨_, _, hm, hn, hb, he⟩
  | constant hs' | symbol hs' | sum hs' | product hs' => rw [hs] at hs'; cases hs'
  | passive hs' => rw [hs] at hs'; exact hs'.elim

theorem Light.of_passive (h : g.Light n x) (hs : (g.shape x).IsPassive) :
    ∃ m, m + 1 ≤ n ∧ ∀ y ∈ g.operands x, g.Thin m y := by
  cases h with
  | passive _ hn hops => exact ⟨_, hn, hops⟩
  | constant hs' | symbol hs' | sum hs' | product hs' | power hs' => rw [hs'] at hs; exact hs.elim

/-- Expressions with weights have no substitutions. -/
theorem Light.ne_substitution (h : g.Light n x) : g.shape x ≠ .binary .substitution := by
  intro hs
  cases h with
  | passive hs' => rw [hs] at hs'; exact hs' rfl
  | constant hs' | symbol hs' | sum hs' | product hs' | power hs' => rw [hs] at hs'; cases hs'

theorem Light.thin (h : g.Light n x) : g.Thin n x := by
  intro f hf
  cases ho : (g.node x).isOpenProduct with
  | false =>
    rw [factors_of_not_product ho, List.mem_singleton] at hf
    exact hf ▸ h
  | true =>
    rw [factors, if_pos ho] at hf
    obtain ⟨m, -, hn, hops⟩ := h.of_product (isOpenProduct_iff.1 ho).1
    exact (hops f hf).mono (by omega)

theorem thin_iff_light (ho : (g.node x).isOpenProduct = false) : g.Thin n x ↔ g.Light n x := by
  rw [Thin, factors_of_not_product ho, List.forall_mem_singleton]

theorem Light.operands (h : g.Light n x) (hg : g.WellFormed) : ∀ y ∈ g.operands x, g.Thin n y := by
  have harity := hg.arity x
  intro y hy
  cases h with
  | constant hs | symbol hs =>
    rw [hs] at harity
    rw [List.length_eq_zero_iff.1 harity] at hy
    exact absurd hy List.not_mem_nil
  | sum _ _ hn hops | passive _ hn hops => exact Thin.mono (hops y hy) (by omega)
  | product _ _ hn hops => exact ((hops y hy).mono (by omega)).thin
  | power _ hops _ hn hb he =>
    rw [hops] at hy
    rcases List.mem_pair.1 hy with rfl | rfl
    · exact (hb.mono (by omega)).thin
    · exact Thin.mono he (by omega)

theorem Thin.operands (h : g.Thin n x) (hg : g.WellFormed) : ∀ y ∈ g.operands x, g.Thin n y := by
  cases ho : (g.node x).isOpenProduct with
  | false => exact ((thin_iff_light ho).1 h).operands hg
  | true =>
    rw [Thin, factors, if_pos ho] at h
    exact fun y hy => (h y hy).thin

theorem Thin.light (h : g.Thin n x) (hn : 1 ≤ n) : g.Light (n + 1) x := by
  cases ho : (g.node x).isOpenProduct with
  | false =>
    apply (h x _).mono (Nat.le_succ n)
    rw [factors_of_not_product ho]
    exact List.mem_singleton.2 rfl
  | true =>
    rw [Thin, factors, if_pos ho] at h
    exact .product (isOpenProduct_iff.1 ho).1 hn (Nat.le_refl _) h

theorem Agree.light (ha : Agree P g g') (h : g.Light n x) (hx : P x) : g'.Light n x := by
  have hfactors : ∀ {t}, P t → ∀ f ∈ g.factors t, P f := fun ht => ha.of_mem_factors ht
  induction h with
  | constant hs => exact .constant ((ha.shape_eq hx).trans hs)
  | symbol hs hn => exact .symbol ((ha.shape_eq hx).trans hs) hn
  | @sum m n x hs hm hn _ ih =>
    have hops := ha.operands x hx
    refine .sum ((ha.shape_eq hx).trans hs) hm hn ?_
    rw [ha.operands_eq hx]
    intro t ht f hf
    rw [ha.factors_eq (hops t ht)] at hf
    exact ih t ht f hf (hfactors (hops t ht) f hf)
  | @product m n x hs hm hn _ ih =>
    refine .product ((ha.shape_eq hx).trans hs) hm hn ?_
    rw [ha.operands_eq hx]
    exact fun f hf => ih f hf (ha.operands x hx f hf)
  | @power m k n x b e hs hops hm hn _ _ ihb ihe =>
    have hP := ha.operands x hx
    rw [hops] at hP
    have hb := hP b (by simp)
    have he := hP e (by simp)
    refine .power ((ha.shape_eq hx).trans hs) ((ha.operands_eq hx).trans hops) hm hn (ihb hb) ?_
    rw [ha.factors_eq he]
    exact fun f hf => ihe f hf (hfactors he f hf)
  | @passive m n x hs hn _ ih =>
    have hops := ha.operands x hx
    refine .passive (by rwa [ha.shape_eq hx]) hn ?_
    rw [ha.operands_eq hx]
    intro t ht f hf
    rw [ha.factors_eq (hops t ht)] at hf
    exact ih t ht f hf (hfactors (hops t ht) f hf)

theorem Agree.thin (ha : Agree P g g') (h : g.Thin n x) (hx : P x) : g'.Thin n x := by
  rw [Thin, ha.factors_eq hx]
  exact fun f hf => ha.light (h f hf) (ha.of_mem_factors hx f hf)

theorem Extends.light_iff (hx : g.Extends g') (hg : g.WellFormed) (hlt : x < g.size) :
    g'.Light n x ↔ g.Light n x :=
  ⟨fun h => (hx.agree hg).symm.light h hlt, fun h => (hx.agree hg).light h hlt⟩

theorem Extends.thin_iff (hx : g.Extends g') (hg : g.WellFormed) (hlt : x < g.size) :
    g'.Thin n x ↔ g.Thin n x :=
  ⟨fun h => (hx.agree hg).symm.thin h hlt, fun h => (hx.agree hg).thin h hlt⟩

/-- Any finite number of nodes with weights have one in common. -/
theorem exists_forall_light {α : Type} {as : List α} {P : Nat → α → Prop}
    (hP : ∀ {m n a}, m ≤ n → P m a → P n a) (h : ∀ a ∈ as, ∃ n, P n a) :
    ∃ n, 1 ≤ n ∧ ∀ a ∈ as, P n a := by
  induction as with
  | nil => exact ⟨1, Nat.le_refl 1, fun _ ha => absurd ha List.not_mem_nil⟩
  | cons a as ih =>
    obtain ⟨n, hn⟩ := h a (List.mem_cons_self ..)
    obtain ⟨m, hm, has⟩ := ih fun b hb => h b (List.mem_cons_of_mem _ hb)
    refine ⟨max n m, hm.trans (Nat.le_max_right n m), List.forall_mem_cons.2 ⟨?_, fun b hb => ?_⟩⟩
    · exact hP (Nat.le_max_left n m) hn
    · exact hP (Nat.le_max_right n m) (has b hb)

/-- Elementary expressions without substitutions have weights. -/
theorem Elementary.exists_light (h : g.Elementary V x) (hV : ¬ V.operators .substitution)
    (hg : g.WellFormed) : ∃ n, g.Light n x := by
  induction h with
  | @node x hx hl hc hops ih =>
    have hall : ∃ n, 1 ≤ n ∧ ∀ y ∈ g.operands x, g.Light n y :=
      exists_forall_light (fun hn h => h.mono hn) ih
    obtain ⟨n, hn, hn'⟩ := hall
    have harity := hg.arity x
    cases hs : g.shape x with
    | constant q => exact ⟨n, .constant hs⟩
    | symbol name => exact ⟨n, .symbol hs hn⟩
    | sum => exact ⟨n + 1, .sum hs hn (Nat.le_refl _) fun t ht => (hn' t ht).thin⟩
    | product => exact ⟨n + 1, .product hs hn (Nat.le_refl _) hn'⟩
    | power =>
      rw [hs] at harity
      obtain ⟨b, e, hbe⟩ := List.length_eq_two.1 harity
      rw [hbe] at hn'
      exact ⟨n + n, .power hs hbe hn (Nat.le_refl _) (hn' b (by simp)) (hn' e (by simp)).thin⟩
    | binary op =>
      rw [hs] at hc
      refine ⟨n + 1, .passive ?_ (Nat.le_refl _) fun t ht => (hn' t ht).thin⟩
      rw [hs]
      rintro rfl
      exact hV hc
    | unary | call | set | arrow =>
      refine ⟨n + 1, .passive ?_ (Nat.le_refl _) fun t ht => (hn' t ht).thin⟩
      rw [hs]
      trivial

/-! ### Collecting -/

variable {S : Nat → Prop}

/-- The nodes that weigh at most `n`, for each `n` in `S`. -/
def lightStable (S : Nat → Prop) : Stable where
  Holds g x := ∀ n, S n → g.Light n x
  of_extends hg hx hlt h n hn := (hx.light_iff hg hlt).2 (h n hn)
  of_value? h _ _ := light_of_value? h

theorem overTerms_of_thin (h : ∀ n, S n → g.Thin n x) : OverTerms (lightStable S) g x := by
  intro t ht f hf n hn
  cases ho : (g.node x).isOpenSum with
  | false =>
    rw [terms_of_not_sum ho, List.mem_singleton] at ht
    exact h n hn f (ht ▸ hf)
  | true =>
    have hx : g.Light n x := (thin_iff_light (isBase_of_isOpenSum ho).not_product).1 (h n hn)
    obtain ⟨m, -, hmn, hterms⟩ := hx.of_sum (isOpenSum_iff.1 ho).1
    rw [terms, if_pos ho] at ht
    exact (hterms t ht f hf).mono (by omega)

theorem OverTerms.light (h : OverTerms (lightStable S) g x) (hn : S n) (h1 : 1 ≤ n) :
    g.Light (n + 1) x := by
  have hthin : ∀ t ∈ g.terms x, g.Thin n t := fun t ht f hf => h t ht f hf n hn
  cases ho : (g.node x).isOpenSum with
  | false =>
    rw [terms_of_not_sum ho] at hthin
    exact (hthin x (List.mem_singleton.2 rfl)).light h1
  | true =>
    rw [terms, if_pos ho] at hthin
    exact .sum (isOpenSum_iff.1 ho).1 h1 (Nat.le_refl _) hthin

/-- Bases that weigh at most `n`, for each `n` in `S`. -/
def lightScalable (S : Nat → Prop) : Scalable where
  Holds g x := ∀ n, S n → 1 ≤ n ∧ g.Light n x
  of_extends hg hx hlt h n hn := ⟨(h n hn).1, (hx.light_iff hg hlt).2 (h n hn).2⟩
  scaled {g x w} hg hx ho h hw := by
    have hover : OverTerms (lightStable fun m => ∀ t ∈ g.terms x, g.Thin m t) g x :=
      fun t ht f hf m hm => hm t ht f hf
    apply (scaleSum_collected hg hx ho hover hw).mono
    rintro z g' - - ⟨-, -, hz, -⟩ n hn
    obtain ⟨h1, hlight⟩ := h n hn
    obtain ⟨m, hm, hmn, hterms⟩ := hlight.of_sum (isOpenSum_iff.1 ho).1
    rw [terms, if_pos ho] at hz
    exact ⟨h1, (hz.light hterms hm).mono hmn⟩

theorem Light.baseOf (h : g.Light n f) : g.Light n (g.baseOf f) := by
  rw [Graph.baseOf]
  cases hp : g.constantPower? f with
  | none => exact h
  | some r =>
    obtain ⟨hs, -, e, hops, -⟩ := constantPower?_eq_some (b := r.1) (e := r.2) hp
    obtain ⟨m, k, -, hn, hb, -⟩ := h.of_power hs hops
    exact hb.mono (by omega)

theorem light_of_baseOf (h : g.Light n (g.baseOf f)) (h1 : 1 ≤ n) : g.Light n f := by
  rw [Graph.baseOf] at h
  cases hp : g.constantPower? f with
  | none =>
    rw [hp] at h
    exact h
  | some r =>
    rw [hp] at h
    obtain ⟨hs, -, e, hops, he⟩ := constantPower?_eq_some (b := r.1) (e := r.2) hp
    exact .power (k := 0) hs hops h1 (Nat.le_refl _) h (light_of_value? he).thin

theorem combineTerms_light (hg : g.WellFormed) (hxs : ∀ x ∈ xs, g.Collected x) :
    Meets Overflow (combineTerms xs) g fun z g' => g'.Collected z ∧
      ∀ n, 1 ≤ n → (∀ x ∈ xs, g.Thin n x) → g'.Light (n + 1) z := by
  have hover : ∀ x ∈ xs, OverTerms (lightStable fun n => ∀ x ∈ xs, g.Thin n x) g x :=
    fun x hx => overTerms_of_thin fun n hn => hn x hx
  apply (combineTerms_collected hg fun x hx => ⟨hxs x hx, hover x hx⟩).mono
  exact fun z g' _ _ h => ⟨h.1, fun n h1 hn => h.2.light hn h1⟩

theorem combineFactors_thin (hg : g.WellFormed) (hxs : ∀ x ∈ xs, g.Collected x) :
    Meets Overflow (combineFactors xs) g fun z g' => g'.Collected z ∧
      ∀ n, (∀ x ∈ xs, g.Thin n x) → g'.Thin n z := by
  have hover : ∀ x ∈ xs, OverBases (lightScalable fun n => ∀ x ∈ xs, g.Thin n x) g x := by
    intro x hx f hf hv n hn
    have hlight := hn x hx f hf
    exact ⟨hlight.one_le hv, hlight.baseOf⟩
  apply (combineFactors_collected hg fun x hx => ⟨hxs x hx, hover x hx⟩).mono
  rintro z g' - - ⟨hz, hB⟩
  refine ⟨hz, fun n hn f hf => ?_⟩
  cases hv : g'.value? f with
  | some q => exact light_of_value? hv
  | none =>
    obtain ⟨h1, hbase⟩ := hB f hf hv n hn
    exact light_of_baseOf hbase h1

end Graph

end ExactAlgebra
