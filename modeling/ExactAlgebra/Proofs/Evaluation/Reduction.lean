import ExactAlgebra.Proofs.Evaluation.Elementary
import ExactAlgebra.Proofs.Evaluation.Folding

/-!
What the rules of evaluation build from evaluated operands: expressions that are collected and
folded, and weigh no more than what they are built from. A power of a product is taken apart into
powers of its factors, which weigh less.
-/

namespace ExactAlgebra

namespace Graph

variable {V V' : Vocabulary} {g g' : Graph} {x y z l r b e f : NodeId} {m n k : Nat} {q : Rat}
variable {xs ys bs : List NodeId}

/-- What evaluation makes of a node. -/
structure Reduces (V : Vocabulary) (g : Graph) (x y : NodeId) : Prop where
  lt_size : x < g.size
  elementary : g.Elementary V y
  collected : g.Collected y
  folded : g.Folded y
  thin : ∀ n, g.Thin n x → g.Thin n y
  light : ∀ n, g.Light n x → g.Light n y

theorem Reduces.extends (h : g.Reduces V x y) (hg : g.WellFormed) (hx : g.Extends g') :
    g'.Reduces V x y where
  lt_size := hx.lt_size h.lt_size
  elementary := hx.elementary h.elementary
  collected := hx.collected hg h.collected
  folded := hx.folded hg h.elementary.lt_size h.folded
  thin n hn := (hx.thin_iff hg h.elementary.lt_size).2 (h.thin n ((hx.thin_iff hg h.lt_size).1 hn))
  light n hn :=
    (hx.light_iff hg h.elementary.lt_size).2 (h.light n ((hx.light_iff hg h.lt_size).1 hn))

/-- If `x` is no product, its weight as a whole is enough. -/
theorem reduces_of_light (hx : x < g.size) (he : g.Elementary V y) (hc : g.Collected y)
    (hf : g.Folded y) (ho : (g.node x).isOpenProduct = false)
    (hl : ∀ n, g.Light n x → g.Light n y) : g.Reduces V x y :=
  ⟨hx, he, hc, hf, fun n hn => (hl n ((thin_iff_light ho).1 hn)).thin, hl⟩

theorem reduces_of_value? (hx : x < g.size) (he : g.Elementary V y) (hc : g.Collected y)
    (hv : g.value? y = some q) : g.Reduces V x y :=
  ⟨hx, he, hc, .constant hv, fun _ _ => (light_of_value? hv).thin, fun _ _ => light_of_value? hv⟩

/-! ### Expressions without substitutions -/

/-- The vocabulary without substitutions. -/
def Vocabulary.plain (V : Vocabulary) : Vocabulary :=
  { V with operators := fun op => V.operators op ∧ op ≠ .substitution }

theorem Elementary.of_plain (h : g.Elementary V.plain x) : g.Elementary V x := by
  refine h.mono fun x s hs => ?_
  cases s with
  | binary => exact hs.1
  | _ => exact hs

theorem Vocabulary.not_plain_substitution (V : Vocabulary) : ¬ V.plain.operators .substitution :=
  fun h => h.2 rfl

/-- Nothing is left of substitutions in what is collected. -/
theorem Collected.plain (h : g.Collected x) (hx : g.Elementary V x) : g.Elementary V.plain x := by
  induction hx with
  | @node x hx hl hc _ ih =>
    refine .node hx hl ?_ fun y hy => ih y hy (h.operands y hy)
    have ht := h.tidy
    rw [Tidy] at ht
    cases hs : g.shape x with
    | binary op =>
      rw [hs] at hc ht
      exact ⟨hc, ht⟩
    | _ =>
      rw [hs] at hc
      exact hc

/-- The vocabulary of a product is that of its factors. -/
theorem Elementary.of_factors (h : g.Elementary V x) (hf : ∀ f ∈ g.factors x, g.Elementary V' f) :
    g.Elementary V' x := by
  rw [Graph.factors] at hf
  split at hf
  · next ho =>
    refine .node h.lt_size h.isLoop_eq ?_ hf
    rw [(isOpenProduct_iff.1 ho).1]
    trivial
  · exact hf x (List.mem_singleton.2 rfl)

/-! ### Passive nodes -/

/-- A node that is built over its evaluated operands. -/
theorem reduces_passive (hx : x < g.size) (hs : (g.shape x).IsPassive) (hy : g.Elementary V y)
    (hn : g.node y = { shape := g.shape x, operands := ys }) (hu : g.Unfoldable y)
    (hys : List.Forall₂ (g.Reduces V) (g.operands x) ys) : g.Reduces V x y := by
  have hshape : g.shape y = g.shape x := by rw [shape, hn]
  have hops : g.operands y = ys := by rw [operands, hn]
  have ho : (g.node x).isOpenProduct = false := isOpenProduct_of_shape fun h => by
    rw [h] at hs
    exact hs.elim
  have hfolded : ∀ z ∈ g.operands y, g.Folded z := by
    rw [hops]
    intro z hz
    obtain ⟨w, -, hw⟩ := exists_of_forall₂ hys hz
    exact hw.folded
  refine reduces_of_light hx hy (.node hy.lt_size hy.isLoop_eq ?_ ?_ ?_) (.node hu hfolded) ho
    fun n hn => ?_
  · rw [Tidy, hshape]
    cases hsx : g.shape x with
    | binary op =>
      rw [hsx] at hs
      exact hs
    | sum | product | power =>
      rw [hsx] at hs
      exact hs.elim
    | _ => trivial
  · rw [hshape]
    cases hsx : g.shape x with
    | sum | product =>
      rw [hsx] at hs
      exact hs.elim
    | _ => trivial
  · intro z hz
    rw [hops] at hz
    obtain ⟨w, -, hw⟩ := exists_of_forall₂ hys hz
    exact hw.collected
  · obtain ⟨m, hm, hlight⟩ := hn.of_passive hs
    refine .passive (hshape ▸ hs) hm ?_
    rw [hops]
    intro z hz
    obtain ⟨w, hw, hwz⟩ := exists_of_forall₂ hys hz
    exact hwz.thin m (hlight w hw)

/-! ### Products and powers -/

/-- A product of nodes whose factors are no products has those factors, or constants. -/
theorem product_factors (hg : g.WellFormed) (hxs : ∀ x ∈ xs, x < g.size)
    (hf : ∀ x ∈ xs, ∀ f ∈ g.factors x, (g.node f).isOpenProduct = false) :
    Meets Overflow (product xs) g fun z g' =>
      ∀ f ∈ g'.factors z, (∃ q, g'.value? f = some q) ∨ ∃ x ∈ xs, f ∈ g.factors x := by
  have hflat : ∀ f ∈ g.flattenProduct xs, ∃ x ∈ xs, f ∈ g.factors x := fun f hf =>
    List.mem_flatMap.1 (List.mem_filter.1 hf).1
  have hconst : ∀ {g : Graph} {c p}, g.node c = { shape := .constant p } →
      ∀ f ∈ g.factors c, ∃ q, g.value? f = some q := by
    intro g c p hc f hf
    have hv : g.value? c = some p := value?_eq_some.2 (congrArg Node.shape hc)
    rw [factors_of_not_product (isOpenProduct_of_value? hv), List.mem_singleton] at hf
    exact ⟨p, hf ▸ hv⟩
  apply (product_meets hg hxs).mono
  rintro z g' hg' hx (⟨-, rfl⟩ | ⟨-, hz⟩) f hmem
  · exact .inl (hconst hg'.node_zero f hmem)
  generalize hzs : g.flattenProduct xs = zs at hflat hz
  cases hz with
  | nil => exact .inl (hconst hg'.node_one f hmem)
  | single hlt =>
    obtain ⟨x, hx', hfx⟩ := hflat z (List.mem_singleton.2 rfl)
    have ho := hf x hx' z hfx
    rw [← hx.node_eq z hlt] at ho
    rw [factors_of_not_product ho, List.mem_singleton] at hmem
    exact .inr ⟨x, hx', hmem ▸ hfx⟩
  | node hlt hlen hn =>
    rw [factors, isOpenProduct_iff.2 ⟨congrArg Node.shape hn, congrArg Node.isLoop hn⟩, if_pos rfl,
      operands, hn, List.mem_mergeSort] at hmem
    exact .inr (hflat f hmem)

theorem product_of_exponents (hg : g.WellFormed) (hl : g.Elementary V l) (hr : g.Elementary V r)
    (hlc : g.Collected l) (hrc : g.Collected r) :
    Meets Overflow (product [l, r]) g fun z g' => g'.Elementary V.plain z ∧
      ∀ n, g.Thin n l → g.Thin n r → g'.Thin n z := by
  have hcollected : ∀ x ∈ [l, r], g.Collected x := by simp [hlc, hrc]
  have hplain : ∀ x ∈ [l, r], g.Elementary V.plain x := by simp [hlc.plain hl, hrc.plain hr]
  have hm := product_factors hg (fun x hx => (hcollected x hx).lt_size)
    fun x hx f => (hcollected x hx).not_product_of_mem_factors
  apply (hm.and (product_replays hg hplain)).mono
  rintro z g' - hx ⟨hf, hz, -⟩
  refine ⟨hz, fun n hn hn' f hfz => ?_⟩
  rcases hf f hfz with ⟨q, hq⟩ | ⟨x, hx', hfx⟩
  · exact light_of_value? hq
  have hthin : g.Thin n x := by
    rcases List.mem_pair.1 hx' with rfl | rfl
    · exact hn
    · exact hn'
  have hlt := (hx.agree hg).of_mem_factors (hcollected x hx').lt_size f hfx
  exact (hx.light_iff hg hlt).2 (hthin f hfx)

/-- A factor of a product of powers: a constant, a base, or a base with the exponent on it. -/
inductive PowerOver (g : Graph) (bs : List NodeId) (e f : NodeId) : Prop
  | constant {q : Rat} (h : g.value? f = some q)
  | base (h : f ∈ bs)
  | power {b : NodeId} (hb : b ∈ bs) (hlt : f < g.size)
      (hn : g.node f = { shape := .power, operands := [b, e] })

theorem PowerOver.light (h : g.PowerOver bs e f) (hm : 1 ≤ m) (hbs : ∀ b ∈ bs, g.Light m b)
    (he : g.Thin k e) : g.Light (m + k) f := by
  cases h with
  | constant h => exact light_of_value? h
  | base h => exact (hbs f h).mono (Nat.le_add_right m k)
  | power hb hlt hn =>
    exact .power (congrArg Node.shape hn) (congrArg Node.operands hn) hm (Nat.le_refl _)
      (hbs _ hb) he

theorem elementary_of_value? (hg : g.WellFormed) (hx : x < g.size) (hl : g.isLoop x = false)
    (h : g.value? x = some q) : g.Elementary V x := by
  have hs := value?_eq_some.1 h
  have harity := hg.arity x
  rw [hs] at harity
  refine .node hx hl (by rw [hs]; trivial) fun y hy => ?_
  rw [List.length_eq_zero_iff.1 harity] at hy
  exact absurd hy List.not_mem_nil

theorem PowerOver.elementary (h : g.PowerOver bs e f) (hg : g.WellFormed) (hf : g.Elementary V' f)
    (hbs : ∀ b ∈ bs, g.Elementary V b) (he : g.Elementary V e) : g.Elementary V f := by
  cases h with
  | constant h => exact elementary_of_value? hg hf.lt_size hf.isLoop_eq h
  | base h => exact hbs f h
  | power hb hlt hn =>
    refine .of_node hlt hn trivial fun y hy => ?_
    rcases List.mem_pair.1 hy with rfl | rfl
    · exact hbs _ hb
    · exact he

end Graph

open ExactAlgebra.Graph (Meets Overflow Vocabulary PowerOver)

variable {V : Vocabulary} {g : Graph} {l r e : NodeId} {bs : List NodeId}

namespace Evaluation

theorem powerOfProduct_powers (hg : g.WellFormed) (hbs : ∀ b ∈ bs, b < g.size)
    (ho : ∀ b ∈ bs, (g.node b).isOpenProduct = false) (he : e < g.size) :
    Meets Overflow (powerOfProduct bs e) g fun z g' => ∀ f ∈ g'.factors z, g'.PowerOver bs e f := by
  have hmap := Meets.mapM (E := Overflow) (f := (Graph.power · e)) (g := g) (l := bs)
    (P := fun g b => b < g.size ∧ e < g.size)
    (R := fun g b z => z < g.size ∧ (z = b ∨ g.node z = { shape := .power, operands := [b, e] }))
    (fun _ hx h => ⟨hx.lt_size h.1, hx.lt_size h.2⟩)
    (fun _ hx h => ⟨hx.lt_size h.1, (hx.node_eq _ h.1).symm ▸ h.2⟩)
    (fun {g b} hg h => by
      apply (Graph.power_meets hg h.1 h.2).mono
      rintro z g' - hx (⟨-, rfl⟩ | ⟨-, hlt, hn⟩)
      · exact ⟨hx.lt_size h.1, .inl rfl⟩
      · exact ⟨hlt, .inr hn⟩)
    hg fun b hb => ⟨hbs b hb, he⟩
  apply hmap.bind
  intro zs g₁ hg₁ hx₁ hzs
  have hcases : ∀ z ∈ zs, z < g₁.size ∧ (g₁.node z).isOpenProduct = false ∧
      g₁.PowerOver bs e z := by
    intro z hz
    obtain ⟨b, hb, hlt, rfl | hn⟩ := Graph.exists_of_forall₂ hzs hz
    · refine ⟨hlt, ?_, .base hb⟩
      rw [hx₁.node_eq z (hbs z hb)]
      exact ho z hb
    · exact ⟨hlt, by rw [Node.isOpenProduct, hn]; rfl, .power hb hlt hn⟩
  have hfactors : ∀ z ∈ zs, ∀ f ∈ g₁.factors z, f = z := fun z hz f hf => by
    rw [Graph.factors_of_not_product (hcases z hz).2.1] at hf
    exact List.mem_singleton.1 hf
  apply (Graph.product_factors hg₁ (fun z hz => (hcases z hz).1) fun z hz f hf =>
    hfactors z hz f hf ▸ (hcases z hz).2.1).mono
  intro z g₂ _ hx₂ hz f hf
  rcases hz f hf with ⟨q, hq⟩ | ⟨w, hw, hfw⟩
  · exact .constant hq
  · rw [hfactors w hw f hfw]
    obtain ⟨hlt, -, hpower⟩ := hcases w hw
    cases hpower with
    | constant h => exact .constant ((hx₂.value?_eq hlt).trans h)
    | base h => exact .base h
    | power hb hlt hn => exact .power hb (hx₂.lt_size hlt) ((hx₂.node_eq w hlt).trans hn)

/-- A power of a base, from an evaluated base and an evaluated exponent. -/
theorem foldPower_collected (hg : g.WellFormed) (hl : g.Elementary V l) (hr : g.Elementary V r)
    (hlc : g.Collected l) (hrc : g.Collected r) (hb : g.IsBase l) :
    Meets Overflow (foldPower l r) g fun z g' => g'.Elementary V z ∧ g'.Collected z ∧
      ∀ m k, 1 ≤ m → g.Light m l → g.Thin k r → g'.Light (m + k) z := by
  have hlight : Meets Overflow (foldPower l r) g fun z g' => g'.Collected z ∧
      ∀ m k, 1 ≤ m → g.Light m l → g.Thin k r → g'.Light (m + k) z := by
    have hconst : ∀ {g' : Graph} {c : NodeId} {q : Rat}, g'.value? c = some q →
        ∀ m k, 1 ≤ m → g.Light m l → g.Thin k r → g'.Light (m + k) c :=
      fun h _ _ _ _ _ => Graph.light_of_value? h
    have hzero := Graph.value?_eq_some.2 (congrArg Node.shape hg.node_zero)
    have hone := Graph.value?_eq_some.2 (congrArg Node.shape hg.node_one)
    rw [foldPower_eq]
    apply Meets.get
    apply Meets.ite (fun _ => .pure hg ⟨hg.collected_zero, hconst hzero⟩)
    intro _
    apply Meets.ite (fun _ => .pure hg ⟨hg.collected_one, hconst hone⟩)
    intro _
    apply Meets.ite (fun _ => .pure hg ⟨hg.collected_one, hconst hone⟩)
    intro h0
    apply Meets.ite
    · exact fun _ => .pure hg ⟨hlc, fun m k _ hm _ => hm.mono (Nat.le_add_right m k)⟩
    intro _
    cases foldedPower? (g.value? l) (g.value? r) with
    | some q =>
      apply (Graph.constant_collected hg q).mono
      exact fun z g' _ _ h => ⟨h.1, hconst h.2⟩
    | none =>
      apply (Graph.power_collected hg hlc hb hrc h0).mono
      rintro z g' - hx ⟨hz, ⟨-, rfl⟩ | ⟨-, hn⟩⟩ <;> refine ⟨hz, fun m k h1 hm hk => ?_⟩
      · exact ((hx.light_iff hg hlc.lt_size).2 hm).mono (Nat.le_add_right m k)
      · exact .power (congrArg Node.shape hn) (congrArg Node.operands hn) h1 (Nat.le_refl _)
          ((hx.light_iff hg hlc.lt_size).2 hm) ((hx.thin_iff hg hrc.lt_size).2 hk)
  exact (hlight.and (foldPower_replays hg hl hr)).mono fun _ _ _ _ h => ⟨h.2.1, h.1⟩

end Evaluation

end ExactAlgebra
