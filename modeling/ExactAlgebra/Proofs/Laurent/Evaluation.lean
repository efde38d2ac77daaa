import ExactAlgebra.Proofs.Laurent.Combining

/-!
Evaluation brings every expanded Laurent polynomial into collected form, whatever its order and its
nesting.
-/

namespace ExactAlgebra.Evaluation

open ExactAlgebra.Graph (Vocabulary Overflow Meets)
open ExactAlgebra.Dialogue (Halts)

variable {library : Library} {V : Vocabulary} {E : Error → Graph → Prop} {g g' : Graph}
variable {x y s e : NodeId} {name : String} {q : Rat} {p : Laurent}

/-- A node without operands stays as it is. -/
theorem ask_leaf (hg : g.WellFormed) (hx : g.Elementary V x)
    (hs : (∃ q, g.shape x = .constant q) ∨ ∃ name, g.shape x = .symbol name) :
    Halts (rules library) E (Dialogue.ask x) g fun y _ => x = y := by
  apply ask_of_byShape hx
  apply Halts.graph
  obtain ⟨q, hs⟩ | ⟨name, hs⟩ := hs <;> rw [hs] <;> exact .pure hg ⟨hx.lt_size, rfl⟩

theorem ask_constant (hg : g.WellFormed) (hx : g.Elementary V x) (hq : g.value? x = some q) :
    Halts (rules library) E (Dialogue.ask x) g fun y g' => x = y ∧ g'.Single V y := by
  have hs := Graph.value?_eq_some.1 hq
  have hc := collected_leaf hg hx.lt_size hx.isLoop_eq (.inl ⟨q, hs⟩)
  apply (ask_leaf hg hx (.inl ⟨q, hs⟩)).mono
  rintro y g' - hext rfl
  exact ⟨rfl, (Graph.single_of_value? hx hc hq).extends hg hext⟩

theorem ask_symbol (hg : g.WellFormed) (hx : g.Elementary V x) (hs : g.shape x = .symbol name) :
    Halts (rules library) E (Dialogue.ask x) g fun y g' => x = y ∧ g'.Single V y := by
  have hc := collected_leaf hg hx.lt_size hx.isLoop_eq (.inr ⟨name, hs⟩)
  have hsingle := Graph.single_of_isSymbol hx hc (by rw [hs]; trivial)
  apply (ask_leaf hg hx (.inr ⟨name, hs⟩)).mono
  rintro y g' - hext rfl
  exact ⟨rfl, hsingle.extends hg hext⟩

/-- A symbol with a constant exponent. -/
theorem power_single (hE : Permits library V E) (hg : g.WellFormed) (hs : g.Elementary V s)
    (hname : g.shape s = .symbol name) (he : g.Elementary V e) (hq : g.value? e = some q) :
    Halts (rules library) E (power s e) g fun z g' => g'.Single V z := by
  have hsymbol : (g.shape s).IsSymbol := by
    rw [hname]
    trivial
  apply (ask_symbol hg hs hname).bind
  rintro _ g₁ hg₁ hx₁ ⟨rfl, hsc⟩
  have hsymbol₁ : (g₁.shape s).IsSymbol := (hx₁.shape_eq hs.lt_size).symm ▸ hsymbol
  apply Halts.graph
  rw [(Graph.isBase_of_isSymbol hsymbol₁).not_product, if_neg Bool.false_ne_true]
  apply (ask_constant hg₁ (hx₁.elementary he) ((hx₁.value?_eq he.lt_size).trans hq)).bind
  rintro _ g₂ hg₂ hx₂ ⟨rfl, hec⟩
  have hnot : (g₁.node s).isOpenPower = false := by
    rw [Bool.eq_false_iff]
    intro ho
    rw [(Graph.isOpenPower_iff.1 ho).1] at hsymbol₁
    exact hsymbol₁.elim
  rw [hnot]
  have hs₂ := hsc.extends hg₁ hx₂
  apply hE.build
  exact Graph.foldPower_single hg₂ hs₂.elementary hs₂.collected
    ((hx₂.shape_eq hsc.elementary.lt_size).symm ▸ hsymbol₁) hec.elementary hec.collected
    (((hx₁.trans hx₂).value?_eq he.lt_size).trans hq)

/-- A monomial becomes a product with nothing left to combine. -/
theorem monomial_single (hE : Permits library V E) (h : g.Monomial x p) (hx : g.Elementary V x)
    (hg' : g'.WellFormed) (hext : g.Extends g') :
    Halts (rules library) E (Dialogue.ask x) g' fun y g'' => g''.Single V y := by
  induction h generalizing g' with
  | constant hq =>
    apply (ask_constant hg' (hext.elementary hx) ((hext.value?_eq hx.lt_size).trans hq)).mono
    exact fun _ _ _ _ h => h.2
  | symbol hs =>
    apply (ask_symbol hg' (hext.elementary hx) ((hext.shape_eq hx.lt_size).trans hs)).mono
    exact fun _ _ _ _ h => h.2
  | @power x s e name n hs hops hname hn =>
    have hxs := hx.operands
    rw [hops] at hxs
    have hse := hxs s (by simp)
    have hee := hxs e (by simp)
    apply ask_of_byShape (hext.elementary hx)
    apply Halts.graph
    rw [hext.shape_eq hx.lt_size, hext.operands_eq hx.lt_size, hs, hops]
    apply (power_single hE hg' (hext.elementary hse) ((hext.shape_eq hse.lt_size).trans hname)
      (hext.elementary hee) ((hext.value?_eq hee.lt_size).trans hn)).mono
    exact fun _ _ _ _ h => ⟨h.elementary.lt_size, h⟩
  | @product x p hs hops ih =>
    apply ask_of_byShape (hext.elementary hx)
    apply Halts.graph
    rw [hext.shape_eq hx.lt_size, hext.operands_eq hx.lt_size, hs]
    have hask : Halts (rules library) E (Dialogue.askAll (g.operands x)) g' fun ys g'' =>
        List.Forall₂ (fun _ y => g''.Single V y) (g.operands x) ys :=
      .askAll hg' (fun hg hx h => h.extends hg hx) fun y hy g'' hg'' hx'' =>
        ih y hy (hx.operands y hy) hg'' (hext.trans hx'')
    apply hask.bind
    intro ys g₁ hg₁ _ hys
    have hall : ∀ y ∈ ys, g₁.Single V y := fun y hy => (Graph.exists_of_forall₂ hys hy).choose_spec.2
    apply (hE.build (Graph.combineFactors_single hg₁ hall)).mono
    exact fun _ _ _ _ h => ⟨h.elementary.lt_size, h⟩

theorem exists_of_forall₂_middle {α β : Type} {R : α → β → Prop} {as as' : List α} {a : α}
    {bs : List β} (h : List.Forall₂ R (as ++ a :: as') bs) :
    ∃ us b us', bs = us ++ b :: us' ∧ List.Forall₂ R as us ∧ R a b ∧ List.Forall₂ R as' us' := by
  induction as generalizing bs with
  | nil =>
    cases h with
    | cons hab htail => exact ⟨[], _, _, rfl, .nil, hab, htail⟩
  | cons c as ih =>
    cases h with
    | cons hc htail =>
      obtain ⟨us, b, us', rfl, hus, hab, hus'⟩ := ih htail
      exact ⟨_ :: us, b, us', rfl, .cons hc hus, hab, hus'⟩

/-- What an operand of a product of constants and one other expression becomes. -/
def Scaled (V : Vocabulary) (g g' : Graph) (x y : NodeId) : Prop :=
  g'.Combined V y ∧ (g.value? x ≠ none → g'.value? y ≠ none)

theorem Scaled.extends {g'' : Graph} (h : Scaled V g g' x y) (hg' : g'.WellFormed)
    (hx : g'.Extends g'') : Scaled V g g'' x y := by
  refine ⟨h.1.extends hg' hx, fun hv => ?_⟩
  rw [hx.value?_eq h.1.elementary.lt_size]
  exact h.2 hv

theorem ask_scaled_constant (hx : g.Elementary V x) (hq : g.value? x = some q)
    (hg' : g'.WellFormed) (hext : g.Extends g') :
    Halts (rules library) E (Dialogue.ask x) g' fun y g'' => Scaled V g g'' x y := by
  have hq' := (hext.value?_eq hx.lt_size).trans hq
  apply (ask_constant hg' (hext.elementary hx) hq').mono
  rintro y g'' - hext' ⟨rfl, hy⟩
  refine ⟨hy.combined, fun _ => ?_⟩
  rw [hext'.value?_eq (hext.lt_size hx.lt_size), hq']
  exact Option.some_ne_none q

/-- The product of constants and one other expression. -/
theorem combineFactors_combined {xs ys zs : List NodeId} (hg' : g'.WellFormed)
    (hxs : ∀ c ∈ xs ++ ys, g.value? c ≠ none)
    (hzs : List.Forall₂ (Scaled V g g') (xs ++ x :: ys) zs) :
    Meets Overflow (Graph.combineFactors zs) g' fun z g'' => g''.Combined V z := by
  obtain ⟨us, y, us', rfl, hus, ⟨hy, -⟩, hus'⟩ := exists_of_forall₂_middle hzs
  have hconst : ∀ u ∈ us ++ us', g'.Combined V u ∧ g'.value? u ≠ none := by
    intro u hu
    obtain ⟨c, hc, hcu⟩ := Graph.exists_of_forall₂ (List.rel_append hus hus') hu
    exact ⟨hcu.1, hcu.2 (hxs c hc)⟩
  cases ho : (g'.node y).isOpenSum with
  | true =>
    exact Graph.combineFactors_scaled hg' hy ho fun u hu =>
      ⟨(hconst u hu).1.elementary, (hconst u hu).2⟩
  | false =>
    have hall : ∀ u ∈ us ++ y :: us', g'.Single V u := by
      intro u hu
      rcases List.mem_cons.1 (List.perm_middle.subset hu) with rfl | hu
      · exact hy.single ho
      · obtain ⟨q, hq⟩ := Option.ne_none_iff_exists'.1 (hconst u hu).2
        exact (hconst u hu).1.single (Graph.isOpenSum_of_value? hq)
    exact (Graph.combineFactors_single hg' hall).mono fun _ _ _ _ h => h.combined

/-- An expanded expression becomes a sum with nothing left to combine. -/
theorem expanded_combined (hE : Permits library V E) (h : g.Expanded x p) (hx : g.Elementary V x)
    (hg' : g'.WellFormed) (hext : g.Extends g') :
    Halts (rules library) E (Dialogue.ask x) g' fun y g'' => g''.Combined V y := by
  induction h generalizing g' with
  | monomial h => exact (monomial_single hE h hx hg' hext).mono fun _ _ _ _ h => h.combined
  | @sum x p hs hops ih =>
    apply ask_of_byShape (hext.elementary hx)
    apply Halts.graph
    rw [hext.shape_eq hx.lt_size, hext.operands_eq hx.lt_size, hs]
    have hask : Halts (rules library) E (Dialogue.askAll (g.operands x)) g' fun ys g'' =>
        List.Forall₂ (fun _ y => g''.Combined V y) (g.operands x) ys :=
      .askAll hg' (fun hg hx h => h.extends hg hx) fun y hy g'' hg'' hx'' =>
        ih y hy (hx.operands y hy) hg'' (hext.trans hx'')
    apply hask.bind
    intro ys g₁ hg₁ _ hys
    have hall : ∀ y ∈ ys, g₁.Combined V y := fun y hy =>
      (Graph.exists_of_forall₂ hys hy).choose_spec.2
    apply (hE.build (Graph.combineTerms_combined hg₁ hall)).mono
    exact fun _ _ _ _ h => ⟨h.elementary.lt_size, h⟩
  | @scaled x y p xs ys q hs hops hq _ ih =>
    have hxs := hx.operands
    rw [hops] at hxs
    apply ask_of_byShape (hext.elementary hx)
    apply Halts.graph
    rw [hext.shape_eq hx.lt_size, hext.operands_eq hx.lt_size, hs, hops]
    have hask : Halts (rules library) E (Dialogue.askAll (xs ++ y :: ys)) g' fun zs g'' =>
        List.Forall₂ (Scaled V g g'') (xs ++ y :: ys) zs := by
      refine .askAll hg' (fun hg hx h => h.extends hg hx) fun w hw g'' hg'' hx'' => ?_
      have hwe := hxs w hw
      cases hv : g.value? w with
      | some c => exact ask_scaled_constant hwe hv hg'' (hext.trans hx'')
      | none =>
        obtain rfl : w = y := by
          rcases List.mem_cons.1 (List.perm_middle.subset hw) with h | h
          · exact h
          · rw [hq w h] at hv
            cases hv
        apply (ih hwe hg'' (hext.trans hx'')).mono
        exact fun _ _ _ _ h => ⟨h, fun hne => absurd hv hne⟩
    apply hask.bind
    intro zs g₁ hg₁ _ hzs
    have hconst : ∀ c ∈ xs ++ ys, g.value? c ≠ none := fun c hc => by
      rw [hq c hc]
      exact Option.some_ne_none _
    apply (hE.build (combineFactors_combined hg₁ hconst hzs)).mono
    exact fun _ _ _ _ h => ⟨h.elementary.lt_size, h⟩

end ExactAlgebra.Evaluation
