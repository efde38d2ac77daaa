import ExactAlgebra.Collection.Terms
import ExactAlgebra.Proofs.Collection.Reading
import ExactAlgebra.Proofs.Collection.Weights

/-!
Combining like terms keeps values: coefficients and bare terms that were read always stand for the
sum of what was read.
-/

namespace ExactAlgebra.Graph

variable {K : Type} [Field K] [CharZero K] {R : Reading K} {g g' : Graph} {x : NodeId} {q : Rat}
variable {v w : K} {xs : List NodeId} {vs : List K} {es : List (NodeId × Rat)}

theorem mapM_values {α : Type} {E : Error → Graph → Prop} {V : Graph → NodeId → α → Prop}
    {f : NodeId → Build NodeId} {φ : α → α} {vs : List α}
    (hV : ∀ g g' x v, g.WellFormed → g.Extends g' → V g x v → V g' x v) (hg : g.WellFormed)
    (hxs : List.Forall₂ (V g) xs vs)
    (hf : ∀ g' x v, g'.WellFormed → g.Extends g' → v ∈ vs → V g' x v →
      Meets E (f x) g' fun y g'' => V g'' y (φ v)) :
    Meets E (xs.mapM f) g fun ys g' => List.Forall₂ (V g') ys (vs.map φ) := by
  induction xs generalizing g vs with
  | nil =>
    obtain rfl := List.forall₂_nil_left_iff.1 hxs
    exact .pure hg .nil
  | cons x xs ih =>
    obtain ⟨v, vs, hv, hvs, rfl⟩ := List.forall₂_cons_left_iff.1 hxs
    rw [List.mapM_cons]
    apply (hf g x v hg (.refl g) (by simp) hv).bind
    intro y g' hg' hext hy
    have hvs' : List.Forall₂ (V g') xs vs := hvs.imp fun x v => hV g g' x v hg hext
    have hrest := ih hg' hvs' fun g'' z w hg'' hext' hw =>
      hf g'' z w hg'' (hext.trans hext') (List.mem_cons_of_mem _ hw)
    apply hrest.bind
    intro ys g'' hg'' hext' hys
    exact .pure hg'' (.cons (hV g' g'' y _ hg' hext' hy) hys)

theorem checked_meets (hg : g.WellFormed) (hx : x < g.size) :
    Meets Overflow (checked x) g fun y g' => y = x ∧ g' = g := by
  apply Meets.get
  apply Meets.ite
  · exact fun _ => .pure hg ⟨rfl, rfl⟩
  · exact fun hc => absurd (decide_eq_true hx) hc

/-! ### Coefficients -/

theorem splitFactors_values (hR : R.Lawful) (h : R.Values g xs vs) {rest : List NodeId}
    (hs : g.splitFactors xs = some (q, rest)) :
    ∃ ws, R.Values g rest ws ∧ vs.prod = q * ws.prod ∧ R.Admits q := by
  induction h generalizing rest with
  | nil => cases hs
  | @cons x v xs vs hv hvs ih =>
    rw [splitFactors] at hs
    cases hx : g.value? x with
    | some p =>
      rw [hx] at hs
      cases hs
      obtain ⟨rfl, hq⟩ := hR.of_value? hv hx
      exact ⟨vs, hvs, List.prod_cons, hq⟩
    | none =>
      rw [hx] at hs
      obtain ⟨⟨p, rest'⟩, hs', he⟩ := Option.map_eq_some_iff.1 hs
      cases he
      obtain ⟨ws, hws, hprod, hq⟩ := ih hs'
      refine ⟨v :: ws, .cons hv hws, ?_, hq⟩
      rw [List.prod_cons, List.prod_cons, hprod, mul_left_comm]

theorem extractCoefficient_values (hR : R.Lawful) (hg : g.WellFormed) (h : R.Value g x v) :
    Meets Overflow (extractCoefficient x) g fun r g' =>
      ∃ w, R.Value g' r.2 w ∧ v = r.1 * w ∧ R.Admits r.1 := by
  apply Meets.get
  cases hs : g.splitFactors (g.factors x) with
  | none => exact .pure hg ⟨v, h, by rw [Rat.cast_one, one_mul], hR.admits_one⟩
  | some r =>
    obtain ⟨q, rest⟩ := r
    obtain ⟨vs, hvs, rfl⟩ := hR.factors h
    obtain ⟨ws, hws, hprod, hq⟩ := splitFactors_values hR hvs hs
    apply (hR.product hg hws).bind
    intro y g' hg' _ hy
    exact .pure hg' ⟨_, hy, hprod, hq⟩

theorem scaleTerm_values (hR : R.Lawful) (hg : g.WellFormed) {c : Rat} (hc : R.Admits c)
    (h : R.Value g x v) :
    Meets Overflow (scaleTerm c x) g fun y g' => R.Value g' y (c * v) := by
  apply Meets.get
  cases hx : g.value? x with
  | some q =>
    obtain ⟨rfl, hq⟩ := hR.of_value? h hx
    rw [← Rat.cast_mul, mul_comm c q]
    exact hR.constant hg (hR.admits_mul hq hc)
  | none =>
    apply (extractCoefficient_values hR hg h).bind
    intro r g' hg' hext hr
    obtain ⟨w, hw, rfl, hq⟩ := hr
    apply (hR.constant hg' (hR.admits_mul hq hc)).bind
    intro y g'' hg'' hext' hy
    have hpair : R.Values g'' [y, r.2] [((r.1 * c : Rat) : K), w] :=
      .cons hy (.cons (hR.extends_value hg' hext' hw) .nil)
    apply (hR.product hg'' hpair).mono
    intro z g₃ _ _ hz
    rw [List.prod_pair, Rat.cast_mul] at hz
    rwa [show (c : K) * (r.1 * w) = r.1 * c * w by ring]

theorem scaleSum_values (hR : R.Lawful) (hg : g.WellFormed) {c : Rat} (hc : R.Admits c)
    (h : R.Value g x v) :
    Meets Overflow (scaleSum c x) g fun y g' => R.Value g' y (c * v) := by
  apply Meets.get
  obtain ⟨vs, hvs, rfl⟩ := hR.terms h
  have hmap := mapM_values (V := R.Value) (φ := (c * ·))
    (fun _ _ _ _ hg hx h => hR.extends_value hg hx h) hg hvs
    fun g' y w hg' _ _ hy => scaleTerm_values hR hg' hc hy
  apply hmap.bind
  intro ys g' hg' _ hys
  apply (hR.sum hg' hys).mono
  intro z g'' _ _ hz
  rwa [List.sum_map_mul_left, List.map_id'] at hz

/-! ### Reading terms -/

/-- The sum of bare terms, each times its coefficient, is `v`. -/
inductive Weighted (R : Reading K) (g : Graph) : List (NodeId × Rat) → K → Prop
  | nil : Weighted R g [] 0
  | cons {x : NodeId} {v w : K} {q : Rat} {es : List (NodeId × Rat)} (hq : R.Admits q)
      (hv : R.Value g x v) (hes : Weighted R g es w) : Weighted R g ((x, q) :: es) (q * v + w)

theorem Weighted.extends (hR : R.Lawful) (h : Weighted R g es v) (hg : g.WellFormed)
    (hx : g.Extends g') : Weighted R g' es v := by
  induction h with
  | nil => exact .nil
  | cons hq hv _ ih => exact .cons hq (hR.extends_value hg hx hv) ih

theorem Weighted.add (hR : R.Lawful) (h : Weighted R g es w) (hx : R.Value g x v)
    (hq : R.Admits q) :
    Weighted R g ((⟨es⟩ : Weights NodeId).add x q).entries (q * v + w) := by
  induction h with
  | nil =>
    rw [Weights.add_nil]
    exact .cons hq hx .nil
  | @cons y u w p es hp hu hes ih =>
    by_cases hy : y = x
    · subst hy
      obtain rfl := hR.unique hu hx
      rw [Weights.add_cons_self, ← add_assoc, ← add_mul, add_comm (q : K), ← Rat.cast_add]
      exact .cons (hR.admits_add hp hq) hx hes
    · rw [Weights.add_cons_ne hy, add_left_comm]
      exact .cons hp hu ih

/-- What was read adds up to `v`. -/
structure Terms.Denotes (R : Reading K) (g : Graph) (ts : Terms) (v : K) : Prop where
  bare : Weighted R g ts.bare.entries (v - ts.constant)
  constant : R.Admits ts.constant

theorem Terms.Denotes.extends {ts : Terms} (hR : R.Lawful) (h : ts.Denotes R g v)
    (hg : g.WellFormed) (hx : g.Extends g') : ts.Denotes R g' v :=
  ⟨h.bare.extends hR hg hx, h.constant⟩

theorem Terms.read_values {ts : Terms} (hR : R.Lawful) (hg : g.WellFormed)
    (hts : ts.Denotes R g v) (hx : R.Value g x w) :
    Meets Overflow (ts.read x) g fun ts' g' => ts'.Denotes R g' (w + v) := by
  apply Meets.get
  cases hq : g.value? x with
  | some q =>
    obtain ⟨rfl, hadmits⟩ := hR.of_value? hx hq
    apply Meets.pure hg
    constructor
    · have hv : (q : K) + v - ((ts.constant + q : Rat) : K) = v - ts.constant := by
        push_cast
        ring
      rw [hv]
      exact hts.bare
    · exact hR.admits_add hts.constant hadmits
  | none =>
    apply (extractCoefficient_values hR hg hx).bind
    intro r g' hg' hext hr
    obtain ⟨u, hu, rfl, hadmits⟩ := hr
    have hts' := hts.extends hR hg hext
    apply Meets.pure hg'
    constructor
    · rw [add_sub_assoc]
      exact hts'.bare.add hR hu hadmits
    · exact hts.constant

theorem Terms.foldlM_values {f : Terms → NodeId → Build Terms} (hR : R.Lawful)
    (hg : g.WellFormed)
    (hf : ∀ g ts x v w, g.WellFormed → ts.Denotes R g v → R.Value g x w →
      Meets Overflow (f ts x) g fun ts' g' => ts'.Denotes R g' (w + v))
    {ts : Terms} (hts : ts.Denotes R g v) (hxs : R.Values g xs vs) :
    Meets Overflow (xs.foldlM f ts) g fun ts' g' => ts'.Denotes R g' (vs.sum + v) := by
  induction xs generalizing g ts v vs with
  | nil =>
    obtain rfl := List.forall₂_nil_left_iff.1 hxs
    rw [List.sum_nil, zero_add]
    exact .pure hg hts
  | cons x xs ih =>
    obtain ⟨w, ws, hw, hws, rfl⟩ := List.forall₂_cons_left_iff.1 hxs
    rw [List.foldlM_cons, List.sum_cons]
    apply (hf g ts x v w hg hts hw).bind
    intro ts' g' hg' hext hts'
    apply (ih hg' hts' (hws.imp fun _ _ => hR.extends_value hg hext)).mono
    intro ts'' g'' _ _ h
    rwa [show w + ws.sum + v = ws.sum + (w + v) by ring]

theorem Terms.readAddend_values {ts : Terms} (hR : R.Lawful) (hg : g.WellFormed)
    (hts : ts.Denotes R g v) (hx : R.Value g x w) :
    Meets Overflow (ts.readAddend x) g fun ts' g' => ts'.Denotes R g' (w + v) := by
  apply Meets.get
  obtain ⟨ws, hws, rfl⟩ := hR.terms hx
  exact Terms.foldlM_values hR hg (fun _ _ _ _ _ hg hts hx => read_values hR hg hts hx) hts hws

/-! ### Building the sum -/

theorem weightedTerm?_values (hR : R.Lawful) (hg : g.WellFormed) (hx : R.Value g x v)
    (hq : R.Admits q) :
    Meets Overflow (weightedTerm? (x, q)) g fun r g' =>
      (r = none ∧ (q : K) * v = 0) ∨ ∃ y, r = some y ∧ R.Value g' y (q * v) := by
  unfold weightedTerm?
  apply Meets.ite
  · intro h0
    have h0 : q = 0 := h0
    exact .pure hg (.inl ⟨rfl, by rw [h0, Rat.cast_zero, zero_mul]⟩)
  intro _
  apply (checked_meets hg (hR.lt_size hx)).bind
  intro y g' hg' _ hy
  obtain ⟨rfl, rfl⟩ := hy
  apply Meets.ite
  · intro h1
    have h1 : q = 1 := h1
    exact .pure hg' (.inr ⟨y, rfl, by rwa [h1, Rat.cast_one, one_mul]⟩)
  intro _
  apply (hR.constant hg' hq).bind
  intro z g'' hg'' hext hz
  have hpair : R.Values g'' [y, z] [v, (q : K)] :=
    .cons (hR.extends_value hg' hext hx) (.cons hz .nil)
  apply (hR.product hg'' hpair).bind
  intro y' g₃ hg₃ _ hy'
  rw [List.prod_pair, mul_comm] at hy'
  exact .pure hg₃ (.inr ⟨y', rfl, hy'⟩)

theorem filterMapM_weightedTerm? (hR : R.Lawful) (hg : g.WellFormed) (h : Weighted R g es v) :
    Meets Overflow (es.filterMapM weightedTerm?) g fun xs g' =>
      ∃ vs, R.Values g' xs vs ∧ vs.sum = v := by
  induction es generalizing g v with
  | nil =>
    cases h
    exact .pure hg ⟨[], .nil, rfl⟩
  | cons e es ih =>
    cases h with
    | @cons x u w q _ hq hu hes =>
      rw [List.filterMapM_cons]
      apply (weightedTerm?_values hR hg hu hq).bind
      intro r g' hg' hext hr
      have hrest := ih hg' (hes.extends hR hg hext)
      rcases hr with ⟨rfl, h0⟩ | ⟨y, rfl, hy⟩
      · rw [h0, zero_add]
        exact hrest
      · apply hrest.bind
        intro xs g'' hg'' hext' hxs
        obtain ⟨vs, hvs, rfl⟩ := hxs
        exact .pure hg'' ⟨_ :: vs, .cons (hR.extends_value hg' hext' hy) hvs, List.sum_cons⟩

theorem Terms.emit_values {ts : Terms} (hR : R.Lawful) (hg : g.WellFormed)
    (hts : ts.Denotes R g v) : Meets Overflow ts.emit g fun y g' => R.Value g' y v := by
  obtain ⟨hbare, hconstant⟩ := hts
  have hrest : ∀ (all : Weights NodeId) (g' : Graph), g'.WellFormed → Weighted R g' all.entries v →
      Meets Overflow (do sum (← all.entries.filterMapM weightedTerm?)) g' fun y g'' =>
        R.Value g'' y v := by
    intro all g' hg' h
    apply (filterMapM_weightedTerm? hR hg' h).bind
    intro xs g'' hg'' _ hxs
    obtain ⟨vs, hvs, rfl⟩ := hxs
    exact hR.sum hg'' hvs
  unfold Terms.emit
  apply Meets.ite
  · intro h0
    rw [h0, Rat.cast_zero, sub_zero] at hbare
    exact hrest ts.bare g hg hbare
  · intro _
    apply (hR.constant hg hconstant).bind
    intro c g' hg' hext hc
    have hadd := (hbare.extends hR hg hext).add hR hc hR.admits_one
    rw [Rat.cast_one, one_mul, add_sub_cancel] at hadd
    exact hrest _ g' hg' hadd

/-- The value of a sum is not changed by combining like terms. -/
theorem combineTerms_values (hR : R.Lawful) (hg : g.WellFormed) (hxs : R.Values g xs vs) :
    Meets Overflow (combineTerms xs) g fun y g' => R.Value g' y vs.sum := by
  have hnil : Terms.Denotes R g {} 0 := by
    constructor
    · rw [Rat.cast_zero, sub_zero]
      exact .nil
    · exact hR.admits_zero
  apply (Terms.foldlM_values hR hg
    (fun _ _ _ _ _ hg hts hx => Terms.readAddend_values hR hg hts hx) hnil hxs).bind
  intro ts g' hg' _ hts
  rw [add_zero] at hts
  exact Terms.emit_values hR hg' hts

end ExactAlgebra.Graph
