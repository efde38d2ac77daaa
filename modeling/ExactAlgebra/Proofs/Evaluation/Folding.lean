import ExactAlgebra.Proofs.Collection.Light
import ExactAlgebra.Proofs.Collection.Totals
import ExactAlgebra.Proofs.Evaluation.Power
import ExactAlgebra.Proofs.Rational.Roots

/-!
Constants are folded wherever they meet: no relation, no negation and no power is left that is
decided by constants. Powers at the limit of exponents are the exception. A product folds its
constant factors first, and then puts what they come to among the others; there it may meet its own
power, whose exponent has been too large until then.
-/

namespace ExactAlgebra

/-- The power of a constant that may be left: it has no exact value, or its exponent was too large
before one was added to it. -/
def Rational.Stands (b e : Rat) : Prop :=
  Inexact b e ∨ e.num < e.den - (exponentLimit : Int)

/-- The shapes under which constants are not folded. -/
def Shape.IsInert : Shape → Prop
  | .power | .binary _ | .unary _ => False
  | _ => True

namespace Graph

variable {g g' : Graph} {x y z l r b e f : NodeId} {q : Rat} {xs : List NodeId}
variable {P : NodeId → Prop} {fs : Factors} {ws : Weights NodeId}

/-- No constants are left to fold in a node. -/
structure Unfoldable (g : Graph) (z : NodeId) : Prop where
  power : ∀ b e p q, g.shape z = .power → g.operands z = [b, e] → g.value? b = some p →
    g.value? e = some q → Rational.Stands p q
  binary : ∀ op l r, g.shape z = .binary op → g.operands z = [l, r] →
    Evaluation.binaryOutcome? op l r (g.value? l) (g.value? r) = none
  negation : ∀ y, g.shape z = .unary .negation → g.operands z = [y] → g.value? y = none

/-- No constants are left to fold in an expression. -/
inductive Folded (g : Graph) : NodeId → Prop
  | constant {x : NodeId} {q : Rat} (h : g.value? x = some q) : Folded g x
  | node {x : NodeId} (hx : g.Unfoldable x) (hops : ∀ y ∈ g.operands x, Folded g y) : Folded g x

theorem unfoldable_of_isInert (h : (g.shape x).IsInert) : g.Unfoldable x := by
  constructor
  · intro b e p q hs
    rw [hs] at h
    exact h.elim
  · intro op l r hs
    rw [hs] at h
    exact h.elim
  · intro y hs
    rw [hs] at h
    exact h.elim

theorem unfoldable_of_binary {op : Operator}
    (hn : g.node x = { shape := .binary op, operands := [l, r] })
    (ho : Evaluation.binaryOutcome? op l r (g.value? l) (g.value? r) = none) : g.Unfoldable x := by
  constructor <;> rw [shape, operands, hn]
  · intro b e p q hs
    cases hs
  · rintro _ _ _ ⟨⟩ ⟨⟩
    exact ho
  · intro y hs
    cases hs

theorem unfoldable_of_unary {op : Operator}
    (hn : g.node x = { shape := .unary op, operands := [y] })
    (hv : op = .negation → g.value? y = none) : g.Unfoldable x := by
  constructor <;> rw [shape, operands, hn]
  · intro b e p q hs
    cases hs
  · intro op l r hs
    cases hs
  · rintro _ ⟨⟩ ⟨⟩
    exact hv rfl

namespace Folded

theorem unfoldable (h : g.Folded x) : g.Unfoldable x := by
  cases h with
  | constant hv =>
    apply unfoldable_of_isInert
    rw [value?_eq_some.1 hv]
    trivial
  | node hx _ => exact hx

theorem operands (h : g.Folded x) (hg : g.WellFormed) : ∀ y ∈ g.operands x, g.Folded y := by
  cases h with
  | constant hv =>
    have harity := hg.arity x
    rw [value?_eq_some.1 hv] at harity
    rw [List.length_eq_zero_iff.1 harity]
    exact fun y hy => absurd hy List.not_mem_nil
  | node _ hops => exact hops

theorem terms (h : g.Folded x) (hg : g.WellFormed) : ∀ y ∈ g.terms x, g.Folded y := by
  intro y hy
  rw [Graph.terms] at hy
  split at hy
  · exact h.operands hg y hy
  · exact List.mem_singleton.1 hy ▸ h

theorem factors (h : g.Folded x) (hg : g.WellFormed) : ∀ y ∈ g.factors x, g.Folded y := by
  intro y hy
  rw [Graph.factors] at hy
  split at hy
  · exact h.operands hg y hy
  · exact List.mem_singleton.1 hy ▸ h

end Folded

theorem WellFormed.folded_zero (hg : g.WellFormed) : g.Folded zero :=
  .constant (value?_eq_some.2 (congrArg Node.shape hg.node_zero))

theorem WellFormed.folded_one (hg : g.WellFormed) : g.Folded one :=
  .constant (value?_eq_some.2 (congrArg Node.shape hg.node_one))

/-! ### Graphs that agree -/

theorem Agree.unfoldable (ha : Agree P g g') (h : g.Unfoldable x) (hx : P x) :
    g'.Unfoldable x := by
  have hP := ha.operands x hx
  constructor <;> rw [ha.shape_eq hx, ha.operands_eq hx]
  · intro b e p q hs hops hp hq
    rw [hops] at hP
    rw [ha.value?_eq (hP b (by simp))] at hp
    rw [ha.value?_eq (hP e (by simp))] at hq
    exact h.power b e p q hs hops hp hq
  · intro op l r hs hops
    rw [hops] at hP
    rw [ha.value?_eq (hP l (by simp)), ha.value?_eq (hP r (by simp))]
    exact h.binary op l r hs hops
  · intro y hs hops
    rw [hops] at hP
    rw [ha.value?_eq (hP y (by simp))]
    exact h.negation y hs hops

theorem Agree.folded (ha : Agree P g g') (h : g.Folded x) (hx : P x) : g'.Folded x := by
  induction h with
  | constant hv => exact .constant ((ha.value?_eq hx).trans hv)
  | @node x hu _ ih =>
    refine .node (ha.unfoldable hu hx) ?_
    rw [ha.operands_eq hx]
    exact fun y hy => ih y hy (ha.operands x hx y hy)

theorem Extends.folded (hx : g.Extends g') (hg : g.WellFormed) (hlt : x < g.size)
    (h : g.Folded x) : g'.Folded x := (hx.agree hg).folded h hlt

/-! ### Terms -/

theorem folded_of_isInert (hs : (g.shape x).IsInert) (h : ∀ y ∈ g.operands x, g.Folded y) :
    g.Folded x := .node (unfoldable_of_isInert hs) h

theorem folded_of_factors (h : ∀ f ∈ g.factors x, g.Folded f) : g.Folded x := by
  rw [factors] at h
  split at h
  · next ho =>
    refine folded_of_isInert ?_ h
    rw [(isOpenProduct_iff.1 ho).1]
    trivial
  · exact h x (List.mem_singleton.2 rfl)

theorem folded_of_terms (h : ∀ t ∈ g.terms x, g.Folded t) : g.Folded x := by
  rw [terms] at h
  split at h
  · next ho =>
    refine folded_of_isInert ?_ h
    rw [(isOpenSum_iff.1 ho).1]
    trivial
  · exact h x (List.mem_singleton.2 rfl)

/-- The expressions in which no constants are left to fold. -/
def foldedStable : Stable where
  Holds := Folded
  of_extends hg hx hlt h := hx.folded hg hlt h
  of_value? := .constant

theorem Folded.overTerms (h : g.Folded x) (hg : g.WellFormed) : OverTerms foldedStable g x :=
  fun t ht => (h.terms hg t ht).factors hg

theorem OverTerms.folded (h : OverTerms foldedStable g x) : g.Folded x :=
  folded_of_terms fun t ht => folded_of_factors (h t ht)

theorem combineTerms_folded (hg : g.WellFormed) (hxs : ∀ x ∈ xs, g.Collected x)
    (hf : ∀ x ∈ xs, g.Folded x) :
    Meets Overflow (combineTerms xs) g fun z g' => g'.Folded z :=
  (combineTerms_collected hg fun x hx => ⟨hxs x hx, (hf x hx).overTerms hg⟩).mono
    fun _ _ _ _ h => h.2.folded

/-! ### Factors -/

/-- Bases in which no constants are left to fold. -/
def foldedScalable : Scalable where
  Holds := Folded
  of_extends hg hx hlt h := hx.folded hg hlt h
  scaled hg hx ho h hw :=
    (scaleSum_collected hg hx ho (h.overTerms hg) hw).mono fun _ _ _ _ hz => hz.2.2.1.folded

theorem Folded.overBases (h : g.Folded x) (hg : g.WellFormed) : OverBases foldedScalable g x := by
  intro f hf _
  have hf := h.factors hg f hf
  rw [baseOf]
  cases hp : g.constantPower? f with
  | none => exact hf
  | some r => exact hf.operands hg r.1 (constantPower?_mem_operands hp)

theorem folded_power (hx : g.shape x = .power) (hops : g.operands x = [b, e]) (hb : g.Folded b)
    (he : g.Folded e)
    (hs : ∀ p q, g.value? b = some p → g.value? e = some q → Rational.Stands p q) :
    g.Folded x := by
  refine .node ⟨?_, fun op l r hx' => ?_, fun y hx' => ?_⟩ ?_
  · intro b' e' p q _ hops'
    rw [hops] at hops'
    cases hops'
    exact hs p q
  · rw [hx] at hx'
    cases hx'
  · rw [hx] at hx'
    cases hx'
  · rw [hops]
    exact List.forall_mem_cons.2 ⟨hb, List.forall_mem_singleton.2 he⟩

/-- The powers of constants that the entries stand for may be left. -/
def Standing (g : Graph) (es : List (NodeId × Rat)) : Prop :=
  ∀ r ∈ es, ∀ p, g.value? r.1 = some p → r.2 = 1 ∨ Rational.Stands p r.2

theorem inexact_of_foldedValue? {p : Rat} (hp : g.value? x = some p)
    (h : foldedValue? g x q = none) : Rational.Inexact p q := by
  intro v hv
  rw [foldedValue?, hp] at h
  simp only at h
  split at h
  · next hzero =>
    have hneg : Rational.power 0 q = .ok (some v) := hzero.1 ▸ hv
    rw [Rational.power] at hneg
    split at hneg
    · cases hneg
    · rw [if_pos rfl, if_pos hzero.2] at hneg
      cases hneg
  · rw [hv] at h
    cases h

namespace Factors

theorem foldConstants_inexact (h : fs.exponents.Distinct) :
    ∀ r ∈ (fs.foldConstants g).exponents.entries, ∀ p, g.value? r.1 = some p →
      Rational.Inexact p r.2 := by
  rw [foldConstants_eq g h]
  intro r hr p hp
  exact inexact_of_foldedValue? hp (Option.isNone_iff_eq_none.1 (List.mem_filter.1 hr).2)

/-- The constant may raise the exponent of an equal base. That exponent was too large. -/
theorem placeConstant_standing {B : Scalable} (hg : g.WellFormed) (h : fs.Tidy B g)
    (hin : ∀ r ∈ fs.exponents.entries, ∀ p, g.value? r.1 = some p → Rational.Inexact p r.2)
    (hc : fs.constant ≠ 0) :
    Meets Overflow fs.placeConstant g fun ws g' => g'.Standing ws.entries := by
  have hlt : ∀ r ∈ fs.exponents.entries, r.1 < g.size := fun r hr =>
    (h.base r.1 (List.mem_map_of_mem hr)).collected.lt_size
  rw [placeConstant_eq hc]
  apply Meets.ite
  · exact fun _ => .pure hg fun r hr p hp => .inr (.inl (hin r hr p hp))
  intro _
  apply Meets.get
  cases hh : fs.hostSum? g with
  | some r =>
    obtain ⟨hmem, ho, he⟩ := hostSum?_eq_some hh
    have hx := (h.base r.1 (List.mem_map_of_mem hmem)).collected
    have hscaled := scaleSum_collected (F := .all) hg hx ho (fun _ _ _ _ => trivial)
      (scale_ne_zero (e := r.2) hc)
    apply hscaled.bind
    rintro z g' hg' hext ⟨-, hz, -⟩
    have hsub := fs.exponents.entries_erase_sublist r.1
    refine .pure hg' fun s hs p hp => .inr (.inl ?_)
    rcases Weights.mem_entries_add (h.distinct.of_sublist hsub) hs with ⟨-, hs⟩ | ⟨rfl, -⟩
    · rw [hext.value?_eq (hlt s (hsub.subset hs))] at hp
      exact hin s (hsub.subset hs) p hp
    · rw [value?_of_isOpenSum hz] at hp
      cases hp
  | none =>
    apply (constant_collected hg fs.constant).bind
    rintro c g' hg' hext ⟨-, hcv⟩
    refine .pure hg' fun s hs p hp => ?_
    have hweight := ((h.distinct.add c 1).mem_entries_iff.1 hs).2
    rw [Weights.weight_add] at hweight
    rcases Weights.mem_entries_add h.distinct hs with ⟨-, hs⟩ | ⟨rfl, -⟩
    · rw [hext.value?_eq (hlt s hs)] at hp
      exact .inr (.inl (hin s hs p hp))
    rw [if_pos rfl] at hweight
    rw [hcv] at hp
    obtain rfl := Option.some.inj hp
    by_cases hk : s.1 ∈ fs.exponents.keys
    · have hmem := (h.distinct.mem_entries_iff (r := (s.1, fs.exponents.weight s.1))).2 ⟨hk, rfl⟩
      rw [hext.value?_eq (hlt _ hmem)] at hcv
      rw [← hweight]
      exact .inr ((hin _ hmem _ hcv).add_one hc)
    · rw [Weights.weight_of_notMem hk, zero_add] at hweight
      exact .inl hweight.symm

end Factors

/-- What an entry becomes is folded, if its base is. -/
theorem Emitted.folded {r : NodeId × Rat} (h : Emitted g r z) (hr : g.Folded r.1)
    (hs : ∀ p, g.value? r.1 = some p → r.2 = 1 ∨ Rational.Stands p r.2) : g.Folded z := by
  rcases h.2 with ⟨-, rfl⟩ | ⟨h1, hp⟩
  · exact hr
  obtain ⟨hshape, -, c, hops, hc⟩ := constantPower?_eq_some (b := r.1) (e := r.2) hp
  refine folded_power hshape hops hr (.constant hc) fun p q hp hq => ?_
  obtain rfl := Option.some.inj (hc.symm.trans hq)
  exact (hs p hp).resolve_left h1

theorem product_folded (hg : g.WellFormed) (h : Placed foldedScalable g ws)
    (hs : g.Standing ws.entries) :
    Meets Overflow (do product (← ws.entries.filterMapM weightedFactor?)) g fun z g' =>
      g'.Folded z := by
  apply (product_emitted hg h).mono
  rintro z g' - hx ⟨hz, hentry⟩
  refine folded_of_factors fun f hf => ?_
  cases hv : g'.value? f with
  | some q => exact .constant hv
  | none =>
    obtain ⟨r, hr, hrf⟩ := hentry f hf hv
    have hlt := (h.collected r hr).lt_size
    have hbase : g.Folded r.1 := (h.holds r hr).elim id fun hc =>
      .constant (Option.ne_none_iff_exists'.1 hc.1).choose_spec
    refine hrf.folded (hx.folded hg hlt hbase) fun p hp => ?_
    rw [hx.value?_eq hlt] at hp
    exact hs r hr p hp

theorem combineFactors_folded (hg : g.WellFormed) (hxs : ∀ x ∈ xs, g.Collected x)
    (hf : ∀ x ∈ xs, g.Folded x) :
    Meets Overflow (combineFactors xs) g fun z g' => g'.Folded z := by
  apply Meets.get
  have hnil : Factors.Tidy foldedScalable g {} :=
    ⟨List.nodup_nil, fun _ hk => absurd hk List.not_mem_nil⟩
  have hread : Factors.Tidy foldedScalable g (xs.foldl (Factors.readFactor g) {}) :=
    hnil.foldl fun _ x hx h => h.readFactor (hxs x hx) ((hf x hx).overBases hg)
  obtain ⟨hfold, h1⟩ := hread.foldConstants
  rw [Factors.emit_eq]
  apply Meets.get
  apply Meets.ite
  · exact fun _ => .pure hg hg.folded_zero
  intro h0
  apply ((Factors.placeConstant_placed hg hfold h1 h0).and
    (Factors.placeConstant_standing hg hfold (Factors.foldConstants_inexact hread.distinct)
      h0)).bind
  rintro ws g' hg' - ⟨hplaced, hstanding⟩
  exact product_folded hg' hplaced hstanding

end Graph

namespace Evaluation

open ExactAlgebra.Graph (Meets Overflow)

variable {g : Graph} {l r : NodeId}

/-! ### Powers and logic -/

theorem inexact_of_foldedPower? {b e : Rat} (h : foldedPower? (some b) (some e) = none) :
    Rational.Inexact b e := by
  intro v hv
  have hsome : foldedPower? (some b) (some e) = some v := by
    simp only [foldedPower?, Option.bind_eq_bind, Option.bind_some, hv]
    rfl
  rw [hsome] at h
  cases h

theorem foldPower_folded (hg : g.WellFormed) (hl : l < g.size) (hr : r < g.size)
    (hlf : g.Folded l) (hrf : g.Folded r) :
    Meets Overflow (foldPower l r) g fun z g' => g'.Folded z := by
  rw [foldPower_eq]
  apply Meets.get
  apply Meets.ite (fun _ => .pure hg hg.folded_zero)
  intro _
  apply Meets.ite (fun _ => .pure hg hg.folded_one)
  intro _
  apply Meets.ite (fun _ => .pure hg hg.folded_one)
  intro _
  apply Meets.ite (fun _ => .pure hg hlf)
  intro _
  cases hv : foldedPower? (g.value? l) (g.value? r) with
  | some q => exact (Graph.constant_collected hg q).mono fun _ _ _ _ h => .constant h.2
  | none =>
    apply (Graph.power_meets hg hl hr).mono
    rintro z g' - hx (⟨-, rfl⟩ | ⟨-, -, hn⟩)
    · exact hx.folded hg hl hlf
    apply Graph.folded_power (congrArg Node.shape hn) (congrArg Node.operands hn)
      (hx.folded hg hl hlf) (hx.folded hg hr hrf)
    intro p q hp hq
    rw [hx.value?_eq hl] at hp
    rw [hx.value?_eq hr] at hq
    rw [hp, hq] at hv
    exact .inl (inexact_of_foldedPower? hv)

end Evaluation

end ExactAlgebra
