import ExactAlgebra.Proofs.Evaluation.Power
import ExactAlgebra.Proofs.Real.Collection
import ExactAlgebra.Proofs.Transform.Contract

/-!
Evaluation keeps real values. Roots are taken of factors and of bases of nested powers before the
signs of these are known, which is right because the base of an even root has no negative part.
-/

namespace ExactAlgebra

open ExactAlgebra.Graph (Measures AllMeasure MeasuresPower Overflow)

variable {ρ : String → Option Rat} {library : Library} {g g' : Graph} {depth : Nat}
variable {x y z b : NodeId} {u : Bool} {v w p : ℝ} {e : Rat} {xs ys : List NodeId} {ws : List ℝ}

namespace Graph

theorem MeasuresPower.of_unsigned (hu : evenRoot e = true → u = true) (h : Measures ρ [] g u x w)
    (hw : w ≠ 0 ∨ 0 < e) : MeasuresPower ρ g u x e (realPower w e) := by
  refine ⟨w, h.mono fun hor => ?_, hw, rfl⟩
  rw [Bool.or_eq_true] at hor
  exact hor.elim id hu

/-- Raising a power multiplies the exponents. -/
theorem MeasuresPower.nested (h : MeasuresPower ρ g u x e p) (hs : g.shape x = .power)
    (hops : g.operands x = [b, y]) :
    ∃ e' : Rat, Measures ρ [] g false y e' ∧ MeasuresPower ρ g u b (e * e') p := by
  obtain ⟨w, hw, hw0, rfl⟩ := h.exists_base
  obtain ⟨e', w', hy, hb, hw0', rfl⟩ := hw.power_operands hs hops
  have hpos : w' ≠ 0 ∨ 0 < e' ∧ 0 < e := by
    by_cases hz : w' = 0
    · have he' := hw0'.resolve_left (not_not.2 hz)
      rw [hz, zero_realPower he'.ne'] at hw0
      exact .inr ⟨he', hw0.resolve_left (not_not.2 rfl)⟩
    · exact .inl hz
  have hbase : Measures ρ [] g (u || evenRoot e) b w' := hb.mono fun h => by
    rw [h, Bool.true_or]
  refine ⟨e', hy, w', hb.mono fun hor => ?_, hpos.imp_right fun h => mul_pos h.2 h.1, ?_⟩
  · rw [Bool.or_eq_true] at hor
    rw [Bool.or_eq_true, Bool.or_eq_true]
    exact hor.elim (fun hu => .inl (.inl hu)) fun h => (evenRoot_mul h).imp_left .inr
  · rw [mul_comm, realPower_mul hb.rootable hbase.rootable hpos]

end Graph

namespace Evaluation

/-- Only nodes with real values are asked for, and they keep them. -/
def keepsMeasures (ρ : String → Option Rat) : Contract where
  Frame := Graph.Extends
  Asks _ g x := ∃ u v, Measures ρ [] g u x v
  Answers g x y := ∀ u v, Measures ρ [] g u x v → Measures ρ [] g u y v
  Below _ _ _ := True
  Fails e g := Overflow e g ∨ e = .depthExhausted
  frame_refl := .refl
  frame_of_growsTo _ h := h.toExtends
  frame_trans h h' := h.trans h'
  frame_lt_size h hx := h.lt_size hx
  answers_frame hg hf hx _ h u v hv := (h u v ((hf.measures_iff hg hx).1 hv)).extends hf
  below_frame _ _ _ _ _ := trivial
  below_trans _ _ := trivial
  answers_self _ _ _ _ hv := hv
  fails_outside h hx := absurd h.choose_spec.choose_spec.lt_size hx
  fails_exhausted _ := .inr rfl

abbrev KeepsMeasures (ρ : String → Option Rat) (depth : Nat) (z : NodeId) {α : Type}
    (m : Evaluating α) (g : Graph) (Q : α → Graph → Prop) : Prop :=
  m.Meets (keepsMeasures ρ) depth z g Q

theorem build_keepsMeasures {α : Type} {m : Build α} {Q : α → Graph → Prop}
    (h : Graph.Meets Overflow m g Q) : KeepsMeasures ρ depth z (Dialogue.build m) g Q :=
  .build (h.mono_error fun _ _ he => Or.inl he)

theorem ask_measures (hg : g.WellFormed) (h : Measures ρ [] g u x v) :
    KeepsMeasures ρ depth z (Dialogue.ask x) g fun y g' => Measures ρ [] g' u y v := by
  have hask : KeepsMeasures ρ depth z (Dialogue.ask x) g _ :=
    Dialogue.Meets.ask hg ⟨u, v, h⟩ fun _ => trivial
  exact hask.mono fun y g' _ hx hy => hy.2.2 u v (h.extends hx)

theorem foldPower_measures (hg : g.WellFormed) (hx : MeasuresPower ρ g u x e p)
    (hy : Measures ρ [] g false y e) :
    Graph.Meets Overflow (foldPower x y) g fun r g' => Measures ρ [] g' u r p := by
  obtain ⟨w, hw, hw0, hp⟩ := hx.exists_base
  have he : ∀ {q}, g.value? y = some q → e = q := fun h => Rat.cast_inj.1 (hy.of_value? h).1
  rw [foldPower_eq]
  refine Graph.Meets.get (.ite (fun h => ?_) fun _ => .ite (fun h => ?_) fun _ =>
    .ite (fun h => ?_) fun _ => .ite (fun h => ?_) fun _ => ?_)
  · have hzero := hw.eq_zero h
    rw [hp, hzero, zero_realPower (hw0.resolve_left (not_not.2 hzero)).ne']
    exact .pure hg hg.measures_zero
  · rw [hp, hw.eq_one h, one_realPower]
    exact .pure hg hg.measures_one
  · obtain rfl := he h
    rw [hx.zero_exponent]
    exact .pure hg hg.measures_one
  · obtain rfl := he h
    exact .pure hg (MeasuresPower.one_iff.1 hx)
  · split
    · next q hq =>
      obtain ⟨b, hb, e', hy', hq⟩ : ∃ b, g.value? x = some b ∧ ∃ e', g.value? y = some e' ∧
          (Rational.power b e').toOption.join = some q := by
        simpa only [foldedPower?, Option.bind_eq_bind, Option.bind_eq_some_iff] using hq
      obtain rfl := he hy'
      obtain ⟨rfl, hn⟩ := hx.exact hb hq
      exact Graph.constant_measures ρ hg hn
    · exact Graph.power_measures hg hx hy

theorem prod_map_realPower (ws : List ℝ) (e : Rat) :
    (ws.map (realPower · e)).prod = realPower ws.prod e := by
  induction ws with
  | nil => exact (one_realPower e).symm
  | cons w ws ih => rw [List.map_cons, List.prod_cons, List.prod_cons, ih, mul_realPower]

theorem powerOfProduct_measures (hg : g.WellFormed) (hu : evenRoot e = true → u = true)
    (hxs : AllMeasure ρ [] g u xs ws) (hws : ws.prod ≠ 0 ∨ 0 < e)
    (hy : Measures ρ [] g false y e) :
    Graph.Meets Overflow (powerOfProduct xs y) g fun r g' =>
      Measures ρ [] g' u r (realPower ws.prod e) := by
  have hmap : Graph.Meets Overflow (xs.mapM (Graph.power · y)) g fun ys g' =>
      AllMeasure ρ [] g' u ys (ws.map (realPower · e)) := by
    apply Graph.mapM_values (V := fun g => Measures ρ [] g u)
      (fun _ _ _ _ _ hx h => Measures.extends h hx) hg hxs
    intro g' x w hg' hext hw hx
    apply Graph.power_measures hg' (.of_unsigned hu hx _) (hy.extends hext)
    exact hws.imp_left fun hne h0 => hne (List.prod_eq_zero (h0 ▸ hw))
  refine hmap.bind fun ys g' hg' _ hys => ?_
  rw [← prod_map_realPower]
  exact Graph.product_measures hg' hys

theorem power_measures (hg : g.WellFormed) (hx : MeasuresPower ρ g u x e p)
    (hy : Measures ρ [] g false y e) :
    KeepsMeasures ρ depth z (power x y) g fun r g' => Measures ρ [] g' u r p := by
  obtain ⟨w, hw, hw0, rfl⟩ := hx.exists_base
  refine (ask_measures hg hw).bind fun l g₁ hg₁ hext₁ hl => Dialogue.Meets.graph ?_
  have hy := hy.extends hext₁
  split
  · next ho =>
    obtain ⟨ws, hws, rfl⟩ := hl.product_operands (Graph.isOpenProduct_iff.1 ho).1
    have hu : evenRoot e = true → (u || evenRoot e) = true := fun h => by rw [h, Bool.or_true]
    have hmono : u = true → (u || evenRoot e) = true := fun h => by rw [h, Bool.true_or]
    refine (build_keepsMeasures (powerOfProduct_measures hg₁ hu hws hw0 hy)).bind
      fun q g₂ hg₂ _ hq => ?_
    exact ask_measures hg₂ (hq.mono hmono)
  · have hpower : MeasuresPower ρ g₁ u l e (realPower w e) := ⟨w, hl, hw0, rfl⟩
    refine (ask_measures hg₁ hy).bind fun r g₂ hg₂ hext₂ hr => ?_
    split
    · next l' r' ho hops =>
      obtain ⟨hs, -⟩ := Graph.isOpenPower_iff.1 ho
      obtain ⟨e', he', hbase⟩ := hpower.nested hs hops
      have hpair : AllMeasure ρ [] g₂ false [r, r'] [(e : ℝ), (e' : ℝ)] :=
        .cons hr (.cons (he'.extends hext₂) .nil)
      refine (build_keepsMeasures (Graph.product_measures hg₂ hpair)).bind
        fun q g₃ hg₃ hext₃ hq => ?_
      refine (ask_measures hg₃ hq).bind fun q' g₄ hg₄ hext₄ hq' => ?_
      rw [List.prod_pair, ← Rat.cast_mul] at hq'
      apply build_keepsMeasures
      exact foldPower_measures hg₄ (hbase.extends (hext₂.trans (hext₃.trans hext₄))) hq'
    · next ho hne =>
      obtain ⟨l', r', hops⟩ := hg₁.exists_operands_pair (Graph.isOpenPower_iff.1 ho).1 fun _ => id
      exact (hne l' r' hops).elim
    · exact build_keepsMeasures (foldPower_measures hg₂ (hpower.extends hext₂) hr)

/-! ### All rules -/

end Evaluation

end ExactAlgebra
