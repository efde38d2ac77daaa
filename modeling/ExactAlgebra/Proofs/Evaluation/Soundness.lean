import ExactAlgebra.Proofs.Collection.Values
import ExactAlgebra.Proofs.Evaluation.Power
import ExactAlgebra.Proofs.Transform.Contract
import ExactAlgebra.Proofs.Workspace.Evaluate

/-!
Evaluation keeps values: a node that has a value at a point is evaluated to a node that has the same
value there.
-/

namespace ExactAlgebra.Evaluation

open ExactAlgebra.Graph (AllDenote Overflow)

variable {M : Semantics} {library : Library} {g g' : Graph} {depth : Nat} {x y z : NodeId}
variable {v w : Rat} {xs ys : List NodeId} {vs : List Rat}

/-- Only nodes with values are asked for, and they keep them; nothing fails but for want of room. -/
def keepsValues (M : Semantics) : Contract where
  Frame := Graph.Extends
  Asks _ g x := ∃ v, g.Denotes M [] x v
  Answers g x y := ∀ v, g.Denotes M [] x v → g.Denotes M [] y v
  Below _ _ _ := True
  Fails e g := Overflow e g ∨ e = .depthExhausted
  frame_refl := .refl
  frame_of_growsTo _ h := h.toExtends
  frame_trans h h' := h.trans h'
  frame_lt_size h hx := h.lt_size hx
  answers_frame hg hf hx _ h v hv := (h v ((hf.denotes_iff hg hx).1 hv)).extends hg hf
  below_frame _ _ _ _ _ := trivial
  below_trans _ _ := trivial
  answers_self _ _ _ hv := hv
  fails_outside h hx := absurd h.choose_spec.lt_size hx
  fails_exhausted _ := .inr rfl

abbrev Keeps (M : Semantics) (depth : Nat) (z : NodeId) {α : Type} (m : Evaluating α) (g : Graph)
    (Q : α → Graph → Prop) : Prop :=
  m.Meets (keepsValues M) depth z g Q

theorem build_keeps {α : Type} {m : Build α} {Q : α → Graph → Prop}
    (h : Graph.Meets Overflow m g Q) : Keeps M depth z (Dialogue.build m) g Q :=
  .build (h.mono_error fun _ _ he => Or.inl he)

theorem ask_keeps (hg : g.WellFormed) (h : g.Denotes M [] x v) :
    Keeps M depth z (Dialogue.ask x) g fun y g' => g'.Denotes M [] y v := by
  have hask : Keeps M depth z (Dialogue.ask x) g _ := Dialogue.Meets.ask hg ⟨v, h⟩ fun _ => trivial
  refine hask.mono fun y g' _ hx hy => hy.2.2 v ?_
  exact Graph.Denotes.extends h hg hx

theorem askAll_keeps (hg : g.WellFormed) (h : g.AllDenote M xs vs) :
    Keeps M depth z (Dialogue.askAll xs) g fun ys g' => g'.AllDenote M ys vs := by
  induction xs generalizing g vs with
  | nil =>
    obtain rfl := List.forall₂_nil_left_iff.1 h
    exact .pure hg .nil
  | cons x xs ih =>
    obtain ⟨v, vs, hv, hvs, rfl⟩ := List.forall₂_cons_left_iff.1 h
    refine (ask_keeps hg hv).bind fun y g' hg' hx hy => ?_
    refine (ih hg' (AllDenote.extends hvs hg hx)).bind fun ys g'' hg'' hx' hys => .pure hg'' ?_
    exact .cons (Graph.Denotes.extends hy hg' hx') hys

theorem boolean_denotes (hg : g.WellFormed) (b : Bool) :
    g.Denotes M [] (Graph.boolean b) (truth b) := by
  cases b with
  | false => exact hg.denotes_zero
  | true => exact hg.denotes_one

theorem compareValues?_eq {op : Operator} {b : Bool} (h : compareValues? op v w = some b) :
    op.value? [v, w] = some (truth b) := by
  cases op <;> cases h <;> rfl

/-- A constant among the operands has the value that is used for it. -/
theorem value?_cases (hx : g.Denotes M [] x v) : g.value? x = some v ∨ g.value? x = none := by
  cases hq : g.value? x with
  | none => exact .inr rfl
  | some q =>
    obtain rfl := hx.eq_of_value? hq
    exact .inl rfl

theorem decide?_sound {op : Operator} {b : Bool} (hx : g.Denotes M [] x v)
    (hy : g.Denotes M [] y w) (h : decide? op x y (g.value? x) (g.value? y) = some b) :
    op.value? [v, w] = some (truth b) := by
  have hxy : x = y → v = w := by
    rintro rfl
    exact hx.unique hy
  cases op with
  | conjunction =>
    rcases value?_cases hx with hv | hv <;> rcases value?_cases hy with hw | hw <;>
      simp only [decide?, hv, hw, isFalse, isTrue] at h <;> grind [Operator.value?, truth]
  | disjunction =>
    rcases value?_cases hx with hv | hv <;> rcases value?_cases hy with hw | hw <;>
      simp only [decide?, hv, hw, isFalse, isTrue] at h <;> grind [Operator.value?, truth]
  | equal =>
    simp only [decide?] at h
    split at h
    · next he =>
      cases h
      simp only [Operator.value?, hxy he, decide_true]
    · cases h
  | notEqual =>
    simp only [decide?] at h
    split at h
    · next he =>
      cases h
      simp only [Operator.value?, hxy he, ne_eq, not_true, decide_false]
    · cases h
  | _ => cases h

/-- What is known of the operands fixes the value of an operator. -/
theorem binaryOutcome?_sound {op : Operator} {b : Bool} (hx : g.Denotes M [] x v)
    (hy : g.Denotes M [] y w) (h : binaryOutcome? op x y (g.value? x) (g.value? y) = some b) :
    op.value? [v, w] = some (truth b) := by
  rcases (Option.orElse_eq_some ..).1 h with h | ⟨-, h⟩
  · obtain ⟨v', hv, w', hw, h⟩ : ∃ v', g.value? x = some v' ∧ ∃ w', g.value? y = some w' ∧
        compareValues? op v' w' = some b := by
      simpa only [Option.bind_eq_bind, Option.bind_eq_some_iff] using h
    obtain rfl := hx.eq_of_value? hv
    obtain rfl := hy.eq_of_value? hw
    exact compareValues?_eq h
  · exact decide?_sound hx hy h

theorem binary_keeps {op : Operator} {p : Rat} (hg : g.WellFormed) (hx : g.Denotes M [] x v)
    (hy : g.Denotes M [] y w) (hp : op.value? [v, w] = some p) :
    Keeps M depth z (binary op x y) g fun r g' => g'.Denotes M [] r p := by
  refine (ask_keeps hg hx).bind fun l g₁ hg₁ hext₁ hl => ?_
  refine (ask_keeps hg₁ (Graph.Denotes.extends hy hg hext₁)).bind fun r g₂ hg₂ hext₂ hr => ?_
  have hl := Graph.Denotes.extends hl hg₁ hext₂
  have hop : op ≠ .substitution := by
    rintro rfl
    cases hp
  rw [if_neg hop]
  refine Dialogue.Meets.graph ?_
  cases ho : binaryOutcome? op l r (g₂.value? l) (g₂.value? r) with
  | some b =>
    have hb := binaryOutcome?_sound hl hr ho
    rw [hp] at hb
    cases hb
    exact .pure hg₂ (boolean_denotes hg₂ b)
  | none =>
    refine build_keeps ((Graph.binary_meets hg₂ op hl.lt_size hr.lt_size).mono ?_)
    intro y g₃ hg₃ hext₃ hy
    exact .node hy.1 hy.2 (AllDenote.pair (hl.extends hg₂ hext₃) (hr.extends hg₂ hext₃)) hp

theorem unary_keeps {op : Operator} {p : Rat} (hg : g.WellFormed) (hx : g.Denotes M [] x v)
    (hp : op.value? [v] = some p) :
    Keeps M depth z (unary op x) g fun r g' => g'.Denotes M [] r p := by
  refine (ask_keeps hg hx).bind fun l g₁ hg₁ hext₁ hl =>
    Dialogue.Meets.graph (.ite (fun hc => ?_) fun _ => ?_)
  · rw [Bool.and_eq_true, decide_eq_true_eq, Option.isSome_iff_exists] at hc
    obtain ⟨rfl, q, hq⟩ := hc
    obtain rfl := hl.eq_of_value? hq
    cases hp
    rw [hq]
    exact .pure hg₁ (boolean_denotes hg₁ _)
  · refine build_keeps ((Graph.unary_meets hg₁ op hl.lt_size).mono ?_)
    intro y g₂ hg₂ hext₂ hy
    exact .node hy.1 hy.2 (.singleton (hl.extends hg₁ hext₂)) hp

/-! ### Powers -/

theorem foldPower_denotes (hM : M.power = integerPower?) (hg : g.WellFormed)
    (hx : g.Denotes M [] x v) (hy : g.Denotes M [] y w) {p : Rat}
    (hp : integerPower? v w = some p) :
    Graph.Meets Overflow (foldPower x y) g fun r g' => g'.Denotes M [] r p := by
  have hone : ∀ b, M.power b 1 = some b := fun b => by rw [hM, integerPower?_one]
  obtain ⟨k, rfl, hk, rfl⟩ := integerPower?_eq_some.1 hp
  rw [foldPower_eq]
  refine Graph.Meets.get (.ite (fun h => ?_) fun _ => .ite (fun h => ?_) fun _ =>
    .ite (fun h => ?_) fun _ => .ite (fun h => ?_) fun _ => ?_)
  · obtain rfl := hx.eq_of_value? h
    have hpos := hk.resolve_left (not_not.2 rfl)
    rw [zero_zpow _ hpos.ne']
    exact .pure hg hg.denotes_zero
  · obtain rfl := hx.eq_of_value? h
    rw [one_zpow]
    exact .pure hg hg.denotes_one
  · obtain rfl : k = 0 := by exact_mod_cast hy.eq_of_value? h
    rw [zpow_zero]
    exact .pure hg hg.denotes_one
  · obtain rfl : k = 1 := by exact_mod_cast hy.eq_of_value? h
    rw [zpow_one]
    exact .pure hg hx
  · split
    · next q hq =>
      obtain ⟨b, hb, e, he, hq⟩ : ∃ b, g.value? x = some b ∧ ∃ e, g.value? y = some e ∧
          (Rational.power b e).toOption.join = some q := by
        simpa only [foldedPower?, Option.bind_eq_bind, Option.bind_eq_some_iff] using hq
      obtain rfl := hx.eq_of_value? hb
      obtain rfl := hy.eq_of_value? he
      rw [Graph.eq_of_power_eq_ok hp hq]
      exact Graph.constant_denotes M hg q
    · exact Graph.power_denotes hone hg hx hy (by rw [hM, hp])

theorem prod_map_zpow (vs : List Rat) (k : ℤ) : (vs.map (· ^ k)).prod = vs.prod ^ k := by
  induction vs with
  | nil => exact (one_zpow k).symm
  | cons v vs ih => rw [List.map_cons, List.prod_cons, List.prod_cons, ih, mul_zpow]

theorem powerOfProduct_denotes (hM : M.power = integerPower?) (hg : g.WellFormed)
    (hxs : g.AllDenote M xs vs) (hy : g.Denotes M [] y w) {p : Rat}
    (hp : integerPower? vs.prod w = some p) :
    Graph.Meets Overflow (powerOfProduct xs y) g fun r g' => g'.Denotes M [] r p := by
  have hone : ∀ b, M.power b 1 = some b := fun b => by rw [hM, integerPower?_one]
  obtain ⟨k, rfl, hk, rfl⟩ := integerPower?_eq_some.1 hp
  have hmap : Graph.Meets Overflow (xs.mapM (Graph.power · y)) g fun ys g' =>
      g'.AllDenote M ys (vs.map (· ^ k)) := by
    apply Graph.mapM_values (V := fun g x v => g.Denotes M [] x v)
      (fun _ _ _ _ hg hx h => Graph.Denotes.extends h hg hx) hg hxs
    intro g' x v hg' hext hv hx
    apply Graph.power_denotes hone hg' hx (hy.extends hg hext)
    rw [hM]
    refine integerPower?_eq_some.2 ⟨k, rfl, hk.imp_left fun hne h0 => hne ?_, rfl⟩
    exact List.prod_eq_zero (h0 ▸ hv)
  refine hmap.bind fun ys g' hg' _ hys => ?_
  rw [← prod_map_zpow]
  exact Graph.product_denotes hg' hys

theorem power_keeps (hM : M.power = integerPower?) (hg : g.WellFormed)
    (hx : g.Denotes M [] x v) (hy : g.Denotes M [] y w) {p : Rat}
    (hp : integerPower? v w = some p) :
    Keeps M depth z (power x y) g fun r g' => g'.Denotes M [] r p := by
  refine (ask_keeps hg hx).bind fun l g₁ hg₁ hext₁ hl => Dialogue.Meets.graph ?_
  have hy := Graph.Denotes.extends hy hg hext₁
  split
  · next ho =>
    obtain ⟨hs, -⟩ := Graph.isOpenProduct_iff.1 ho
    obtain ⟨-, vs, hvs, hv⟩ := hl.operands
    rw [hs] at hv
    cases hv
    refine (build_keeps (powerOfProduct_denotes hM hg₁ hvs hy hp)).bind fun q g₂ hg₂ _ hq => ?_
    exact ask_keeps hg₂ hq
  · refine (ask_keeps hg₁ hy).bind fun r g₂ hg₂ hext₂ hr => ?_
    split
    · next l' r' ho hops =>
      obtain ⟨hs, -⟩ := Graph.isOpenPower_iff.1 ho
      obtain ⟨b, e, hb, he, hbe⟩ := hl.power_operands hM hs hops
      have hpair := AllDenote.pair hr (Graph.Denotes.extends he hg₁ hext₂)
      refine (build_keeps (Graph.product_denotes hg₂ hpair)).bind fun q g₃ hg₃ hext₃ hq => ?_
      refine (ask_keeps hg₃ hq).bind fun q' g₄ hg₄ hext₄ hq' => ?_
      rw [List.prod_pair] at hq'
      refine build_keeps (foldPower_denotes hM hg₄ ?_ hq' (integerPower?_mul hbe hp))
      exact Graph.Denotes.extends hb hg₁ (hext₂.trans (hext₃.trans hext₄))
    · next ho hne =>
      obtain ⟨l', r', hops⟩ := hg₁.exists_operands_pair (Graph.isOpenPower_iff.1 ho).1 fun _ => id
      exact (hne l' r' hops).elim
    · exact build_keeps (foldPower_denotes hM hg₂ (Graph.Denotes.extends hl hg₁ hext₂) hr hp)

/-! ### Calls -/

theorem values?_denote (h : g.AllDenote M xs vs) {qs : List Rat} (hq : values? g xs = some qs) :
    qs = vs := by
  induction h generalizing qs with
  | nil => exact List.forall₂_nil_left_iff.1 (Graph.mapM_eq_some.1 hq)
  | cons hv _ ih =>
    obtain ⟨q, qs, hq', hqs, rfl⟩ := List.forall₂_cons_left_iff.1 (Graph.mapM_eq_some.1 hq)
    rw [hv.eq_of_value? hq', ih (Graph.mapM_eq_some.2 hqs)]

theorem invoke_keeps {f : Callee} {p : Rat} (hg : g.WellFormed) (hxs : g.AllDenote M xs vs)
    (hp : library.result? f vs = some p) :
    Keeps M depth z (invoke f (library f) xs) g fun reply g' =>
      reply = .declined ∨ ∃ x, reply = .value x ∧ g'.Denotes M [] x p := by
  obtain ⟨fn, hf, ha⟩ := Library.result?_eq_some hp
  refine Dialogue.Meets.graph ?_
  rw [hf]
  simp only
  split
  · next qs hqs =>
    obtain rfl := values?_denote hxs hqs
    rw [if_pos rfl, ha]
    refine Dialogue.Meets.updateLog (build_keeps ?_)
    exact (Graph.constant_denotes M hg p).bind fun x g' hg' _ hx => .pure hg' (.inr ⟨x, rfl, hx⟩)
  · exact .pure hg (.inl rfl)

theorem call_keeps {f : Callee} {p : Rat} (hM : M.call = library.result?) (hg : g.WellFormed)
    (hxs : g.AllDenote M xs vs) (hp : library.result? f vs = some p) :
    Keeps M depth z (call library f xs) g fun r g' => g'.Denotes M [] r p := by
  refine (askAll_keeps hg hxs).bind fun ys g₁ hg₁ _ hys => ?_
  refine (build_keeps (Graph.call_meets hg₁ f (AllDenote.lt_size hys))).bind
    fun u g₂ hg₂ hext₂ hu => ?_
  have hys := AllDenote.extends hys hg₁ hext₂
  have hu : g₂.Denotes M [] u p := .node hu.1 hu.2 hys (by rw [Semantics.combine, hM, hp])
  refine (invoke_keeps hg₂ hys hp).bind fun reply g₃ hg₃ hext₃ hr => ?_
  rcases hr with rfl | ⟨r, rfl, hr⟩
  · exact .pure hg₃ (Graph.Denotes.extends hu hg₂ hext₃)
  · exact .pure hg₃ hr

/-! ### All rules -/

theorem byShape_keeps (hM : M.power = integerPower?) (hM' : M.call = library.result?)
    (hg : g.WellFormed) (hx : g.Denotes M [] x v) :
    Keeps M depth z (byShape library x) g fun r g' => g'.Denotes M [] r v := by
  obtain ⟨-, vs, hvs, hv⟩ := hx.operands
  refine Dialogue.Meets.graph ?_
  cases hs : g.shape x with
  | constant | symbol => exact .pure hg hx
  | sum =>
    rw [hs] at hv
    cases hv
    exact (askAll_keeps hg hvs).bind fun ys g' hg' _ hys =>
      build_keeps (Graph.combineTerms_denotes hM hg' hys)
  | product =>
    rw [hs] at hv
    cases hv
    exact (askAll_keeps hg hvs).bind fun ys g' hg' _ hys =>
      build_keeps (Graph.combineFactors_denotes hM hg' hys)
  | power =>
    rw [hs] at hv
    obtain ⟨b, e, rfl, hp⟩ := Semantics.combine_power_eq_some.1 hv
    obtain ⟨l, r, hops, hl, hr⟩ := Graph.forall₂_pair_right hvs
    rw [hM] at hp
    rw [hops]
    exact power_keeps hM hg hl hr hp
  | binary op =>
    rw [hs] at hv
    obtain ⟨b, e, rfl, hp⟩ := Semantics.combine_binary_eq_some.1 hv
    obtain ⟨l, r, hops, hl, hr⟩ := Graph.forall₂_pair_right hvs
    rw [hops]
    exact binary_keeps hg hl hr hp
  | unary op =>
    rw [hs] at hv
    obtain ⟨b, rfl, hp⟩ := Semantics.combine_unary_eq_some.1 hv
    obtain ⟨l, hops, hl⟩ := Graph.forall₂_singleton_right hvs
    rw [hops]
    exact unary_keeps hg hl hp
  | call f =>
    rw [hs, Semantics.combine, hM'] at hv
    exact call_keeps hM' hg hvs hv
  | set | arrow =>
    rw [hs] at hv
    cases hv

theorem rules_keep (hM : M.power = integerPower?) (hM' : M.call = library.result?)
    (hg : g.WellFormed) (hx : g.Denotes M [] x v) :
    Keeps M depth z ((rules library).transform x) g ((keepsValues M).Settles x) := by
  refine Dialogue.Meets.graph (.ite (fun hl => ?_) fun _ => ?_)
  · rw [hx.operands.1] at hl
    cases hl
  · refine (byShape_keeps hM hM' hg hx).bind fun y g' hg' hext hy => .pure hg' ?_
    refine (keepsValues M).settles_of_answers hy.lt_size fun w hw => ?_
    have hx' := Graph.Denotes.extends hx hg hext
    rwa [hw.unique hx']

/-- Whatever was evaluated before in the same run, evaluation answers with the same value. -/
theorem evaluateIn_keeps (hM : M.power = integerPower?) (hM' : M.call = library.result?)
    (depth : Nat) : Replies (keepsValues M) depth (evaluateIn library depth) :=
  Rules.replies (rules library) (fun _ => rfl)
    (fun _ _ _ hg hx _ => rules_keep hM hM' hg hx.choose_spec) depth

end ExactAlgebra.Evaluation

namespace ExactAlgebra

open Evaluation (keepsValues)

/--
An expression that has a value at a point is evaluated, if the depth suffices and there is room, to
an expression with the same value there.
-/
theorem Workspace.evaluate_keeps_value {library : Library} {ρ : String → Option Rat}
    {ws : Workspace} {k : Nat} {x : NodeId} {v : Rat} (hk : k < ws.graphs.size)
    (hg : (ws.graph k).WellFormed) (hv : (ws.graph k).Denotes (.atPoint library ρ) [] x v)
    (depth : Nat) :
    match Workspace.evaluate library depth (.node k x) ws with
    | .ok h ws' => ∃ y, h = .node k y ∧ (ws'.graph k).Denotes (.atPoint library ρ) [] y v
    | .error e _ => e = .graphFull ∨ e = .depthExhausted := by
  have hrun := Evaluation.evaluateIn_keeps (M := .atPoint library ρ) rfl rfl depth x (ws.graph k) {}
    ⟨#[], ws.invocations⟩ hg (Memo.holds_empty _ _) ⟨v, hv⟩ (Memo.leads_empty _ _ _)
  rw [evaluate_eq]
  change Outcome _ _ _ _ (evaluateIn library depth x (ws.startRun k)) at hrun
  cases he : evaluateIn library depth x (ws.startRun k) with
  | error e run =>
    rw [he] at hrun
    exact hrun.2.2.2.2.imp_left And.left
  | ok y run =>
    rw [he] at hrun
    obtain ⟨-, hext, -, -, -, -, hy⟩ := hrun
    refine ⟨y, rfl, ?_⟩
    rw [graph_afterRun hk]
    exact hy v (Graph.Denotes.extends hv hg hext)

/-- At the point where `x` is `3`, what `x + x` is evaluated to has the value `6`. -/
theorem Workspace.evaluate_doubled_value :
    match Workspace.evaluate .silent 9 (.node 0 3) { graphs := #[Graph.doubled] } with
    | .ok h ws' => ∃ y, h = .node 0 y ∧
        (ws'.graph 0).Denotes (.atPoint .silent fun _ => some 3) [] y (2 * 3)
    | .error e _ => e = .graphFull ∨ e = .depthExhausted := by
  have hg : (Workspace.graph { graphs := #[Graph.doubled] } 0).WellFormed :=
    Graph.doubled_wellFormed
  exact Workspace.evaluate_keeps_value (by decide) hg (Graph.doubled_denotes rfl rfl) 9

end ExactAlgebra
