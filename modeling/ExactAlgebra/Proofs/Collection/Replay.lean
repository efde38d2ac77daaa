import ExactAlgebra.Proofs.Collection.Folding
import ExactAlgebra.Proofs.Collection.Weights
import ExactAlgebra.Proofs.Graph.Replay

/-!
Combining like terms and like factors of elementary expressions can be repeated too.
-/

namespace ExactAlgebra.Graph

variable {V : Vocabulary} {g g' t : Graph} {x : NodeId} {xs : List NodeId}

/-- The keys of weights are elementary. -/
def Keyed (V : Vocabulary) (g : Graph) (w : Weights NodeId) : Prop :=
  ∀ k ∈ w.keys, g.Elementary V k

theorem keyed_empty (V : Vocabulary) (g : Graph) : g.Keyed V .empty :=
  fun _ hk => absurd hk List.not_mem_nil

theorem Keyed.add {w : Weights NodeId} (h : g.Keyed V w) (hx : g.Elementary V x) (q : Rat) :
    g.Keyed V (w.add x q) := by
  intro k hk
  rcases (w.mem_keys_add x q k).1 hk with rfl | hk
  · exact hx
  · exact h k hk

theorem Keyed.erase {w : Weights NodeId} (h : g.Keyed V w) (k : NodeId) :
    g.Keyed V (w.erase k) :=
  fun i hi => h i (w.keys_erase_subset k hi)

theorem Keyed.extends {w : Weights NodeId} (h : g.Keyed V w) (hx : g.Extends g') : g'.Keyed V w :=
  fun k hk => hx.elementary (h k hk)

theorem Keyed.entries {w : Weights NodeId} (h : g.Keyed V w) :
    ∀ e ∈ w.entries, g.Elementary V e.1 :=
  fun _ he => h _ (List.mem_map_of_mem he)

/-! ### Coefficients -/

theorem Agree.splitFactors_eq {P : NodeId → Prop} (h : Agree P g t) (hxs : ∀ x ∈ xs, P x) :
    t.splitFactors xs = g.splitFactors xs := by
  induction xs with
  | nil => rfl
  | cons x xs ih =>
    rw [splitFactors, splitFactors, h.value?_eq (hxs x (List.mem_cons_self ..)),
      ih fun y hy => hxs y (List.mem_cons_of_mem _ hy)]

theorem splitFactors_subset {q : Rat} {rest : List NodeId}
    (h : g.splitFactors xs = some (q, rest)) : rest ⊆ xs := by
  induction xs generalizing q rest with
  | nil => cases h
  | cons x xs ih =>
    rw [splitFactors] at h
    cases hx : g.value? x with
    | some p =>
      rw [hx] at h
      cases h
      exact List.subset_cons_self x xs
    | none =>
      rw [hx] at h
      obtain ⟨⟨p, rest'⟩, hs, he⟩ := Option.map_eq_some_iff.1 h
      cases he
      exact List.cons_subset_cons x (ih hs)

theorem extractCoefficient_replays (hg : g.WellFormed) (hx : g.Elementary V x) :
    Replays V (extractCoefficient x) g fun r g' => g'.Elementary V r.2 := by
  apply Replays.get
  · intro t _ hr
    have ha := hr.agree hg
    rw [ha.factors_eq hx, ha.splitFactors_eq hx.factors]
  · cases hs : g.splitFactors (g.factors x) with
    | none => exact .pure hg hx
    | some r =>
      have hrest : ∀ y ∈ r.2, g.Elementary V y := fun y hy =>
        hx.factors y (splitFactors_subset hs hy)
      exact (product_replays hg hrest).bind fun _ _ hg' _ hz => .pure hg' hz

theorem scaleTerm_replays (hg : g.WellFormed) (c : Rat) (hx : g.Elementary V x) :
    Replays V (scaleTerm c x) g fun y g' => g'.Elementary V y := by
  apply Replays.get
  · intro t _ hr
    rw [(hr.agree hg).value?_eq hx]
  cases g.value? x with
  | some q => exact constant_replays V hg _
  | none =>
    apply (extractCoefficient_replays hg hx).bind
    intro r g' hg' _ hr
    apply (constant_replays V hg' _).bind
    intro y g'' hg'' hx'' hy
    exact product_replays hg'' (by simp [hy, hx''.elementary hr])

theorem scaleSum_replays (hg : g.WellFormed) (c : Rat) (hx : g.Elementary V x) :
    Replays V (scaleSum c x) g fun y g' => g'.Elementary V y := by
  apply Replays.get
  · intro t _ hr
    rw [(hr.agree hg).terms_eq hx]
  · have hmap : Replays V ((g.terms x).mapM (scaleTerm c)) g fun ys g' =>
        ∀ y ∈ ys, g'.Elementary V y :=
      Replays.mapM (P := Elementary V) (I := Elementary V) Extends.elementary
        Extends.elementary (fun hg hy => scaleTerm_replays hg c hy) hg hx.terms
    exact hmap.bind fun _ _ hg' _ hys => sum_replays hg' hys

/-! ### Like terms -/

theorem Terms.read_replays {ts : Terms} (hg : g.WellFormed) (hts : g.Keyed V ts.bare)
    (hx : g.Elementary V x) : Replays V (ts.read x) g fun ts' g' => g'.Keyed V ts'.bare := by
  apply Replays.get
  · intro t _ hr
    rw [(hr.agree hg).value?_eq hx]
  cases g.value? x with
  | some q => exact .pure hg hts
  | none =>
    apply (extractCoefficient_replays hg hx).bind
    intro r g' hg' hx' hr
    exact .pure hg' ((hts.extends hx').add hr r.1)

theorem Terms.readAddend_replays {ts : Terms} (hg : g.WellFormed) (hts : g.Keyed V ts.bare)
    (hx : g.Elementary V x) :
    Replays V (ts.readAddend x) g fun ts' g' => g'.Keyed V ts'.bare := by
  apply Replays.get
  · intro t _ hr
    rw [(hr.agree hg).terms_eq hx]
  · exact Replays.foldlM (P := Elementary V) Extends.elementary
      (fun hg hts hy => read_replays hg hts hy) hg hts hx.terms

theorem checked_replays (hg : g.WellFormed) (hx : g.Elementary V x) :
    Replays V (checked x) g fun y g' => g'.Elementary V y := by
  have hc : ∀ {t : Graph}, x < t.size → t.contains x = true := fun h => decide_eq_true h
  apply Replays.get
  · intro t _ hr
    rw [hc hx.lt_size, hc (hr.lt_size hx.lt_size)]
  · exact .ite (fun _ => .pure hg hx) fun _ => .throw hg

/-- An operand that a base and its weight come to, or none. -/
theorem weighted_replays {f : NodeId → NodeId → Build NodeId}
    (hf : ∀ {g x c}, g.WellFormed → g.Elementary V x → g.Elementary V c →
      Replays V (f x c) g fun y g' => g'.Elementary V y)
    (hg : g.WellFormed) {r : NodeId × Rat} (hr : g.Elementary V r.1) :
    Replays V (do
      if r.2 = 0 then return none
      let x ← checked r.1
      if r.2 = 1 then return x
      f x (← constant r.2) : Build (Option NodeId)) g fun o g' =>
        ∀ y, o = some y → g'.Elementary V y := by
  apply Replays.ite
  · intro _
    exact .pure hg fun _ h => nomatch h
  intro _
  apply (checked_replays hg hr).bind
  intro y g' hg' _ hy
  apply Replays.ite
  · intro _
    apply Replays.pure hg'
    rintro _ ⟨⟩
    exact hy
  intro _
  apply (constant_replays V hg' _).bind
  intro c g'' hg'' hx hc
  apply (hf hg'' (hx.elementary hy) hc).bind
  intro z g₃ hg₃ _ hz
  apply Replays.pure hg₃
  rintro _ ⟨⟩
  exact hz

theorem weightedTerm?_replays {r : NodeId × Rat} (hg : g.WellFormed) (hr : g.Elementary V r.1) :
    Replays V (weightedTerm? r) g fun o g' => ∀ y, o = some y → g'.Elementary V y :=
  weighted_replays (f := fun x c => product [x, c])
    (fun hg hx hc => product_replays hg (by simp [hx, hc])) hg hr

theorem Terms.emit_replays {ts : Terms} (hg : g.WellFormed) (hts : g.Keyed V ts.bare) :
    Replays V ts.emit g fun y g' => g'.Elementary V y := by
  have hrest : ∀ (w : Weights NodeId) (g' : Graph), g'.WellFormed → g'.Keyed V w →
      Replays V (do sum (← w.entries.filterMapM weightedTerm?)) g' fun y g'' =>
        g''.Elementary V y := by
    intro w g' hg' hw
    have hmap : Replays V (w.entries.filterMapM weightedTerm?) g' fun ys g'' =>
        ∀ y ∈ ys, g''.Elementary V y :=
      Replays.filterMapM (P := fun g e => g.Elementary V e.1) (I := Elementary V)
        Extends.elementary Extends.elementary (fun hg hr => weightedTerm?_replays hg hr) hg'
        hw.entries
    exact hmap.bind fun _ _ hg'' _ hys => sum_replays hg'' hys
  unfold Terms.emit
  apply Replays.ite
  · intro _
    exact hrest ts.bare g hg hts
  · intro _
    apply (constant_replays V hg _).bind
    intro c g' hg' hx hc
    exact hrest _ g' hg' ((hts.extends hx).add hc 1)

theorem combineTerms_replays (hg : g.WellFormed) (hxs : ∀ x ∈ xs, g.Elementary V x) :
    Replays V (combineTerms xs) g fun y g' => g'.Elementary V y := by
  have hread := Replays.foldlM (P := Elementary V) (b := {})
    (I := fun g (ts : Terms) => g.Keyed V ts.bare) Extends.elementary
    (fun hg hts hy => Terms.readAddend_replays hg hts hy) hg (keyed_empty V g) hxs
  exact hread.bind fun _ _ hg' _ hts => Terms.emit_replays hg' hts

/-! ### Like factors -/

theorem Agree.constantPower?_eq {P : NodeId → Prop} (h : Agree P g t) (hx : P x) :
    t.constantPower? x = g.constantPower? x := by
  have hvalue : ∀ y ∈ g.operands x, t.value? y = g.value? y := fun y hy =>
    h.value?_eq (h.operands x hx y hy)
  unfold constantPower?
  rw [h.node_eq x hx, h.operands_eq hx]
  split
  · split
    · next hops => rw [hvalue _ (by rw [hops]; simp)]
    · rfl
  · rfl

theorem constantPower?_mem_operands {r : NodeId × Rat} (h : g.constantPower? x = some r) :
    r.1 ∈ g.operands x := by
  unfold constantPower? at h
  split at h
  · split at h
    · next hops =>
      obtain ⟨e, -, rfl⟩ := Option.map_eq_some_iff.1 h
      rw [hops]
      exact List.mem_cons_self ..
    · cases h
  · cases h

namespace Factors

variable {fs : Factors}

theorem read_keyed (hfs : g.Keyed V fs.exponents) (hx : g.Elementary V x) :
    g.Keyed V (fs.read g x).exponents := by
  unfold read
  cases g.value? x with
  | some q => exact hfs
  | none =>
    cases hc : g.constantPower? x with
    | none => exact hfs.add hx 1
    | some r => exact hfs.add (hx.operands r.1 (constantPower?_mem_operands hc)) r.2

theorem foldl_keyed {f : Factors → NodeId → Factors}
    (hf : ∀ fs x, g.Keyed V fs.exponents → g.Elementary V x → g.Keyed V (f fs x).exponents)
    (hfs : g.Keyed V fs.exponents) (hxs : ∀ x ∈ xs, g.Elementary V x) :
    g.Keyed V (xs.foldl f fs).exponents := by
  induction xs generalizing fs with
  | nil => exact hfs
  | cons x xs ih =>
    rw [List.foldl_cons]
    exact ih (hf fs x hfs (hxs x (List.mem_cons_self ..))) fun y hy =>
      hxs y (List.mem_cons_of_mem _ hy)

theorem readFactor_keyed (hfs : g.Keyed V fs.exponents) (hx : g.Elementary V x) :
    g.Keyed V (fs.readFactor g x).exponents :=
  foldl_keyed (fun _ _ hfs hx => read_keyed hfs hx) hfs hx.factors

theorem foldEntry_keyed (hfs : g.Keyed V fs.exponents) (r : NodeId × Rat) :
    g.Keyed V (fs.foldEntry g r).exponents := by
  unfold foldEntry
  cases foldedValue? g r.1 r.2 with
  | some q => exact hfs.erase r.1
  | none => exact hfs

theorem foldConstants_keyed (hfs : g.Keyed V fs.exponents) :
    g.Keyed V (fs.foldConstants g).exponents := by
  have hfold : ∀ (es : List (NodeId × Rat)) (fs : Factors), g.Keyed V fs.exponents →
      g.Keyed V (es.foldl (foldEntry g) fs).exponents := by
    intro es
    induction es with
    | nil => exact fun _ h => h
    | cons e es ih => exact fun fs h => ih _ (foldEntry_keyed h e)
  exact hfold _ fs hfs

/-! What is read of factors is the same in graphs that agree on them. -/

variable {P : NodeId → Prop}

theorem read_eq (h : Agree P g t) (hx : P x) (fs : Factors) : fs.read t x = fs.read g x := by
  rw [read, read, h.value?_eq hx, h.constantPower?_eq hx]

theorem foldl_congr {f f' : Factors → NodeId → Factors} (h : ∀ x ∈ xs, ∀ fs, f fs x = f' fs x)
    (fs : Factors) : xs.foldl f fs = xs.foldl f' fs := by
  induction xs generalizing fs with
  | nil => rfl
  | cons x xs ih =>
    rw [List.foldl_cons, List.foldl_cons, h x (List.mem_cons_self ..),
      ih fun y hy => h y (List.mem_cons_of_mem _ hy)]

theorem readFactor_eq (h : Agree P g t) (hx : P x) (fs : Factors) :
    fs.readFactor t x = fs.readFactor g x := by
  rw [readFactor, readFactor, h.factors_eq hx]
  exact foldl_congr (fun y hy => read_eq h (h.of_mem_factors hx y hy)) fs

theorem foldConstants_congr (h : Agree P g t) (hfs : ∀ k ∈ fs.exponents.keys, P k) :
    fs.foldConstants t = fs.foldConstants g := by
  have hfold : ∀ (es : List (NodeId × Rat)) (fs : Factors), (∀ e ∈ es, P e.1) →
      es.foldl (foldEntry t) fs = es.foldl (foldEntry g) fs := by
    intro es
    induction es with
    | nil => exact fun _ _ => rfl
    | cons e es ih =>
      intro fs hes
      have he : fs.foldEntry t e = fs.foldEntry g e := by
        rw [foldEntry, foldEntry, foldedValue?, foldedValue?,
          h.value?_eq (hes e (List.mem_cons_self ..))]
      rw [List.foldl_cons, List.foldl_cons, he]
      exact ih _ fun e' he' => hes e' (List.mem_cons_of_mem _ he')
  exact hfold _ fs fun e he => hfs e.1 (List.mem_map_of_mem he)

theorem hostSum?_congr (h : Agree P g t) (hfs : ∀ k ∈ fs.exponents.keys, P k) :
    fs.hostSum? t = fs.hostSum? g := by
  have hfind : ∀ es : List (NodeId × Rat), (∀ e ∈ es, P e.1) →
      (es.find? fun r => (t.node r.1).isOpenSum && (r.2 = 1 || r.2 = -1)) =
        es.find? fun r => (g.node r.1).isOpenSum && (r.2 = 1 || r.2 = -1) := by
    intro es hes
    induction es with
    | nil => rfl
    | cons e es ih =>
      simp only [List.find?_cons, h.node_eq e.1 (hes e (List.mem_cons_self ..)),
        ih fun e' he' => hes e' (List.mem_cons_of_mem _ he')]
  exact hfind _ fun e he => hfs e.1 (List.mem_map_of_mem he)

theorem hostSum?_mem_keys {r : NodeId × Rat} (h : fs.hostSum? g = some r) :
    r.1 ∈ fs.exponents.keys :=
  List.mem_map_of_mem (List.mem_of_find?_eq_some h)

/-! Building the product. -/

theorem placeConstant_replays (hg : g.WellFormed) (hfs : g.Keyed V fs.exponents)
    (h0 : fs.constant ≠ 0) : Replays V fs.placeConstant g fun w g' => g'.Keyed V w := by
  rw [placeConstant_eq h0]
  apply Replays.ite
  · exact fun _ => .pure hg hfs
  intro _
  apply Replays.get
  · intro t _ hr
    rw [hostSum?_congr (hr.agree hg) hfs]
  cases hh : fs.hostSum? g with
  | some r =>
    apply (scaleSum_replays hg _ (hfs r.1 (hostSum?_mem_keys hh))).bind
    intro y g' hg' hx hy
    exact .pure hg' (((hfs.extends hx).erase r.1).add hy r.2)
  | none =>
    apply (constant_replays V hg _).bind
    intro c g' hg' hx hc
    exact .pure hg' ((hfs.extends hx).add hc 1)

theorem weightedFactor?_replays {r : NodeId × Rat} (hg : g.WellFormed) (hr : g.Elementary V r.1) :
    Replays V (weightedFactor? r) g fun o g' => ∀ y, o = some y → g'.Elementary V y :=
  weighted_replays (f := power) power_replays hg hr

theorem emit_replays (hg : g.WellFormed) (hfs : g.Keyed V fs.exponents) :
    Replays V fs.emit g fun y g' => g'.Elementary V y := by
  rw [emit_eq]
  apply Replays.get
  · intro t _ hr
    rw [foldConstants_congr (hr.agree hg) hfs]
  apply Replays.ite
  · exact fun _ => .pure hg hg.elementary_zero
  intro h0
  apply (placeConstant_replays hg (foldConstants_keyed hfs) h0).bind
  intro w g' hg' _ hw
  have hmap : Replays V (w.entries.filterMapM weightedFactor?) g' fun ys g'' =>
      ∀ y ∈ ys, g''.Elementary V y :=
    Replays.filterMapM (P := fun g e => g.Elementary V e.1) (I := Elementary V)
      Extends.elementary Extends.elementary (fun hg hr => weightedFactor?_replays hg hr) hg'
      hw.entries
  exact hmap.bind fun _ _ hg'' _ hys => product_replays hg'' hys

end Factors

theorem combineFactors_replays (hg : g.WellFormed) (hxs : ∀ x ∈ xs, g.Elementary V x) :
    Replays V (combineFactors xs) g fun y g' => g'.Elementary V y := by
  apply Replays.get
  · intro t _ hr
    rw [Factors.foldl_congr fun x hx fs => Factors.readFactor_eq (hr.agree hg) (hxs x hx) fs]
  · exact Factors.emit_replays hg <|
      Factors.foldl_keyed (fun _ _ => Factors.readFactor_keyed) (keyed_empty V g) hxs

end ExactAlgebra.Graph
