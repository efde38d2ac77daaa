import ExactAlgebra.Proofs.Collection.Folding
import ExactAlgebra.Proofs.Collection.Replay
import ExactAlgebra.Proofs.Graph.Reach

/-!
Combining like terms and like factors makes nothing new: the result is made of what the operands are
made of. It fails only when the graph is full.
-/

namespace ExactAlgebra

theorem Weights.forall_keys_add {κ : Type} [DecidableEq κ] {P : κ → Prop} {w : Weights κ} {k : κ}
    (h : ∀ i ∈ w.keys, P i) (hk : P k) (q : Rat) : ∀ i ∈ (w.add k q).keys, P i := by
  intro i hi
  rcases (w.mem_keys_add k q i).1 hi with rfl | hi
  · exact hk
  · exact h i hi

namespace Graph

variable {V : Vocabulary} {g g' : Graph} {x y : NodeId} {q : Rat} {xs : List NodeId}

/-- All keys of weights are made of a vocabulary. -/
def KeysMadeOf (V : Vocabulary) (g : Graph) (w : Weights NodeId) : Prop :=
  ∀ k ∈ w.keys, g.MadeOf V k

namespace KeysMadeOf

variable {w : Weights NodeId}

theorem empty (V : Vocabulary) (g : Graph) : g.KeysMadeOf V .empty :=
  fun _ hk => absurd hk List.not_mem_nil

theorem add (h : g.KeysMadeOf V w) (hx : g.MadeOf V x) (q : Rat) : g.KeysMadeOf V (w.add x q) :=
  Weights.forall_keys_add h hx q

theorem erase (h : g.KeysMadeOf V w) (k : NodeId) : g.KeysMadeOf V (w.erase k) :=
  fun i hi => h i (w.keys_erase_subset k hi)

theorem grow (h : g.KeysMadeOf V w) (hx : g.Extends g') : g'.KeysMadeOf V w :=
  fun k hk => hx.madeOf (h k hk)

theorem entries (h : g.KeysMadeOf V w) : ∀ r ∈ w.entries, g.MadeOf V r.1 :=
  fun _ hr => h _ (List.mem_map_of_mem hr)

end KeysMadeOf

theorem MadeOf.terms (h : g.MadeOf V x) : ∀ y ∈ g.terms x, g.MadeOf V y := by
  intro y hy
  rw [Graph.terms] at hy
  split at hy
  · exact h.operands y hy
  · exact List.mem_singleton.1 hy ▸ h

theorem MadeOf.factors (h : g.MadeOf V x) : ∀ y ∈ g.factors x, g.MadeOf V y := by
  intro y hy
  rw [Graph.factors] at hy
  split at hy
  · exact h.operands y hy
  · exact List.mem_singleton.1 hy ▸ h

/-- Building a node for each of several nodes. -/
theorem mapM_made {f : NodeId → Build NodeId}
    (hf : ∀ {g x}, g.WellFormed → g.MadeOf V x →
      Meets Overflow (f x) g fun y g' => g'.MadeOf V y)
    (hg : g.WellFormed) (hxs : ∀ x ∈ xs, g.MadeOf V x) :
    Meets Overflow (xs.mapM f) g fun ys g' => ∀ y ∈ ys, g'.MadeOf V y := by
  have hmap := Meets.mapM (P := MadeOf V) (R := fun g _ y => g.MadeOf V y) (E := Overflow)
    (fun _ hx h => hx.madeOf h) (fun _ hx h => hx.madeOf h) hf hg hxs
  apply hmap.mono
  intro ys g' _ _ hys y hy
  obtain ⟨i, hi, rfl⟩ := List.getElem_of_mem hy
  exact hys.get (hys.length_eq ▸ hi) hi

/-! ### Coefficients -/

theorem extractCoefficient_made (hg : g.WellFormed) (hx : g.MadeOf V x) :
    Meets Overflow (extractCoefficient x) g fun r g' => g'.MadeOf V r.2 := by
  apply Meets.get
  cases hs : g.splitFactors (g.factors x) with
  | none => exact .pure hg hx
  | some r =>
    have hrest : ∀ y ∈ r.2, g.MadeOf V y := fun y hy =>
      hx.factors y (splitFactors_subset hs hy)
    exact (product_made hg hrest).bind fun _ _ hg' _ hz => .pure hg' hz

theorem scaled_made (hg : g.WellFormed) (hx : g.MadeOf V x) (q : Rat) :
    Meets Overflow (do product [← constant q, x]) g fun y g' => g'.MadeOf V y := by
  apply (constant_made (V := V) hg q).bind
  intro c g' hg' hext hc
  exact product_made hg' (by simp [hc.1, hext.madeOf hx])

theorem scaleTerm_made (hg : g.WellFormed) (hx : g.MadeOf V x) (c : Rat) :
    Meets Overflow (scaleTerm c x) g fun y g' => g'.MadeOf V y := by
  apply Meets.get
  cases g.value? x with
  | some q => exact (constant_made hg _).mono fun _ _ _ _ h => h.1
  | none => exact (extractCoefficient_made hg hx).bind fun _ _ hg' _ hr => scaled_made hg' hr _

theorem scaleSum_made (hg : g.WellFormed) (hx : g.MadeOf V x) (c : Rat) :
    Meets Overflow (scaleSum c x) g fun y g' => g'.MadeOf V y := by
  apply Meets.get
  have hmap := mapM_made (fun hg hx => scaleTerm_made hg hx c) hg (hx.terms)
  exact hmap.bind fun _ _ hg' _ hys => sum_made hg' hys

theorem checked_made (hg : g.WellFormed) (hx : g.MadeOf V x) :
    Meets Overflow (checked x) g fun y g' => g'.MadeOf V y := by
  apply Meets.get
  apply Meets.ite
  · exact fun _ => .pure hg hx
  · exact fun h => absurd (decide_eq_true hx.lt_size) h

/-- An operand that a base and its weight come to, or none. -/
theorem weighted_made {f : NodeId → NodeId → Build NodeId}
    (hf : ∀ {g x c}, g.WellFormed → g.MadeOf V x → g.MadeOf V c →
      Meets Overflow (f x c) g fun y g' => g'.MadeOf V y)
    (hg : g.WellFormed) {r : NodeId × Rat} (hr : g.MadeOf V r.1) :
    Meets Overflow (do
      if r.2 = 0 then return none
      let x ← checked r.1
      if r.2 = 1 then return x
      f x (← constant r.2) : Build (Option NodeId)) g fun o g' => ∀ y, o = some y → g'.MadeOf V y := by
  apply Meets.ite
  · exact fun _ => .pure hg fun _ h => nomatch h
  intro _
  apply (checked_made hg hr).bind
  intro x g₁ hg₁ _ hx
  apply Meets.ite
  · intro _
    apply Meets.pure hg₁
    rintro _ ⟨⟩
    exact hx
  intro _
  apply (constant_made (V := V) hg₁ _).bind
  intro c g₂ hg₂ hext hc
  apply (hf hg₂ (hext.madeOf hx) hc.1).bind
  intro y g₃ hg₃ _ hy
  apply Meets.pure hg₃
  rintro _ ⟨⟩
  exact hy

theorem filterMapM_made {f : NodeId × Rat → Build (Option NodeId)} {rs : List (NodeId × Rat)}
    (hf : ∀ {g r}, g.WellFormed → g.MadeOf V r.1 →
      Meets Overflow (f r) g fun o g' => ∀ y, o = some y → g'.MadeOf V y)
    (hg : g.WellFormed) (hrs : ∀ r ∈ rs, g.MadeOf V r.1) :
    Meets Overflow (rs.filterMapM f) g fun ys g' => ∀ y ∈ ys, g'.MadeOf V y := by
  induction rs generalizing g with
  | nil => exact .pure hg fun _ h => absurd h List.not_mem_nil
  | cons r rs ih =>
    rw [List.filterMapM_cons]
    apply (hf hg (hrs r (List.mem_cons_self ..))).bind
    intro o g' hg' hext ho
    have hrest := ih hg' fun r hr => hext.madeOf (hrs r (List.mem_cons_of_mem _ hr))
    cases o with
    | none => exact hrest
    | some y =>
      apply hrest.bind
      intro ys g'' hg'' hext' hys
      exact .pure hg'' (List.forall_mem_cons.2 ⟨hext'.madeOf (ho y rfl), hys⟩)

/-! ### Like terms -/

theorem Terms.read_made {ts : Terms} (hg : g.WellFormed) (hts : g.KeysMadeOf V ts.bare)
    (hx : g.MadeOf V x) : Meets Overflow (ts.read x) g fun ts' g' => g'.KeysMadeOf V ts'.bare := by
  apply Meets.get
  cases g.value? x with
  | some q => exact .pure hg hts
  | none =>
    apply (extractCoefficient_made hg hx).bind
    intro r g' hg' hext hr
    exact .pure hg' ((hts.grow hext).add hr r.1)

theorem Terms.readAddend_made {ts : Terms} (hg : g.WellFormed) (hts : g.KeysMadeOf V ts.bare)
    (hx : g.MadeOf V x) :
    Meets Overflow (ts.readAddend x) g fun ts' g' => g'.KeysMadeOf V ts'.bare := by
  apply Meets.get
  exact Meets.foldlM (P := MadeOf V) (fun _ hext h => hext.madeOf h)
    (fun hg hts hy => read_made hg hts hy) hg hts (hx.terms)

theorem weightedTerm?_made (hg : g.WellFormed) {r : NodeId × Rat} (hr : g.MadeOf V r.1) :
    Meets Overflow (weightedTerm? r) g fun o g' => ∀ y, o = some y → g'.MadeOf V y :=
  weighted_made (f := fun x c => product [x, c])
    (fun hg hx hc => product_made hg (by simp [hx, hc])) hg hr

theorem Terms.emit_made {ts : Terms} (hg : g.WellFormed) (hts : g.KeysMadeOf V ts.bare) :
    Meets Overflow ts.emit g fun y g' => g'.MadeOf V y := by
  have hrest : ∀ (w : Weights NodeId) (g : Graph), g.WellFormed → g.KeysMadeOf V w →
      Meets Overflow (do sum (← w.entries.filterMapM weightedTerm?)) g fun y g' =>
        g'.MadeOf V y := by
    intro w g hg hw
    apply (filterMapM_made (fun hg hr => weightedTerm?_made hg hr) hg hw.entries).bind
    exact fun _ _ hg' _ hys => sum_made hg' hys
  unfold Terms.emit
  apply Meets.ite
  · intro _
    exact hrest ts.bare g hg hts
  · intro _
    apply (constant_made (V := V) hg _).bind
    intro c g' hg' hext hc
    exact hrest _ g' hg' ((hts.grow hext).add hc.1 1)

/-- The sum of nodes, like terms combined, is made of what the nodes are made of. -/
theorem combineTerms_made (hg : g.WellFormed) (hxs : ∀ x ∈ xs, g.MadeOf V x) :
    Meets Overflow (combineTerms xs) g fun y g' => g'.MadeOf V y := by
  have hread := Meets.foldlM (P := MadeOf V) (b := {}) (E := Overflow)
    (I := fun g (ts : Terms) => g.KeysMadeOf V ts.bare) (fun _ hext h => hext.madeOf h)
    (fun hg hts hy => Terms.readAddend_made hg hts hy) hg (.empty V g) hxs
  exact hread.bind fun _ _ hg' _ hts => Terms.emit_made hg' hts

/-! ### Like factors -/

namespace Factors

variable {fs : Factors}

theorem read_made (hfs : g.KeysMadeOf V fs.exponents) (hx : g.MadeOf V x) :
    g.KeysMadeOf V (fs.read g x).exponents := by
  unfold read
  cases g.value? x with
  | some q => exact hfs
  | none =>
    cases hc : g.constantPower? x with
    | none => exact hfs.add hx 1
    | some r => exact hfs.add (hx.operands r.1 (constantPower?_mem_operands hc)) r.2

theorem foldl_made {f : Factors → NodeId → Factors}
    (hf : ∀ fs x, g.KeysMadeOf V fs.exponents → g.MadeOf V x →
      g.KeysMadeOf V (f fs x).exponents)
    (hfs : g.KeysMadeOf V fs.exponents) (hxs : ∀ x ∈ xs, g.MadeOf V x) :
    g.KeysMadeOf V (xs.foldl f fs).exponents := by
  induction xs generalizing fs with
  | nil => exact hfs
  | cons x xs ih =>
    rw [List.foldl_cons]
    exact ih (hf fs x hfs (hxs x (List.mem_cons_self ..))) fun y hy =>
      hxs y (List.mem_cons_of_mem _ hy)

theorem readFactor_made (hfs : g.KeysMadeOf V fs.exponents) (hx : g.MadeOf V x) :
    g.KeysMadeOf V (fs.readFactor g x).exponents :=
  foldl_made (fun _ _ => read_made) hfs (hx.factors)

theorem foldConstants_made (hfs : g.KeysMadeOf V fs.exponents) :
    g.KeysMadeOf V (fs.foldConstants g).exponents := by
  have hfold : ∀ (rs : List (NodeId × Rat)) (fs : Factors), g.KeysMadeOf V fs.exponents →
      g.KeysMadeOf V (rs.foldl (foldEntry g) fs).exponents := by
    intro rs
    induction rs with
    | nil => exact fun _ h => h
    | cons r rs ih =>
      intro fs h
      apply ih
      unfold foldEntry
      cases foldedValue? g r.1 r.2 with
      | some q => exact h.erase r.1
      | none => exact h
  exact hfold _ fs hfs

theorem placeConstant_made (hg : g.WellFormed) (hfs : g.KeysMadeOf V fs.exponents)
    (h0 : fs.constant ≠ 0) :
    Meets Overflow fs.placeConstant g fun w g' => g'.KeysMadeOf V w := by
  rw [placeConstant_eq h0]
  apply Meets.ite
  · exact fun _ => .pure hg hfs
  intro _
  apply Meets.get
  cases hh : fs.hostSum? g with
  | some r =>
    apply (scaleSum_made hg (hfs r.1 (hostSum?_mem_keys hh)) _).bind
    intro y g' hg' hext hy
    exact .pure hg' (((hfs.grow hext).erase r.1).add hy r.2)
  | none =>
    apply (constant_made (V := V) hg _).bind
    intro c g' hg' hext hc
    exact .pure hg' ((hfs.grow hext).add hc.1 1)

theorem weightedFactor?_made (hg : g.WellFormed) {r : NodeId × Rat} (hr : g.MadeOf V r.1) :
    Meets Overflow (weightedFactor? r) g fun o g' => ∀ y, o = some y → g'.MadeOf V y :=
  weighted_made (f := power) power_made hg hr

theorem emit_made (hg : g.WellFormed) (hfs : g.KeysMadeOf V fs.exponents) :
    Meets Overflow fs.emit g fun y g' => g'.MadeOf V y := by
  rw [emit_eq]
  apply Meets.get
  apply Meets.ite
  · exact fun _ => .pure hg hg.madeOf_zero
  intro h0
  apply (placeConstant_made hg (foldConstants_made hfs) h0).bind
  intro w g' hg' _ hw
  apply (filterMapM_made (fun hg hr => weightedFactor?_made hg hr) hg' hw.entries).bind
  exact fun _ _ hg'' _ hys => product_made hg'' hys

end Factors

/-- The product of nodes, like factors combined, is made of what the nodes are made of. -/
theorem combineFactors_made (hg : g.WellFormed) (hxs : ∀ x ∈ xs, g.MadeOf V x) :
    Meets Overflow (combineFactors xs) g fun y g' => g'.MadeOf V y := by
  apply Meets.get
  exact Factors.emit_made hg <|
    Factors.foldl_made (fun _ _ => Factors.readFactor_made) (.empty V g) hxs

end Graph

end ExactAlgebra
