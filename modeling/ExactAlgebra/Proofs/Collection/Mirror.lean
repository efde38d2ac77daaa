import ExactAlgebra.Proofs.Collection.Folding
import ExactAlgebra.Proofs.Graph.Mirror

/-!
Collecting in two graphs side by side: like terms and like factors of twins are found at the same
places, so that twins come out.
-/

namespace ExactAlgebra

/-! ### Weights -/

namespace Weights

variable {κ κ' : Type} {R : κ → κ' → Prop} {w : Weights κ} {w' : Weights κ'} {k : κ} {k' : κ'}

/-- The same weights of related keys, in the same order. -/
def Match (R : κ → κ' → Prop) (w : Weights κ) (w' : Weights κ') : Prop :=
  List.Forall₂ (fun p q => R p.1 q.1 ∧ p.2 = q.2) w.entries w'.entries

theorem Match.empty (R : κ → κ' → Prop) : Match R .empty .empty := List.Forall₂.nil

theorem forall₂_modify {α β : Type} {S : α → β → Prop} {as : List α} {bs : List β}
    (h : List.Forall₂ S as bs) {f : α → α} {k : β → β} (hf : ∀ a b, S a b → S (f a) (k b))
    (i : Nat) : List.Forall₂ S (as.modify i f) (bs.modify i k) := by
  induction h generalizing i with
  | nil => simp
  | cons hab hs ih =>
    cases i with
    | zero => exact .cons (hf _ _ hab) hs
    | succ i => exact .cons hab (ih i)

theorem forall₂_eraseIdx {α β : Type} {S : α → β → Prop} {as : List α} {bs : List β}
    (h : List.Forall₂ S as bs) (i : Nat) : List.Forall₂ S (as.eraseIdx i) (bs.eraseIdx i) := by
  induction h generalizing i with
  | nil => exact .nil
  | cons hab hs ih =>
    cases i with
    | zero => exact hs
    | succ i => exact .cons hab (ih i)

variable [DecidableEq κ] [DecidableEq κ']

theorem Match.position?_eq (h : Match R w w') (hR : Relator.BiUnique R) (hk : R k k') :
    w.position? k = w'.position? k' := by
  have hkeys : ∀ p q, R p q → decide (p = k) = decide (q = k') := fun p q hpq =>
    decide_eq_decide.2 (Relator.rel_eq hR hpq hk)
  unfold position?
  unfold Match at h
  generalize w.entries = es at h ⊢
  generalize w'.entries = es' at h ⊢
  induction h with
  | nil => rfl
  | cons hp _ ih => rw [List.findIdx?_cons, List.findIdx?_cons, hkeys _ _ hp.1, ih]

theorem Match.add (h : Match R w w') (hR : Relator.BiUnique R) (hk : R k k') (q : Rat) :
    Match R (w.add k q) (w'.add k' q) := by
  rw [Weights.add, Weights.add, update, update, h.position?_eq hR hk]
  cases w'.position? k' with
  | some i =>
    exact forall₂_modify (f := fun entry => (entry.1, entry.2 + q))
      (k := fun entry => (entry.1, entry.2 + q)) h
      (fun _ _ hp => ⟨hp.1, congrArg (· + q) hp.2⟩) i
  | none => exact List.rel_append h (.cons ⟨hk, rfl⟩ .nil)

theorem Match.erase (h : Match R w w') (hR : Relator.BiUnique R) (hk : R k k') :
    Match R (w.erase k) (w'.erase k') := by
  rw [Weights.erase, Weights.erase, h.position?_eq hR hk]
  cases w'.position? k' with
  | some i => exact forall₂_eraseIdx h i
  | none => exact h

end Weights

namespace Graph

variable {V W : Vocabulary} {g g' t t' : Graph} {x y : NodeId} {xs ys : List NodeId}

/-- Weights of twins. -/
abbrev MatchingWeights (V W : Vocabulary) (w w' : Weights NodeId) (g t : Graph) : Prop :=
  Weights.Match (Twins V W g t) w w'

theorem persistent_weights (V W : Vocabulary) : Persistent V W (MatchingWeights V W) :=
  fun _ _ _ _ _ _ hgt hgt' hx hy h => h.imp fun _ _ hp => ⟨hp.1.grow hgt hgt' hx hy, hp.2⟩

/-! ### Coefficients -/

theorem splitFactors_twins (hgt : Facing V W g t) (h : List.Forall₂ (Twins V W g t) xs ys) :
    Option.Rel (fun p p' => p.1 = p'.1 ∧ List.Forall₂ (Twins V W g t) p.2 p'.2)
      (g.splitFactors xs) (t.splitFactors ys) := by
  induction h with
  | nil => exact .none
  | cons hxy hs ih =>
    rw [splitFactors, splitFactors, hxy.value?_eq hgt]
    cases t.value? _ with
    | some q => exact .some ⟨rfl, hs⟩
    | none =>
      rcases rel_cases ih with ⟨h, h'⟩ | ⟨p, p', h, h', hp⟩
      · rw [h, h']
        exact .none
      · rw [h, h']
        exact .some ⟨hp.1, .cons hxy hp.2⟩

theorem extractCoefficient_mirrors (hgt : Facing V W g t) (h : Twins V W g t x y) :
    Mirrors V W (extractCoefficient x) (extractCoefficient y) g t fun p q g' t' =>
      p.1 = q.1 ∧ Twins V W g' t' p.2 q.2 := by
  apply Mirrors.get
  rcases rel_cases (splitFactors_twins hgt (h.factors hgt)) with ⟨hs, hs'⟩ | ⟨p, p', hs, hs', hp⟩
  · rw [hs, hs']
    exact .pure hgt ⟨rfl, h⟩
  · rw [hs, hs']
    apply (product_mirrors hgt hp.2).bind
    intro z z' g' t' hgt' _ _ hz
    exact .pure hgt' ⟨hp.1, hz⟩

theorem scaleTerm_mirrors (c : Rat) (hgt : Facing V W g t) (h : Twins V W g t x y) :
    MirrorsNodes V W (scaleTerm c x) (scaleTerm c y) g t := by
  apply Mirrors.get
  rw [h.value?_eq hgt]
  cases t.value? y with
  | some q => exact constant_mirrors hgt _
  | none =>
    apply (extractCoefficient_mirrors hgt h).bind
    rintro ⟨q, r⟩ ⟨q', r'⟩ g₁ t₁ hgt₁ - - ⟨rfl, hr⟩
    apply (constant_mirrors hgt₁ (q * c)).bind
    intro k k' g₂ t₂ hgt₂ hx hy hk
    exact product_mirrors hgt₂ (.cons hk (.cons (hr.grow hgt₁ hgt₂ hx hy) .nil))

theorem scaleSum_mirrors (c : Rat) (hgt : Facing V W g t) (h : Twins V W g t x y) :
    MirrorsNodes V W (scaleSum c x) (scaleSum c y) g t := by
  apply Mirrors.get
  apply (Mirrors.mapM (persistent_twins V W) (persistent_twins V W)
    (fun hgt h => scaleTerm_mirrors c hgt h) hgt (h.terms hgt)).bind
  exact fun _ _ _ _ hgt' _ _ h => sum_mirrors hgt' h

/-! ### Terms -/

/-- What was read of twins. -/
def Terms.Match (V W : Vocabulary) (ts ts' : Terms) (g t : Graph) : Prop :=
  MatchingWeights V W ts.bare ts'.bare g t ∧ ts.constant = ts'.constant

theorem Terms.read_mirrors {ts ts' : Terms} (hgt : Facing V W g t) (hts : ts.Match V W ts' g t)
    (h : Twins V W g t x y) :
    Mirrors V W (ts.read x) (ts'.read y) g t (Terms.Match V W) := by
  apply Mirrors.get
  rw [h.value?_eq hgt]
  cases t.value? y with
  | some q => exact .pure hgt ⟨hts.1, congrArg (· + q) hts.2⟩
  | none =>
    apply (extractCoefficient_mirrors hgt h).bind
    rintro ⟨q, b⟩ ⟨q', b'⟩ g' t' hgt' hx hy ⟨rfl, hb⟩
    have hbare := persistent_weights V W hgt hgt' hx hy hts.1
    exact .pure hgt' ⟨hbare.add (Twins.biUnique hgt') hb q, hts.2⟩

theorem Terms.readAddend_mirrors {ts ts' : Terms} (hgt : Facing V W g t)
    (hts : ts.Match V W ts' g t) (h : Twins V W g t x y) :
    Mirrors V W (ts.readAddend x) (ts'.readAddend y) g t (Terms.Match V W) :=
  Mirrors.get <| Mirrors.foldlM (persistent_twins V W) (fun hgt h h' => read_mirrors hgt h h') hgt
    hts (h.terms hgt)

theorem checked_mirrors (hgt : Facing V W g t) (h : Twins V W g t x y) :
    MirrorsNodes V W (checked x) (checked y) g t := by
  have hcx : g.contains x = true := decide_eq_true h.lt_left
  have hcy : t.contains y = true := decide_eq_true h.lt_right
  apply Mirrors.get
  rw [if_pos hcx, if_pos hcy]
  exact .pure hgt h

/-- An entry of weights as a node, if it has any weight. -/
theorem weighted_mirrors {f : NodeId → NodeId → Build NodeId} {p p' : NodeId × Rat}
    (hgt : Facing V W g t) (h : Twins V W g t p.1 p'.1 ∧ p.2 = p'.2)
    (hf : ∀ {g t b b' c c'}, Facing V W g t → Twins V W g t b b' → Twins V W g t c c' →
      MirrorsNodes V W (f b c) (f b' c') g t) :
    Mirrors V W
      (do
        if p.2 = 0 then return none
        let bare ← checked p.1
        if p.2 = 1 then return some bare
        return some (← f bare (← constant p.2)))
      (do
        if p'.2 = 0 then return none
        let bare ← checked p'.1
        if p'.2 = 1 then return some bare
        return some (← f bare (← constant p'.2))) g t
      fun r r' g' t' => Option.Rel (fun c d => Twins V W g' t' c d) r r' := by
  rw [h.2]
  apply Mirrors.ite Iff.rfl fun _ => .pure hgt .none
  intro _
  apply (checked_mirrors hgt h.1).bind
  intro b b' g₁ t₁ hgt₁ _ _ hb
  apply Mirrors.ite Iff.rfl fun _ => .pure hgt₁ (.some hb)
  intro _
  apply (constant_mirrors hgt₁ p'.2).bind
  intro c c' g₂ t₂ hgt₂ hx hy hc
  apply (hf hgt₂ (hb.grow hgt₁ hgt₂ hx hy) hc).bind
  exact fun _ _ _ _ hgt₃ _ _ h => .pure hgt₃ (.some h)

theorem persistent_entries (V W : Vocabulary) :
    Persistent V W fun (p p' : NodeId × Rat) g t => Twins V W g t p.1 p'.1 ∧ p.2 = p'.2 :=
  fun _ _ _ _ _ _ hgt hgt' hx hy h => ⟨h.1.grow hgt hgt' hx hy, h.2⟩

theorem weightedTerm?_mirrors {p p' : NodeId × Rat} (hgt : Facing V W g t)
    (h : Twins V W g t p.1 p'.1 ∧ p.2 = p'.2) :
    Mirrors V W (weightedTerm? p) (weightedTerm? p') g t fun r r' g' t' =>
      Option.Rel (fun c d => Twins V W g' t' c d) r r' :=
  weighted_mirrors (f := fun b c => product [b, c]) hgt h fun hgt hb hc =>
    product_mirrors hgt (.cons hb (.cons hc .nil))

theorem Terms.emit_mirrors {ts ts' : Terms} (hgt : Facing V W g t) (h : ts.Match V W ts' g t) :
    MirrorsNodes V W ts.emit ts'.emit g t := by
  have hrest : ∀ {w w' g t}, Facing V W g t → MatchingWeights V W w w' g t →
      MirrorsNodes V W (do sum (← w.entries.filterMapM weightedTerm?))
        (do sum (← w'.entries.filterMapM weightedTerm?)) g t := by
    intro w w' g t hgt hw
    apply (Mirrors.filterMapM (persistent_entries V W) (persistent_twins V W)
      (fun hgt h => weightedTerm?_mirrors hgt h) hgt hw).bind
    exact fun _ _ _ _ hgt' _ _ h => sum_mirrors hgt' h
  unfold emit
  rw [h.2]
  apply Mirrors.ite Iff.rfl fun _ => hrest hgt h.1
  intro _
  apply (constant_mirrors hgt ts'.constant).bind
  intro c c' g' t' hgt' hx hy hc
  have hbare := persistent_weights V W hgt hgt' hx hy h.1
  exact hrest hgt' (hbare.add (Twins.biUnique hgt') hc 1)

/-- Sums of twins, like terms combined, are twins. -/
theorem combineTerms_mirrors (hgt : Facing V W g t) (h : List.Forall₂ (Twins V W g t) xs ys) :
    MirrorsNodes V W (combineTerms xs) (combineTerms ys) g t := by
  apply (Mirrors.foldlM (c := ({} : Terms)) (d := ({} : Terms)) (persistent_twins V W)
    (fun hgt h h' => Terms.readAddend_mirrors hgt h h') hgt ⟨.empty _, rfl⟩ h).bind
  exact fun _ _ _ _ hgt' _ _ h => Terms.emit_mirrors hgt' h

/-! ### Factors -/

theorem constantPower?_twins (hgt : Facing V W g t) (h : Twins V W g t x y) :
    Option.Rel (fun p p' => Twins V W g t p.1 p'.1 ∧ p.2 = p'.2) (g.constantPower? x)
      (t.constantPower? y) := by
  have hops := h.operands hgt
  rw [constantPower?, constantPower?, h.isOpenPower_eq hgt]
  split
  · generalize g.operands x = as at hops
    generalize t.operands y = bs at hops
    match hops with
    | .nil => exact .none
    | .cons _ .nil => exact .none
    | .cons hb (.cons he .nil) =>
      simp only [he.value?_eq hgt]
      cases t.value? _ with
      | none => exact .none
      | some e => exact .some ⟨hb, rfl⟩
    | .cons _ (.cons _ (.cons _ _)) => exact .none
  · exact .none

namespace Factors

/-- What was read of twins. -/
def Match (V W : Vocabulary) (fs fs' : Factors) (g t : Graph) : Prop :=
  MatchingWeights V W fs.exponents fs'.exponents g t ∧ fs.constant = fs'.constant

variable {fs fs' : Factors}

theorem read_twins (hgt : Facing V W g t) (hfs : fs.Match V W fs' g t) (h : Twins V W g t x y) :
    (fs.read g x).Match V W (fs'.read t y) g t := by
  have hbi := Twins.biUnique hgt
  rw [read, read, h.value?_eq hgt]
  cases t.value? y with
  | some q => exact ⟨hfs.1, congrArg (· * q) hfs.2⟩
  | none =>
    rcases rel_cases (constantPower?_twins hgt h) with ⟨hc, hc'⟩ | ⟨p, p', hc, hc', hp⟩
    · rw [hc, hc']
      exact ⟨hfs.1.add hbi h 1, hfs.2⟩
    · rw [hc, hc']
      simp only [hp.2]
      exact ⟨hfs.1.add hbi hp.1 p'.2, hfs.2⟩

theorem foldl_twins {f f' : Factors → NodeId → Factors} (hfs : fs.Match V W fs' g t)
    (hf : ∀ fs fs' x y, fs.Match V W fs' g t → Twins V W g t x y → (f fs x).Match V W (f' fs' y) g t)
    (h : List.Forall₂ (Twins V W g t) xs ys) : (xs.foldl f fs).Match V W (ys.foldl f' fs') g t := by
  induction h generalizing fs fs' with
  | nil => exact hfs
  | cons hxy _ ih => exact ih (hf _ _ _ _ hfs hxy)

theorem readFactor_twins (hgt : Facing V W g t) (hfs : fs.Match V W fs' g t)
    (h : Twins V W g t x y) : (fs.readFactor g x).Match V W (fs'.readFactor t y) g t :=
  foldl_twins hfs (fun _ _ _ _ hfs h => read_twins hgt hfs h) (h.factors hgt)

theorem foldedValue?_twins (hgt : Facing V W g t) (h : Twins V W g t x y) (e : Rat) :
    g.foldedValue? x e = t.foldedValue? y e := by
  rw [foldedValue?, foldedValue?, h.value?_eq hgt]

theorem foldConstants_twins (hgt : Facing V W g t) (hfs : fs.Match V W fs' g t) :
    (fs.foldConstants g).Match V W (fs'.foldConstants t) g t := by
  have hfold : ∀ {es es' : List (NodeId × Rat)} {fs fs' : Factors},
      List.Forall₂ (fun p q => Twins V W g t p.1 q.1 ∧ p.2 = q.2) es es' → fs.Match V W fs' g t →
      (es.foldl (foldEntry g) fs).Match V W (es'.foldl (foldEntry t) fs') g t := by
    intro es es' fs fs' h hfs
    induction h generalizing fs fs' with
    | nil => exact hfs
    | @cons p q _ _ hpq _ ih =>
      apply ih
      rw [foldEntry, foldEntry, foldedValue?_twins hgt hpq.1, hpq.2]
      cases t.foldedValue? q.1 q.2 with
      | none => exact hfs
      | some v => exact ⟨hfs.1.erase (Twins.biUnique hgt) hpq.1, congrArg (· * v) hfs.2⟩
  exact hfold hfs.1 hfs

theorem hostSum?_twins (hgt : Facing V W g t) (hfs : fs.Match V W fs' g t) :
    Option.Rel (fun p q => Twins V W g t p.1 q.1 ∧ p.2 = q.2) (fs.hostSum? g) (fs'.hostSum? t) := by
  apply rel_find? hfs.1
  rintro ⟨x, e⟩ ⟨y, e'⟩ ⟨hxy, he⟩
  simp only at hxy he
  simp only [hxy.isOpenSum_eq hgt, he]

theorem placeConstant_mirrors (hgt : Facing V W g t) (hfs : fs.Match V W fs' g t)
    (hne : fs.constant ≠ 0) :
    Mirrors V W fs.placeConstant fs'.placeConstant g t (MatchingWeights V W) := by
  rw [placeConstant_eq hne, placeConstant_eq (hfs.2 ▸ hne), hfs.2]
  apply Mirrors.ite Iff.rfl fun _ => .pure hgt hfs.1
  intro _
  apply Mirrors.get
  rcases rel_cases (hostSum?_twins hgt hfs) with ⟨hh, hh'⟩ | ⟨p, q, hh, hh', hpq⟩
  · rw [hh, hh']
    apply (constant_mirrors hgt fs'.constant).bind
    intro c c' g' t' hgt' hx hy hc
    have hws := persistent_weights V W hgt hgt' hx hy hfs.1
    exact .pure hgt' (hws.add (Twins.biUnique hgt') hc 1)
  · rw [hh, hh']
    simp only [hpq.2]
    apply (scaleSum_mirrors _ hgt hpq.1).bind
    intro z z' g' t' hgt' hx hy hz
    have hbi := Twins.biUnique hgt'
    have hws := persistent_weights V W hgt hgt' hx hy hfs.1
    exact .pure hgt' ((hws.erase hbi (hpq.1.grow hgt hgt' hx hy)).add hbi hz q.2)

theorem weightedFactor?_mirrors {p p' : NodeId × Rat} (hgt : Facing V W g t)
    (h : Twins V W g t p.1 p'.1 ∧ p.2 = p'.2) :
    Mirrors V W (weightedFactor? p) (weightedFactor? p') g t fun r r' g' t' =>
      Option.Rel (fun c d => Twins V W g' t' c d) r r' :=
  weighted_mirrors (f := power) hgt h fun hgt hb hc => power_mirrors hgt hb hc

theorem emit_mirrors (hgt : Facing V W g t) (hfs : fs.Match V W fs' g t) :
    MirrorsNodes V W fs.emit fs'.emit g t := by
  have hfold := foldConstants_twins hgt hfs
  rw [emit_eq, emit_eq]
  apply Mirrors.get
  apply Mirrors.ite (by rw [hfold.2]) fun _ => .pure hgt hgt.zero
  intro hne
  apply (placeConstant_mirrors hgt hfold hne).bind
  intro ws ws' g₁ t₁ hgt₁ _ _ hws
  apply (Mirrors.filterMapM (persistent_entries V W) (persistent_twins V W)
    (fun hgt h => weightedFactor?_mirrors hgt h) hgt₁ hws).bind
  exact fun _ _ _ _ hgt' _ _ h => product_mirrors hgt' h

end Factors

/-- Products of twins, like factors combined, are twins. -/
theorem combineFactors_mirrors (hgt : Facing V W g t) (h : List.Forall₂ (Twins V W g t) xs ys) :
    MirrorsNodes V W (combineFactors xs) (combineFactors ys) g t := by
  apply Mirrors.get
  apply Factors.emit_mirrors hgt
  exact Factors.foldl_twins ⟨.empty _, rfl⟩ (fun _ _ _ _ hfs h => Factors.readFactor_twins hgt hfs h)
    h

end Graph

end ExactAlgebra
