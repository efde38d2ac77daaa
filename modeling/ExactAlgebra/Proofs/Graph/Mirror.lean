import ExactAlgebra.Proofs.Graph.Replay
import ExactAlgebra.Proofs.Graph.Twins

/-!
Constructions in two graphs side by side. From twins they lead to twins, or fail with the same
error, as long as neither graph is full.
-/

namespace ExactAlgebra.Graph

variable {α β γ δ : Type} {V W : Vocabulary} {g g' t t' : Graph} {s : Shape} {x y x' y' : NodeId}
variable {xs ys : List NodeId} {Q Q' : α → β → Graph → Graph → Prop}
variable {R : γ → δ → Graph → Graph → Prop}

/-- Two constructions, from `g` and from `t`, have ended in the same way, unless one of the graphs
was full. -/
inductive Mirrored (V W : Vocabulary) (g t : Graph) (Q : α → β → Graph → Graph → Prop) :
    EStateM.Result Error Graph α → EStateM.Result Error Graph β → Prop
  | full {g' : Graph} {r : EStateM.Result Error Graph β} (h : capacity ≤ g'.size) :
      Mirrored V W g t Q (.error .graphFull g') r
  | full' {r : EStateM.Result Error Graph α} {t' : Graph} (h : capacity ≤ t'.size) :
      Mirrored V W g t Q r (.error .graphFull t')
  | error {e : Error} {g' t' : Graph} : Mirrored V W g t Q (.error e g') (.error e t')
  | ok {a : α} {b : β} {g' t' : Graph} (h : Facing V W g' t') (hx : g.Extends g')
      (hy : t.Extends t') (hQ : Q a b g' t') : Mirrored V W g t Q (.ok a g') (.ok b t')

/-- Two constructions, from `g` and from `t`, end in the same way. -/
def Mirrors (V W : Vocabulary) (m : Build α) (m' : Build β) (g t : Graph)
    (Q : α → β → Graph → Graph → Prop) : Prop :=
  Mirrored V W g t Q (m g) (m' t)

/-- Two constructions lead to twins. -/
def MirrorsNodes (V W : Vocabulary) (m m' : Build NodeId) (g t : Graph) : Prop :=
  Mirrors V W m m' g t fun x y g' t' => Twins V W g' t' x y

theorem rel_cases {S : α → β → Prop} {o : Option α} {o' : Option β} (h : Option.Rel S o o') :
    (o = none ∧ o' = none) ∨ ∃ a b, o = some a ∧ o' = some b ∧ S a b := by
  cases h with
  | none => exact .inl ⟨rfl, rfl⟩
  | some h => exact .inr ⟨_, _, rfl, rfl, h⟩

theorem rel_find? {S : α → β → Prop} {p : α → Bool} {p' : β → Bool} {as : List α} {bs : List β}
    (h : List.Forall₂ S as bs) (hp : ∀ a b, S a b → p a = p' b) :
    Option.Rel S (as.find? p) (bs.find? p') := by
  induction h with
  | nil => exact .none
  | cons hab _ ih =>
    rw [List.find?_cons, List.find?_cons, hp _ _ hab]
    split
    · exact .some hab
    · exact ih

/-- What stays true of two graphs that grow. -/
def Persistent (V W : Vocabulary) (P : α → β → Graph → Graph → Prop) : Prop :=
  ∀ ⦃a b g t g' t'⦄, Facing V W g t → Facing V W g' t' → g.Extends g' → t.Extends t' →
    P a b g t → P a b g' t'

theorem persistent_twins (V W : Vocabulary) :
    Persistent V W fun x y g t => Twins V W g t x y :=
  fun _ _ _ _ _ _ hgt hgt' hx hy h => h.grow hgt hgt' hx hy

theorem Persistent.forall₂ {P : α → β → Graph → Graph → Prop} (hP : Persistent V W P) :
    Persistent V W fun as bs g t => List.Forall₂ (fun a b => P a b g t) as bs :=
  fun _ _ _ _ _ _ hgt hgt' hx hy h => h.imp fun _ _ h => hP hgt hgt' hx hy h

namespace Mirrors

theorem pure {a : α} {b : β} (h : Facing V W g t) (hQ : Q a b g t) :
    Mirrors V W (Pure.pure a : Build α) (Pure.pure b : Build β) g t Q :=
  .ok h (.refl g) (.refl t) hQ

theorem throw (e : Error) :
    Mirrors V W (MonadExcept.throw e : Build α) (MonadExcept.throw e : Build β) g t Q :=
  .error

theorem bind {m : Build α} {m' : Build β} {f : α → Build γ} {f' : β → Build δ}
    (hm : Mirrors V W m m' g t Q)
    (hf : ∀ a b g' t', Facing V W g' t' → g.Extends g' → t.Extends t' → Q a b g' t' →
      Mirrors V W (f a) (f' b) g' t' R) :
    Mirrors V W (m >>= f) (m' >>= f') g t R := by
  unfold Mirrors at hm ⊢
  simp only [Bind.bind, EStateM.bind]
  generalize m g = r at hm
  generalize m' t = r' at hm
  cases hm with
  | full h => exact .full h
  | full' h => exact .full' h
  | error => exact .error
  | @ok a b g' t' h hx hy hQ =>
    have hrest := hf a b g' t' h hx hy hQ
    unfold Mirrors at hrest
    dsimp only
    generalize f a g' = r at hrest
    generalize f' b t' = r' at hrest
    cases hrest with
    | full h => exact .full h
    | full' h => exact .full' h
    | error => exact .error
    | ok h hx' hy' hR => exact .ok h (hx.trans hx') (hy.trans hy') hR

theorem mono {m : Build α} {m' : Build β} (hm : Mirrors V W m m' g t Q)
    (hQ : ∀ a b g' t', Facing V W g' t' → g.Extends g' → t.Extends t' → Q a b g' t' →
      Q' a b g' t') : Mirrors V W m m' g t Q' := by
  unfold Mirrors at hm ⊢
  generalize m g = r at hm ⊢
  generalize m' t = r' at hm ⊢
  cases hm with
  | full h => exact .full h
  | full' h => exact .full' h
  | error => exact .error
  | ok h hx hy h' => exact .ok h hx hy (hQ _ _ _ _ h hx hy h')

theorem get {f : Graph → Build γ} {f' : Graph → Build δ} (h : Mirrors V W (f g) (f' t) g t R) :
    Mirrors V W (MonadState.get >>= f) (MonadState.get >>= f') g t R := h

theorem ite {c c' : Prop} [Decidable c] [Decidable c'] {m n : Build α} {m' n' : Build β}
    (hc : c ↔ c') (h : c → Mirrors V W m m' g t Q) (h' : ¬ c → Mirrors V W n n' g t Q) :
    Mirrors V W (if c then m else n) (if c' then m' else n') g t Q := by
  by_cases hyes : c
  · rw [if_pos hyes, if_pos (hc.1 hyes)]
    exact h hyes
  · rw [if_neg hyes, if_neg (hc.not.1 hyes)]
    exact h' hyes

/-- Constructions whose outcomes are known, and that fail for want of room only. -/
theorem of_meets {m : Build α} {m' : Build β} {P : α → Graph → Prop} {P' : β → Graph → Prop}
    (h : Facing V W g t) (hm : Meets Overflow m g P) (hm' : Meets Overflow m' t P')
    (hQ : ∀ a b g' t', Facing V W g' t' → g.Extends g' → t.Extends t' → P a g' → P' b t' →
      Q a b g' t') : Mirrors V W m m' g t Q := by
  unfold Meets at hm hm'
  unfold Mirrors
  cases he : m g with
  | error e g' =>
    rw [he] at hm
    obtain ⟨-, -, rfl, hfull⟩ := hm
    exact .full hfull
  | ok a g' =>
    rw [he] at hm
    cases he' : m' t with
    | error e t' =>
      rw [he'] at hm'
      obtain ⟨-, -, rfl, hfull⟩ := hm'
      exact .full' hfull
    | ok b t' =>
      rw [he'] at hm'
      obtain ⟨hg', hx, ha⟩ := hm
      obtain ⟨ht', hy, hb⟩ := hm'
      have h' := h.grow hx.toExtends hy.toExtends hg' ht'
      exact .ok h' hx.toExtends hy.toExtends (hQ a b g' t' h' hx.toExtends hy.toExtends ha hb)

section Lists

variable {P : α → β → Graph → Graph → Prop} {as : List α} {bs : List β}

theorem mapM {f : α → Build γ} {f' : β → Build δ} (hP : Persistent V W P) (hR : Persistent V W R)
    (hf : ∀ {a b g t}, Facing V W g t → P a b g t → Mirrors V W (f a) (f' b) g t R)
    (hgt : Facing V W g t) (has : List.Forall₂ (fun a b => P a b g t) as bs) :
    Mirrors V W (as.mapM f) (bs.mapM f') g t fun cs ds g' t' =>
      List.Forall₂ (fun c d => R c d g' t') cs ds := by
  induction as generalizing g t bs with
  | nil =>
    cases has
    exact .pure hgt .nil
  | cons a as ih =>
    cases has with
    | cons ha has =>
      rw [List.mapM_cons, List.mapM_cons]
      apply (hf hgt ha).bind
      intro c d g' t' hgt' hx hy hcd
      apply (ih hgt' (hP.forall₂ hgt hgt' hx hy has)).bind
      intro cs ds g'' t'' hgt'' hx' hy' hcds
      exact .pure hgt'' (.cons (hR hgt' hgt'' hx' hy' hcd) hcds)

theorem foldlM {f : γ → α → Build γ} {f' : δ → β → Build δ} {c : γ} {d : δ}
    (hP : Persistent V W P)
    (hf : ∀ {c d a b g t}, Facing V W g t → R c d g t → P a b g t →
      Mirrors V W (f c a) (f' d b) g t R)
    (hgt : Facing V W g t) (hcd : R c d g t) (has : List.Forall₂ (fun a b => P a b g t) as bs) :
    Mirrors V W (as.foldlM f c) (bs.foldlM f' d) g t R := by
  induction as generalizing g t bs c d with
  | nil =>
    cases has
    exact .pure hgt hcd
  | cons a as ih =>
    cases has with
    | cons ha has =>
      rw [List.foldlM_cons, List.foldlM_cons]
      apply (hf hgt hcd ha).bind
      intro c' d' g' t' hgt' hx hy hcd'
      exact ih hgt' hcd' (hP.forall₂ hgt hgt' hx hy has)

theorem filterMapM {f : α → Build (Option γ)} {f' : β → Build (Option δ)}
    (hP : Persistent V W P) (hR : Persistent V W R)
    (hf : ∀ {a b g t}, Facing V W g t → P a b g t →
      Mirrors V W (f a) (f' b) g t fun r r' g' t' => Option.Rel (fun c d => R c d g' t') r r')
    (hgt : Facing V W g t) (has : List.Forall₂ (fun a b => P a b g t) as bs) :
    Mirrors V W (as.filterMapM f) (bs.filterMapM f') g t fun cs ds g' t' =>
      List.Forall₂ (fun c d => R c d g' t') cs ds := by
  induction as generalizing g t bs with
  | nil =>
    cases has
    exact .pure hgt .nil
  | cons a as ih =>
    cases has with
    | cons ha has =>
      rw [List.filterMapM_cons, List.filterMapM_cons]
      apply (hf hgt ha).bind
      intro r r' g' t' hgt' hx hy hrr
      have hrest := ih hgt' (hP.forall₂ hgt hgt' hx hy has)
      cases hrr with
      | none => exact hrest
      | some hcd =>
        apply hrest.bind
        intro cs ds g'' t'' hgt'' hx' hy' hcds
        exact .pure hgt'' (.cons (hR hgt' hgt'' hx' hy' hcd) hcds)

end Lists

end Mirrors

/-! ### Single nodes -/

theorem Twins.lt_left (h : Twins V W g t x y) : x < g.size := h.left.lt_size

theorem Twins.lt_right (h : Twins V W g t x y) : y < t.size := h.right.lt_size

theorem forall₂_lt_left (h : List.Forall₂ (Twins V W g t) xs ys) : ∀ x ∈ xs, x < g.size := by
  intro x hx
  obtain ⟨i, hi, rfl⟩ := List.getElem_of_mem hx
  exact (h.get hi (h.length_eq ▸ hi)).lt_left

theorem forall₂_lt_right (h : List.Forall₂ (Twins V W g t) xs ys) : ∀ y ∈ ys, y < t.size := by
  intro y hy
  obtain ⟨i, hi, rfl⟩ := List.getElem_of_mem hy
  exact (h.get (h.length_eq ▸ hi) hi).lt_right

/-- Nodes of a kind that is covered whatever its number. -/
theorem intern_mirrors (hgt : Facing V W g t) (hsym : ¬ s.IsSymbol) (hcall : ∀ f, s ≠ .call f)
    (harity : s.Allows xs.length) (hV : ∀ x, V.Covers x s) (hW : ∀ y, W.Covers y s)
    (h : List.Forall₂ (Twins V W g t) xs ys) :
    MirrorsNodes V W (intern s xs) (intern s ys) g t := by
  refine .of_meets hgt
    (intern_node hgt.left.wellFormed hsym hcall harity (forall₂_lt_left h))
    (intern_node hgt.right.wellFormed hsym hcall (h.length_eq ▸ harity) (forall₂_lt_right h)) ?_
  intro x y g' t' hgt' hx hy hn hn'
  exact .of_node hgt' hn.1 hn'.1 hn.2 hn'.2 (hV x) (hW y)
    ((persistent_twins V W).forall₂ hgt hgt' hx hy h)

theorem constant_mirrors (hgt : Facing V W g t) (q : Rat) :
    MirrorsNodes V W (constant q) (constant q) g t :=
  intern_mirrors hgt id (fun _ => Shape.noConfusion) (by exact rfl) (fun _ => trivial)
    (fun _ => trivial) .nil

theorem unary_mirrors (hgt : Facing V W g t) (op : Operator) (h : Twins V W g t x y) :
    MirrorsNodes V W (unary op x) (unary op y) g t :=
  intern_mirrors hgt id (fun _ => Shape.noConfusion) (by exact rfl) (fun _ => trivial)
    (fun _ => trivial) (.cons h .nil)

theorem binary_mirrors (hgt : Facing V W g t) {op : Operator} (hV : V.operators op)
    (hW : W.operators op) (h : Twins V W g t x y) (h' : Twins V W g t x' y') :
    MirrorsNodes V W (binary op x x') (binary op y y') g t :=
  intern_mirrors hgt id (fun _ => Shape.noConfusion) (by exact rfl) (fun _ => hV)
    (fun _ => hW) (.cons h (.cons h' .nil))

theorem arrow_mirrors (hgt : Facing V W g t) (h : Twins V W g t x y) (h' : Twins V W g t x' y') :
    MirrorsNodes V W (arrow x x') (arrow y y') g t :=
  intern_mirrors hgt id (fun _ => Shape.noConfusion) (by exact rfl) (fun _ => trivial)
    (fun _ => trivial) (.cons h (.cons h' .nil))

theorem set_mirrors (hgt : Facing V W g t) (h : List.Forall₂ (Twins V W g t) xs ys) :
    MirrorsNodes V W (set xs) (set ys) g t :=
  intern_mirrors hgt id (fun _ => Shape.noConfusion) (by trivial) (fun _ => trivial)
    (fun _ => trivial) h

/-! ### Sums, products and powers -/

theorem forall₂_flatMap {R : NodeId → NodeId → Prop} {f f' : NodeId → List NodeId}
    (h : List.Forall₂ R xs ys) (hf : ∀ x y, R x y → List.Forall₂ R (f x) (f' y)) :
    List.Forall₂ R (xs.flatMap f) (ys.flatMap f') :=
  List.rel_flatMap h fun _ _ hxy => hf _ _ hxy

theorem forall₂_filter {α β : Type} {R : α → β → Prop} {p : α → Bool} {p' : β → Bool}
    {as : List α} {bs : List β} (h : List.Forall₂ R as bs) (hp : ∀ a b, R a b → p a = p' b) :
    List.Forall₂ R (as.filter p) (bs.filter p') :=
  List.rel_filter (fun _ _ hab => iff_of_eq (congrArg (· = true) (hp _ _ hab))) h

theorem flattenSum_twins (hgt : Facing V W g t) (h : List.Forall₂ (Twins V W g t) xs ys) :
    List.Forall₂ (Twins V W g t) (g.flattenSum xs) (t.flattenSum ys) := by
  rw [flattenSum_eq_filter, flattenSum_eq_filter]
  apply forall₂_filter (forall₂_flatMap h fun _ _ h => h.terms hgt)
  exact fun x y h => by rw [h.hasValue_eq hgt]

theorem flattenProduct_twins (hgt : Facing V W g t) (h : List.Forall₂ (Twins V W g t) xs ys) :
    List.Forall₂ (Twins V W g t) (g.flattenProduct xs) (t.flattenProduct ys) := by
  rw [flattenProduct_eq_filter, flattenProduct_eq_filter]
  apply forall₂_filter (forall₂_flatMap h fun _ _ h => h.factors hgt)
  exact fun x y h => by rw [h.hasValue_eq hgt]

theorem collapses_twins {unit : NodeId} {le le' : NodeId → NodeId → Bool}
    (hgt : Facing V W g t) (hgt' : Facing V W g' t') (hx : g.Extends g') (hy : t.Extends t')
    (hs : s = .sum ∨ s = .product) (hunit : Twins V W g t unit unit)
    (hxs : List.Forall₂ (Twins V W g t) xs ys)
    (hle : ∀ a b a' b', Twins V W g t a a' → Twins V W g t b b' → le a b = le' a' b')
    (h : Collapses g g' s unit le xs x) (h' : Collapses t t' s unit le' ys y) :
    Twins V W g' t' x y := by
  have hlen := hxs.length_eq
  cases h with
  | nil =>
    cases h' with
    | nil => exact hunit.grow hgt hgt' hx hy
    | single => cases hlen
    | node _ hlen' => cases hxs; cases hlen'
  | single =>
    cases h' with
    | nil => cases hlen
    | single =>
      cases hxs with
      | cons h _ => exact h.grow hgt hgt' hx hy
    | node _ hlen' =>
      rw [← hlen] at hlen'
      cases hlen' with
      | step h => cases h
  | node hlt hlen' hn =>
    cases h' with
    | nil =>
      rw [hlen] at hlen'
      cases hlen'
    | single =>
      rw [hlen] at hlen'
      cases hlen' with
      | step h => cases h
    | node hlt' _ hn' =>
      have hcovers : ∀ (U : Vocabulary) z, U.Covers z s := by
        rcases hs with rfl | rfl <;> exact fun _ _ => trivial
      exact .of_node hgt' hlt hlt' hn hn' (hcovers V x) (hcovers W y)
        ((persistent_twins V W).forall₂ hgt hgt' hx hy (forall₂_mergeSort hxs hle))

theorem sum_mirrors (hgt : Facing V W g t) (h : List.Forall₂ (Twins V W g t) xs ys) :
    MirrorsNodes V W (sum xs) (sum ys) g t := by
  refine .of_meets hgt (sum_meets hgt.left.wellFormed (forall₂_lt_left h))
    (sum_meets hgt.right.wellFormed (forall₂_lt_right h)) ?_
  intro x y g' t' hgt' hx hy hc hc'
  exact collapses_twins hgt hgt' hx hy (.inl rfl) hgt.zero (flattenSum_twins hgt h)
    (fun _ _ _ _ ha hb => ha.sumLe_eq hb hgt) hc hc'

theorem exists_zero_iff (hgt : Facing V W g t) (h : List.Forall₂ (Twins V W g t) xs ys) :
    (∃ x ∈ xs, g.value? x = some 0) ↔ ∃ y ∈ ys, t.value? y = some 0 := by
  induction h with
  | nil => simp
  | cons hxy _ ih => simp only [List.exists_mem_cons_iff, hxy.value?_eq hgt, ih]

theorem product_mirrors (hgt : Facing V W g t) (h : List.Forall₂ (Twins V W g t) xs ys) :
    MirrorsNodes V W (product xs) (product ys) g t := by
  have hflat := flattenProduct_twins hgt h
  have hzero := exists_zero_iff hgt hflat
  refine .of_meets hgt (product_meets hgt.left.wellFormed (forall₂_lt_left h))
    (product_meets hgt.right.wellFormed (forall₂_lt_right h)) ?_
  rintro x y g' t' hgt' hx hy (⟨hz, rfl⟩ | ⟨hn, hc⟩) (⟨hz', rfl⟩ | ⟨hn', hc'⟩)
  · exact hgt'.zero
  · obtain ⟨y, hy, hv⟩ := hzero.1 hz
    exact absurd hv (hn' y hy)
  · obtain ⟨x, hx, hv⟩ := hzero.2 hz'
    exact absurd hv (hn x hx)
  · exact collapses_twins hgt hgt' hx hy (.inr rfl) hgt.one hflat
      (fun _ _ _ _ ha hb => ha.productLe_eq hb hgt) hc hc'

theorem power_mirrors (hgt : Facing V W g t) (h : Twins V W g t x y) (h' : Twins V W g t x' y') :
    MirrorsNodes V W (power x x') (power y y') g t := by
  apply Mirrors.get
  apply Mirrors.ite (by rw [h'.hasValue_eq hgt])
  · exact fun _ => .pure hgt h
  · exact fun _ => intern_mirrors hgt id (fun _ => Shape.noConfusion) (by exact rfl)
      (fun _ => trivial) (fun _ => trivial) (.cons h (.cons h' .nil))

theorem pick_mirrors (hgt : Facing V W g t) (h : List.Forall₂ (Twins V W g t) xs ys)
    (position : Nat) : MirrorsNodes V W (pick xs position) (pick ys position) g t := by
  unfold pick
  by_cases hi : position < xs.length
  · have hi' : position < ys.length := h.length_eq ▸ hi
    rw [List.getElem?_eq_getElem hi, List.getElem?_eq_getElem hi']
    exact .pure hgt (h.get hi hi')
  · have hi' : ¬ position < ys.length := h.length_eq ▸ hi
    rw [List.getElem?_eq_none (Nat.le_of_not_lt hi), List.getElem?_eq_none (Nat.le_of_not_lt hi'),
      h.length_eq]
    exact .throw _

theorem pickPair_mirrors (hgt : Facing V W g t) (h : List.Forall₂ (Twins V W g t) xs ys) :
    Mirrors V W (pickPair xs) (pickPair ys) g t fun p q g' t' =>
      Twins V W g' t' p.1 q.1 ∧ Twins V W g' t' p.2 q.2 := by
  apply (pick_mirrors hgt h 1).bind
  intro r r' g₁ t₁ hgt₁ hx₁ hy₁ hr
  apply (pick_mirrors hgt₁ ((persistent_twins V W).forall₂ hgt hgt₁ hx₁ hy₁ h) 0).bind
  intro l l' g₂ t₂ hgt₂ hx₂ hy₂ hl
  exact .pure hgt₂ ⟨hl, hr.grow hgt₁ hgt₂ hx₂ hy₂⟩

/-- Nodes of the same kind over other operands. -/
theorem withOperands_mirrors (hgt : Facing V W g t) (h : Twins V W g t x y)
    (hxs : List.Forall₂ (Twins V W g t) xs ys) :
    MirrorsNodes V W (withOperands x xs) (withOperands y ys) g t := by
  have hcov := h.left.covers
  have hcov' := h.right.covers
  have hshape := h.shape_eq hgt
  apply Mirrors.get
  rw [← hshape] at hcov' ⊢
  cases hs : g.shape x with
  | constant | symbol => exact .pure hgt h
  | sum => exact sum_mirrors hgt hxs
  | product => exact product_mirrors hgt hxs
  | power => exact (pickPair_mirrors hgt hxs).bind fun _ _ _ _ hgt' _ _ h =>
      power_mirrors hgt' h.1 h.2
  | binary op =>
    rw [hs] at hcov hcov'
    exact (pickPair_mirrors hgt hxs).bind fun _ _ _ _ hgt' _ _ h =>
      binary_mirrors hgt' hcov hcov' h.1 h.2
  | unary op => exact (pick_mirrors hgt hxs 0).bind fun _ _ _ _ hgt' _ _ h =>
      unary_mirrors hgt' op h
  | call f =>
    rw [hs] at hcov
    exact absurd hcov (hgt.left.no_callees f)
  | set => exact set_mirrors hgt hxs
  | arrow => exact (pickPair_mirrors hgt hxs).bind fun _ _ _ _ hgt' _ _ h =>
      arrow_mirrors hgt' h.1 h.2

theorem negate_mirrors (hgt : Facing V W g t) (h : Twins V W g t x y) :
    MirrorsNodes V W (negate x) (negate y) g t := by
  apply (constant_mirrors hgt (-1)).bind
  intro c c' g' t' hgt' hx hy hc
  exact product_mirrors hgt' (.cons hc (.cons (h.grow hgt hgt' hx hy) .nil))

theorem subtract_mirrors (hgt : Facing V W g t) (h : Twins V W g t x y)
    (h' : Twins V W g t x' y') : MirrorsNodes V W (subtract x x') (subtract y y') g t := by
  apply (negate_mirrors hgt h').bind
  intro z z' g' t' hgt' hx hy hz
  exact sum_mirrors hgt' (.cons (h.grow hgt hgt' hx hy) (.cons hz .nil))

theorem powerOf_mirrors (hgt : Facing V W g t) (h : Twins V W g t x y) (e : Rat) :
    MirrorsNodes V W (powerOf x e) (powerOf y e) g t := by
  apply (constant_mirrors hgt e).bind
  intro c c' g' t' hgt' hx hy hc
  exact power_mirrors hgt' (h.grow hgt hgt' hx hy) hc

theorem divide_mirrors (hgt : Facing V W g t) (h : Twins V W g t x y)
    (h' : Twins V W g t x' y') : MirrorsNodes V W (divide x x') (divide y y') g t := by
  apply (powerOf_mirrors hgt h' (-1)).bind
  intro z z' g' t' hgt' hx hy hz
  exact product_mirrors hgt' (.cons (h.grow hgt hgt' hx hy) (.cons hz .nil))

end ExactAlgebra.Graph
