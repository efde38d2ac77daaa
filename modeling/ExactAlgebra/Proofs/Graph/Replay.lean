import ExactAlgebra.Proofs.Graph.Elementary

/-!
Constructions from elementary expressions can be repeated: in every later graph they lead to the
same node again, and add nothing.
-/

namespace ExactAlgebra.Graph

variable {α β : Type} {V : Vocabulary} {g g' t : Graph} {s : Shape} {x y : NodeId}
variable {xs : List NodeId} {Q Q' : α → Graph → Prop} {R : β → Graph → Prop}

/-- A construction with an outcome in `Q`, which is the outcome in every later graph too. -/
def Replays (V : Vocabulary) (m : Build α) (g : Graph) (Q : α → Graph → Prop) : Prop :=
  Meets AnyError m g fun a g' =>
    Q a g' ∧ ∀ t, t.WellFormed → g'.Retains V t → m t = .ok a t

namespace Replays

theorem pure {a : α} (hg : g.WellFormed) (h : Q a g) :
    Replays V (Pure.pure a : Build α) g Q :=
  Meets.pure hg ⟨h, fun _ _ _ => rfl⟩

theorem throw {e : Error} (hg : g.WellFormed) :
    Replays V (MonadExcept.throw e : Build α) g Q :=
  Meets.throw hg trivial

theorem bind {m : Build α} {f : α → Build β} (hm : Replays V m g Q)
    (hf : ∀ a g', g'.WellFormed → g.Extends g' → Q a g' → Replays V (f a) g' R) :
    Replays V (m >>= f) g R := by
  apply Meets.bind hm
  rintro a g' hg' hx ⟨hQ, hm'⟩
  apply (hf a g' hg' hx hQ).mono
  rintro b g'' - hx' ⟨hR, hf'⟩
  refine ⟨hR, fun t ht hr => ?_⟩
  simp only [Bind.bind, EStateM.bind, hm' t ht (hx'.retains.trans hr), hf' t ht hr]

theorem mono {m : Build α} (hm : Replays V m g Q)
    (hQ : ∀ a g', g'.WellFormed → g.Extends g' → Q a g' → Q' a g') : Replays V m g Q' :=
  Meets.mono hm fun a g' hg' hx h => ⟨hQ a g' hg' hx h.1, h.2⟩

/-- What is read of a graph has to be the same in every later one. -/
theorem get {f : Graph → Build β} (hf : ∀ t, t.WellFormed → g.Retains V t → f t = f g)
    (h : Replays V (f g) g R) : Replays V (MonadState.get >>= f) g R := by
  apply Meets.get
  apply Meets.mono h
  rintro b g' - hx ⟨hR, hb⟩
  refine ⟨hR, fun t ht hr => ?_⟩
  rw [get_bind, hf t ht (hx.retains.trans hr)]
  exact hb t ht hr

theorem ite {c : Prop} [Decidable c] {m m' : Build α} (h : c → Replays V m g Q)
    (h' : ¬ c → Replays V m' g Q) : Replays V (if c then m else m') g Q := by
  split
  · exact h ‹_›
  · exact h' ‹_›

variable {P : Graph → α → Prop} {I : Graph → β → Prop} {as : List α}

theorem mapM {f : α → Build β} (hP : ∀ {g g' : Graph} {a}, g.Extends g' → P g a → P g' a)
    (hI : ∀ {g g' : Graph} {b}, g.Extends g' → I g b → I g' b)
    (hf : ∀ {g : Graph} {a}, g.WellFormed → P g a → Replays V (f a) g fun b g' => I g' b)
    (hg : g.WellFormed) (has : ∀ a ∈ as, P g a) :
    Replays V (as.mapM f) g fun bs g' => ∀ b ∈ bs, I g' b := by
  induction as generalizing g with
  | nil => exact .pure hg fun _ hb => absurd hb List.not_mem_nil
  | cons a as ih =>
    rw [List.mapM_cons]
    apply (hf hg (has a (List.mem_cons_self ..))).bind
    intro b g' hg' hx hb
    apply (ih hg' fun a' ha' => hP hx (has a' (List.mem_cons_of_mem _ ha'))).bind
    intro bs g'' hg'' hx' hbs
    exact .pure hg'' (List.forall_mem_cons.2 ⟨hI hx' hb, hbs⟩)

theorem foldlM {f : β → α → Build β} {b : β}
    (hP : ∀ {g g' : Graph} {a}, g.Extends g' → P g a → P g' a)
    (hf : ∀ {g : Graph} {b a}, g.WellFormed → I g b → P g a →
      Replays V (f b a) g fun b' g' => I g' b')
    (hg : g.WellFormed) (hb : I g b) (has : ∀ a ∈ as, P g a) :
    Replays V (as.foldlM f b) g fun b' g' => I g' b' := by
  induction as generalizing g b with
  | nil => exact .pure hg hb
  | cons a as ih =>
    rw [List.foldlM_cons]
    apply (hf hg hb (has a (List.mem_cons_self ..))).bind
    intro b' g' hg' hx hb'
    exact ih hg' hb' fun a' ha' => hP hx (has a' (List.mem_cons_of_mem _ ha'))

theorem filterMapM {f : α → Build (Option β)}
    (hP : ∀ {g g' : Graph} {a}, g.Extends g' → P g a → P g' a)
    (hI : ∀ {g g' : Graph} {b}, g.Extends g' → I g b → I g' b)
    (hf : ∀ {g : Graph} {a}, g.WellFormed → P g a →
      Replays V (f a) g fun r g' => ∀ b, r = some b → I g' b)
    (hg : g.WellFormed) (has : ∀ a ∈ as, P g a) :
    Replays V (as.filterMapM f) g fun bs g' => ∀ b ∈ bs, I g' b := by
  induction as generalizing g with
  | nil => exact .pure hg fun _ hb => absurd hb List.not_mem_nil
  | cons a as ih =>
    rw [List.filterMapM_cons]
    apply (hf hg (has a (List.mem_cons_self ..))).bind
    intro r g' hg' hx hr
    have hrest := ih hg' fun a' ha' => hP hx (has a' (List.mem_cons_of_mem _ ha'))
    cases r with
    | none => exact hrest
    | some b =>
      apply hrest.bind
      intro bs g'' hg'' hx' hbs
      exact .pure hg'' (List.forall_mem_cons.2 ⟨hI hx' (hr b rfl), hbs⟩)

end Replays

/-! ### Single nodes -/

/-- A node that is no symbol is found again by its shape and operands. -/
theorem intern_eq_ok (ht : t.WellFormed) (hx : x < t.size)
    (hn : t.node x = { shape := s, operands := xs }) (hs : ¬ s.IsSymbol) :
    intern s xs t = .ok x t := by
  have hindex := ht.node_index x hx
  rw [isLoop, shape, operands, hn] at hindex
  rw [intern_eq, hindex rfl hs]

theorem intern_replays (hg : g.WellFormed) (hs : ¬ s.IsSymbol) (hV : ∀ x, V.Covers x s)
    (hcall : ∀ f, s = .call f → f ∈ g.callees) (harity : s.Allows xs.length)
    (hxs : ∀ y ∈ xs, g.Elementary V y) :
    Replays V (intern s xs) g fun x g' => g'.Elementary V x := by
  have hm := intern_meets hg ⟨fun y hy => (hxs y hy).lt_size, hcall, harity⟩
  apply (hm.mono_error fun _ _ _ => trivial).mono
  rintro x g' hg' hx ⟨hlt, hnode⟩
  have hn := hnode hs
  have he := Elementary.of_node hlt hn (hV x) fun y hy => hx.elementary (hxs y hy)
  refine ⟨he, fun t ht hr => ?_⟩
  exact intern_eq_ok ht (hr.lt_size hlt) ((hr.node_eq_of_elementary he).trans hn) hs

variable (V) in
theorem constant_replays (hg : g.WellFormed) (q : Rat) :
    Replays V (constant q) g fun x g' => g'.Elementary V x :=
  intern_replays hg id (fun _ => trivial) (fun _ => Shape.noConfusion) (by exact rfl)
    fun _ hy => absurd hy List.not_mem_nil

theorem binary_replays (hg : g.WellFormed) {op : Operator} (hop : V.operators op)
    (hx : g.Elementary V x) (hy : g.Elementary V y) :
    Replays V (binary op x y) g fun z g' => g'.Elementary V z := by
  have hcov : ∀ x, V.Covers x (.binary op) := fun _ => hop
  exact intern_replays hg id hcov (fun _ => Shape.noConfusion) (by exact rfl) (by simp [hx, hy])

theorem unary_replays (hg : g.WellFormed) (op : Operator) (hx : g.Elementary V x) :
    Replays V (unary op x) g fun z g' => g'.Elementary V z :=
  intern_replays hg id (fun _ => trivial) (fun _ => Shape.noConfusion) (by exact rfl)
    (by simp [hx])

theorem set_replays (hg : g.WellFormed) (hxs : ∀ x ∈ xs, g.Elementary V x) :
    Replays V (set xs) g fun z g' => g'.Elementary V z :=
  intern_replays hg id (fun _ => trivial) (fun _ => Shape.noConfusion) (by trivial) hxs

theorem arrow_replays (hg : g.WellFormed) (hx : g.Elementary V x) (hy : g.Elementary V y) :
    Replays V (arrow x y) g fun z g' => g'.Elementary V z :=
  intern_replays hg id (fun _ => trivial) (fun _ => Shape.noConfusion) (by exact rfl)
    (by simp [hx, hy])

theorem register_replays (hg : g.WellFormed) (f : Callee) :
    Replays V (register f) g fun _ g' => f ∈ g'.callees := by
  apply (register_meets hg f).mono
  rintro ⟨⟩ g' - - hf
  refine ⟨hf, fun t _ hr => ?_⟩
  have hmem : t.callees.contains f = true := by
    rw [Array.contains_eq_mem, decide_eq_true_eq, ← Array.mem_toList_iff]
    exact hr.callees_prefix.subset (Array.mem_toList_iff.2 hf)
  have heq : register f t =
      .ok () (if t.callees.contains f then t else { t with callees := t.callees.push f }) := rfl
  rw [heq, if_pos hmem]

theorem call_replays (hg : g.WellFormed) {f : Callee} (hf : V.callees f)
    (hxs : ∀ x ∈ xs, g.Elementary V x) :
    Replays V (call f xs) g fun z g' => g'.Elementary V z := by
  apply (register_replays hg f).bind
  intro _ g' hg' hx hmem
  have hcov : ∀ x, V.Covers x (.call f) := fun _ => hf
  refine intern_replays hg' id hcov ?_ (by trivial) fun x hx' => hx.elementary (hxs x hx')
  rintro _ ⟨⟩
  exact hmem

/-! ### Sums, products and powers -/

theorem Elementary.terms (h : g.Elementary V x) : ∀ y ∈ g.terms x, g.Elementary V y := by
  intro y hy
  rw [Graph.terms] at hy
  split at hy
  · exact h.operands y hy
  · exact List.mem_singleton.1 hy ▸ h

theorem Elementary.factors (h : g.Elementary V x) : ∀ y ∈ g.factors x, g.Elementary V y := by
  intro y hy
  rw [Graph.factors] at hy
  split at hy
  · exact h.operands y hy
  · exact List.mem_singleton.1 hy ▸ h

theorem flattenSum_eq_filter (g : Graph) (xs : List NodeId) :
    g.flattenSum xs = (xs.flatMap g.terms).filter fun x => !g.hasValue 0 x := rfl

theorem flattenProduct_eq_filter (g : Graph) (xs : List NodeId) :
    g.flattenProduct xs = (xs.flatMap g.factors).filter fun x => !g.hasValue 1 x := rfl

theorem elementary_flattenSum (hxs : ∀ x ∈ xs, g.Elementary V x) :
    ∀ y ∈ g.flattenSum xs, g.Elementary V y := by
  intro y hy
  rw [flattenSum_eq_filter] at hy
  obtain ⟨x, hx, hy⟩ := List.mem_flatMap.1 (List.mem_filter.1 hy).1
  exact (hxs x hx).terms y hy

theorem elementary_flattenProduct (hxs : ∀ x ∈ xs, g.Elementary V x) :
    ∀ y ∈ g.flattenProduct xs, g.Elementary V y := by
  intro y hy
  rw [flattenProduct_eq_filter] at hy
  obtain ⟨x, hx, hy⟩ := List.mem_flatMap.1 (List.mem_filter.1 hy).1
  exact (hxs x hx).factors y hy

namespace Agree

variable {P : NodeId → Prop}

theorem terms_eq (h : Agree P g t) (hx : P x) : t.terms x = g.terms x := by
  rw [terms, terms, h.node_eq x hx, h.operands_eq hx]

theorem factors_eq (h : Agree P g t) (hx : P x) : t.factors x = g.factors x := by
  rw [factors, factors, h.node_eq x hx, h.operands_eq hx]

theorem of_mem_terms (h : Agree P g t) (hx : P x) : ∀ y ∈ g.terms x, P y := by
  intro y hy
  rw [terms] at hy
  split at hy
  · exact h.operands x hx y hy
  · exact List.mem_singleton.1 hy ▸ hx

theorem of_mem_factors (h : Agree P g t) (hx : P x) : ∀ y ∈ g.factors x, P y := by
  intro y hy
  rw [factors] at hy
  split at hy
  · exact h.operands x hx y hy
  · exact List.mem_singleton.1 hy ▸ hx

theorem flattenSum_eq (h : Agree P g t) (hxs : ∀ x ∈ xs, P x) :
    t.flattenSum xs = g.flattenSum xs := by
  rw [flattenSum_eq_filter, flattenSum_eq_filter,
    List.flatMap_congr fun x hx => h.terms_eq (hxs x hx)]
  apply List.filter_congr
  intro y hy
  obtain ⟨x, hx, hy⟩ := List.mem_flatMap.1 hy
  rw [h.hasValue_eq (h.of_mem_terms (hxs x hx) y hy)]

theorem flattenProduct_eq (h : Agree P g t) (hxs : ∀ x ∈ xs, P x) :
    t.flattenProduct xs = g.flattenProduct xs := by
  rw [flattenProduct_eq_filter, flattenProduct_eq_filter,
    List.flatMap_congr fun x hx => h.factors_eq (hxs x hx)]
  apply List.filter_congr
  intro y hy
  obtain ⟨x, hx, hy⟩ := List.mem_flatMap.1 hy
  rw [h.hasValue_eq (h.of_mem_factors (hxs x hx) y hy)]

end Agree

theorem sum_replays (hg : g.WellFormed) (hxs : ∀ x ∈ xs, g.Elementary V x) :
    Replays V (sum xs) g fun z g' => g'.Elementary V z := by
  have hflat := elementary_flattenSum hxs
  apply Replays.get
  · intro t ht hr
    have ha := hr.agree hg
    have hsort := ha.mergeSort_sumLe hg ht fun x hx =>
      ⟨hflat x hx, hr.lt_size (hflat x hx).lt_size⟩
    rw [ha.flattenSum_eq hxs]
    match hys : g.flattenSum xs with
    | [] => rfl
    | [y] => rfl
    | y :: z :: ys => rw [hys] at hsort; simp only [hsort]
  · match hys : g.flattenSum xs with
    | [] => exact .pure hg hg.elementary_zero
    | [y] => exact .pure hg (hflat y (by simp [hys]))
    | y :: z :: ys =>
      refine intern_replays hg id (fun _ => trivial) (fun _ => Shape.noConfusion) (by trivial) ?_
      intro x hx
      exact hflat x (hys ▸ List.mem_mergeSort.1 hx)

theorem product_replays (hg : g.WellFormed) (hxs : ∀ x ∈ xs, g.Elementary V x) :
    Replays V (product xs) g fun z g' => g'.Elementary V z := by
  have hflat := elementary_flattenProduct hxs
  apply Replays.get
  · intro t ht hr
    have ha := hr.agree hg
    have hsort := ha.mergeSort_productLe hg ht fun x hx =>
      ⟨hflat x hx, hr.lt_size (hflat x hx).lt_size⟩
    have hzero : (g.flattenProduct xs).any (t.hasValue 0) =
        (g.flattenProduct xs).any (g.hasValue 0) := by
      rw [Bool.eq_iff_iff, List.any_eq_true, List.any_eq_true]
      exact exists_congr fun x => and_congr_right fun hx => by rw [ha.hasValue_eq (hflat x hx)]
    simp only [ha.flattenProduct_eq hxs, hzero]
    match hys : g.flattenProduct xs with
    | [] => rfl
    | [y] => rfl
    | y :: z :: ys => rw [hys] at hsort; simp only [hsort]
  · apply Replays.ite
    · exact fun _ => .pure hg hg.elementary_zero
    intro _
    match hys : g.flattenProduct xs with
    | [] => exact .pure hg hg.elementary_one
    | [y] => exact .pure hg (hflat y (by simp [hys]))
    | y :: z :: ys =>
      refine intern_replays hg id (fun _ => trivial) (fun _ => Shape.noConfusion) (by trivial) ?_
      intro x hx
      exact hflat x (hys ▸ List.mem_mergeSort.1 hx)

theorem power_replays (hg : g.WellFormed) (hx : g.Elementary V x) (hy : g.Elementary V y) :
    Replays V (power x y) g fun z g' => g'.Elementary V z := by
  apply Replays.get
  · intro t _ hr
    rw [(hr.agree hg).hasValue_eq hy]
  · apply Replays.ite
    · exact fun _ => .pure hg hx
    · intro _
      exact intern_replays hg id (fun _ => trivial) (fun _ => Shape.noConfusion) (by exact rfl)
        (by simp [hx, hy])

theorem pick_replays (hg : g.WellFormed) (hxs : ∀ x ∈ xs, g.Elementary V x) (position : Nat) :
    Replays V (pick xs position) g fun z g' => g'.Elementary V z := by
  unfold pick
  split
  · next hx => exact .pure hg (hxs _ (List.mem_of_getElem? hx))
  · exact .throw hg

theorem pickPair_replays (hg : g.WellFormed) (hxs : ∀ x ∈ xs, g.Elementary V x) :
    Replays V (pickPair xs) g fun p g' => g'.Elementary V p.1 ∧ g'.Elementary V p.2 := by
  apply (pick_replays hg hxs 1).bind
  intro r g' hg' hx hr
  apply (pick_replays hg' (fun x hx' => hx.elementary (hxs x hx')) 0).bind
  intro l g'' hg'' hx' hl
  exact .pure hg'' ⟨hl, hx'.elementary hr⟩

theorem withOperands_replays (hg : g.WellFormed) (hx : g.Elementary V x)
    (hxs : ∀ y ∈ xs, g.Elementary V y) :
    Replays V (withOperands x xs) g fun z g' => g'.Elementary V z := by
  apply Replays.get
  · intro t _ hr
    rw [(hr.agree hg).shape_eq hx]
  cases hs : g.shape x with
  | constant | symbol => exact .pure hg hx
  | sum => exact sum_replays hg hxs
  | product => exact product_replays hg hxs
  | power => exact (pickPair_replays hg hxs).bind fun _ _ hg' _ hp => power_replays hg' hp.1 hp.2
  | binary op =>
    have hop := hx.covers
    rw [hs] at hop
    exact (pickPair_replays hg hxs).bind fun _ _ hg' _ hp => binary_replays hg' hop hp.1 hp.2
  | unary op => exact (pick_replays hg hxs 0).bind fun _ _ hg' _ hy => unary_replays hg' op hy
  | call f =>
    have hf := hx.covers
    rw [hs] at hf
    apply intern_replays hg id (fun _ => hf) _ (by trivial) hxs
    rintro _ ⟨⟩
    exact hg.callee_mem x f hs
  | set => exact set_replays hg hxs
  | arrow => exact (pickPair_replays hg hxs).bind fun _ _ hg' _ hp => arrow_replays hg' hp.1 hp.2

end ExactAlgebra.Graph
