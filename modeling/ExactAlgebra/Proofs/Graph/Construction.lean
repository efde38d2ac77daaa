import ExactAlgebra.Proofs.Graph.Closure

/-!
What constructions do to a well-formed graph. The main statements give, for each way to build a
node, the node that results; they fail only when the graph is full.
-/

namespace ExactAlgebra.Graph

variable {α β : Type} {g g' : Graph} {s : Shape} {xs : List NodeId} {x y : NodeId}
variable {E E' : Error → Graph → Prop} {Q Q' : α → Graph → Prop} {R : β → Graph → Prop}

/--
A construction that starts from `g` ends well, with an outcome in `Q`, or with an error in `E`. In
both cases the graph it leaves is well formed, and came from `g` by adding nodes.
-/
def Meets (E : Error → Graph → Prop) (m : Build α) (g : Graph) (Q : α → Graph → Prop) : Prop :=
  match m g with
  | .ok a g' => g'.WellFormed ∧ g.GrowsTo g' ∧ Q a g'
  | .error e g' => g'.WellFormed ∧ g.GrowsTo g' ∧ E e g'

/-- There was no room for another node. -/
def Overflow (e : Error) (g : Graph) : Prop := e = .graphFull ∧ capacity ≤ g.size

/-- Nothing is said about errors. -/
def AnyError (_ : Error) (_ : Graph) : Prop := True

/-- A construction that only lets graphs grow, well formed, whatever its outcome. -/
def Grows (m : Build α) : Prop :=
  ∀ ⦃g : Graph⦄, g.WellFormed → Meets AnyError m g fun _ _ => True

theorem Meets.pure {a : α} (hg : g.WellFormed) (h : Q a g) :
    Meets E (Pure.pure a : Build α) g Q :=
  ⟨hg, .refl g, h⟩

theorem Meets.of_eq_ok {m : Build α} {a : α} (he : m g = .ok a g) (hg : g.WellFormed)
    (h : Q a g) : Meets E m g Q := by
  rw [Meets, he]
  exact ⟨hg, .refl g, h⟩

theorem Meets.congr {m m' : Build α} (he : m g = m' g) (h : Meets E m' g Q) : Meets E m g Q := by
  unfold Meets at h ⊢
  rwa [he]

theorem Meets.throw {e : Error} (hg : g.WellFormed) (h : E e g) :
    Meets E (MonadExcept.throw e : Build α) g Q :=
  ⟨hg, .refl g, h⟩

theorem Meets.bind {m : Build α} {f : α → Build β} (hm : Meets E m g Q)
    (hf : ∀ a g', g'.WellFormed → g.Extends g' → Q a g' → Meets E (f a) g' R) :
    Meets E (m >>= f) g R := by
  unfold Meets at hm ⊢
  simp only [Bind.bind, EStateM.bind]
  cases he : m g with
  | error e g' =>
    rw [he] at hm
    exact hm
  | ok a g' =>
    rw [he] at hm
    obtain ⟨hw, hx, hQ⟩ := hm
    have hfa := hf a g' hw hx.toExtends hQ
    unfold Meets at hfa
    cases ha : f a g' with
    | error e g'' =>
      simp only [ha] at hfa ⊢
      exact ⟨hfa.1, hx.trans hfa.2.1, hfa.2.2⟩
    | ok b g'' =>
      simp only [ha] at hfa ⊢
      exact ⟨hfa.1, hx.trans hfa.2.1, hfa.2.2⟩

theorem Meets.get {f : Graph → Build β} (h : Meets E (f g) g R) :
    Meets E (MonadState.get >>= f) g R := h

theorem Meets.mono {m : Build α} (h : Meets E m g Q)
    (hQ : ∀ a g', g'.WellFormed → g.Extends g' → Q a g' → Q' a g') : Meets E m g Q' := by
  unfold Meets at h ⊢
  cases he : m g with
  | error e g' => simpa only [he] using h
  | ok a g' =>
    simp only [he] at h ⊢
    exact ⟨h.1, h.2.1, hQ a g' h.1 h.2.1.toExtends h.2.2⟩

theorem Meets.mono_of_eq_ok {m : Build α} (h : Meets E m g Q)
    (hQ : ∀ a g', m g = .ok a g' → Q' a g') : Meets E m g Q' := by
  unfold Meets at h ⊢
  cases he : m g with
  | error e g' => simpa only [he] using h
  | ok a g' =>
    simp only [he] at h ⊢
    exact ⟨h.1, h.2.1, hQ a g' he⟩

theorem Meets.mono_error {m : Build α} (h : Meets E m g Q) (hE : ∀ e g', E e g' → E' e g') :
    Meets E' m g Q := by
  unfold Meets at h ⊢
  cases he : m g with
  | error e g' =>
    simp only [he] at h ⊢
    exact ⟨h.1, h.2.1, hE e g' h.2.2⟩
  | ok a g' => simpa only [he] using h

theorem Meets.and {m : Build α} (h : Meets E m g Q) (h' : Meets E' m g Q') :
    Meets E m g fun a g' => Q a g' ∧ Q' a g' := by
  unfold Meets at h h' ⊢
  cases he : m g with
  | error e g' => simpa only [he] using h
  | ok a g' =>
    simp only [he] at h h' ⊢
    exact ⟨h.1, h.2.1, h.2.2, h'.2.2⟩

theorem Meets.grows {m : Build α} (h : Meets E m g Q) : Meets AnyError m g fun _ _ => True :=
  (h.mono fun _ _ _ _ _ => trivial).mono_error fun _ _ _ => trivial

theorem Meets.ite {c : Prop} [Decidable c] {m m' : Build α} (h : c → Meets E m g Q)
    (h' : ¬ c → Meets E m' g Q) : Meets E (if c then m else m') g Q := by
  split
  · exact h ‹_›
  · exact h' ‹_›

/-- What is built for one element may rely on what was built for those before it. -/
theorem Meets.mapM {f : α → Build β} {P : Graph → α → Prop} {R : Graph → α → β → Prop}
    (hP : ∀ {g g' : Graph} {a}, g.WellFormed → g.Extends g' → P g a → P g' a)
    (hR : ∀ {g g' : Graph} {a b}, g.WellFormed → g.Extends g' → R g a b → R g' a b)
    (hf : ∀ {g : Graph} {a}, g.WellFormed → P g a → Meets E (f a) g fun b g' => R g' a b)
    {l : List α} (hg : g.WellFormed) (has : ∀ a ∈ l, P g a) :
    Meets E (l.mapM f) g fun bs g' => List.Forall₂ (R g') l bs := by
  induction l generalizing g with
  | nil => exact .pure hg .nil
  | cons a l ih =>
    rw [List.mapM_cons]
    refine (hf hg (has a (by simp))).bind fun b g' hg' hx hb => ?_
    have hrest := ih hg' fun a' ha' => hP hg hx (has a' (List.mem_cons_of_mem _ ha'))
    refine hrest.bind fun bs g'' hg'' hx' hbs => ?_
    exact .pure hg'' (.cons (hR hg' hx' hb) hbs)

theorem Meets.filterMapM {f : α → Build (Option β)} {P : Graph → α → Prop} {p : α → Bool}
    {R : Graph → α → β → Prop}
    (hP : ∀ {g g' : Graph} {a}, g.WellFormed → g.Extends g' → P g a → P g' a)
    (hR : ∀ {g g' : Graph} {a b}, g.WellFormed → g.Extends g' → R g a b → R g' a b)
    (hf : ∀ {g : Graph} {a}, g.WellFormed → P g a → Meets E (f a) g fun r g' =>
      (p a = false ∧ r = none) ∨ (p a = true ∧ ∃ b, r = some b ∧ R g' a b))
    {l : List α} (hg : g.WellFormed) (has : ∀ a ∈ l, P g a) :
    Meets E (l.filterMapM f) g fun bs g' => List.Forall₂ (R g') (l.filter p) bs := by
  induction l generalizing g with
  | nil => exact .pure hg .nil
  | cons a l ih =>
    rw [List.filterMapM_cons]
    refine (hf hg (has a (List.mem_cons_self ..))).bind fun r g' hg' hx hr => ?_
    have hrest := ih hg' fun a' ha' => hP hg hx (has a' (List.mem_cons_of_mem _ ha'))
    rcases hr with ⟨hk, rfl⟩ | ⟨hk, b, rfl, hb⟩
    · rw [List.filter_cons_of_neg (by simp [hk])]
      exact hrest
    · rw [List.filter_cons_of_pos hk]
      exact hrest.bind fun bs g'' hg'' hx' hbs => .pure hg'' (.cons (hR hg' hx' hb) hbs)

theorem Meets.foldlM {f : β → α → Build β} {b : β} {P : Graph → α → Prop} {I : Graph → β → Prop}
    (hP : ∀ {g g' : Graph} {a}, g.WellFormed → g.Extends g' → P g a → P g' a)
    (hf : ∀ {g : Graph} {b a}, g.WellFormed → I g b → P g a →
      Meets E (f b a) g fun b' g' => I g' b')
    {l : List α} (hg : g.WellFormed) (hb : I g b) (has : ∀ a ∈ l, P g a) :
    Meets E (l.foldlM f b) g fun b' g' => I g' b' := by
  induction l generalizing g b with
  | nil => exact .pure hg hb
  | cons a l ih =>
    rw [List.foldlM_cons]
    refine (hf hg hb (has a (List.mem_cons_self ..))).bind fun b' g' hg' hx hb' => ?_
    exact ih hg' hb' fun a' ha' => hP hg hx (has a' (List.mem_cons_of_mem _ ha'))

theorem Grows.pure (a : α) : Grows (Pure.pure a : Build α) := fun _ hg => .pure hg trivial

theorem Grows.throw (e : Error) : Grows (MonadExcept.throw e : Build α) :=
  fun _ hg => .throw hg trivial

theorem Grows.bind {m : Build α} {f : α → Build β} (hm : Grows m) (hf : ∀ a, Grows (f a)) :
    Grows (m >>= f) :=
  fun _ hg => (hm hg).bind fun a _ hg' _ _ => hf a hg'

/-! ### Single nodes -/

theorem intern_meets (hg : g.WellFormed) (hfit : g.Fits { shape := s, operands := xs }) :
    Meets Overflow (intern s xs) g fun x g' =>
      x < g'.size ∧ (¬ s.IsSymbol → g'.node x = { shape := s, operands := xs }) := by
  unfold Meets
  rw [intern_eq]
  cases hi : g.index[(s, xs)]? with
  | some x => exact ⟨hg, .refl g, hg.index_lt_size _ x hi, hg.index_node _ x hi⟩
  | none =>
    by_cases hc : capacity ≤ g.size
    · simp only [if_pos hc]
      exact ⟨hg, .refl g, rfl, hc⟩
    · have hall : xs.all (· < g.size) := List.all_eq_true.2 fun y hy =>
        decide_eq_true (hfit.operands_lt y hy)
      simp only [if_neg hc, if_pos hall]
      refine ⟨hg.extend hfit hi, growsTo_extend g s xs, ?_, fun _ => node_extend_self g s xs⟩
      rw [size_extend]
      exact Nat.lt_succ_self _

theorem intern_meets_anyError (hg : g.WellFormed) (hs : ∀ f, s = .call f → f ∈ g.callees)
    {xs : List NodeId} (hs' : s.Allows xs.length) :
    Meets AnyError (intern s xs) g fun _ _ => True := by
  by_cases hxs : ∀ y ∈ xs, y < g.size
  · exact (intern_meets hg ⟨hxs, hs, hs'⟩).grows
  · unfold Meets
    rw [intern_eq]
    cases g.index[(s, xs)]? with
    | some x => exact ⟨hg, .refl g, trivial⟩
    | none =>
      have hall : xs.all (· < g.size) ≠ true := fun h =>
        hxs fun y hy => of_decide_eq_true (List.all_eq_true.1 h y hy)
      by_cases hc : capacity ≤ g.size
      · simp only [if_pos hc]
        exact ⟨hg, .refl g, trivial⟩
      · simp only [if_neg hc, if_neg hall]
        exact ⟨hg, .refl g, trivial⟩

theorem intern_grows {xs : List NodeId} (hs : ∀ f, s ≠ .call f) (hs' : s.Allows xs.length) :
    Grows (intern s xs) :=
  fun _ hg => intern_meets_anyError hg (fun f hf => absurd hf (hs f)) hs'

/-- The node of a shape that is neither a symbol nor a call. -/
theorem intern_node (hg : g.WellFormed) (hs : ¬ s.IsSymbol) (hs' : ∀ f, s ≠ .call f)
    (hs'' : s.Allows xs.length) (hxs : ∀ y ∈ xs, y < g.size) :
    Meets Overflow (intern s xs) g fun x g' =>
      x < g'.size ∧ g'.node x = { shape := s, operands := xs } :=
  (intern_meets hg ⟨hxs, fun f hf => absurd hf (hs' f), hs''⟩).mono
    fun _ _ _ _ h => ⟨h.1, h.2 hs⟩

theorem intern_leaf (hg : g.WellFormed) (hs : ∀ f, s ≠ .call f) (hs' : s.Allows 0) :
    Meets Overflow (intern s []) g fun x g' =>
      x < g'.size ∧ (¬ s.IsSymbol → g'.node x = { shape := s }) :=
  intern_meets hg ⟨fun _ hy => absurd hy List.not_mem_nil, fun f hf => absurd hf (hs f), hs'⟩

theorem constant_meets (hg : g.WellFormed) (q : Rat) :
    Meets Overflow (constant q) g fun x g' => x < g'.size ∧ g'.node x = { shape := .constant q } :=
  (intern_leaf hg (fun _ => Shape.noConfusion) (by exact rfl)).mono fun _ _ _ _ h => ⟨h.1, h.2 id⟩

theorem symbol_meets (hg : g.WellFormed) (name : String) :
    Meets Overflow (symbol name) g fun x g' => x < g'.size :=
  (intern_leaf hg (fun _ => Shape.noConfusion) (by exact rfl)).mono fun _ _ _ _ h => h.1

theorem binary_meets (hg : g.WellFormed) (op : Operator) (hx : x < g.size) (hy : y < g.size) :
    Meets Overflow (binary op x y) g fun z g' =>
      z < g'.size ∧ g'.node z = { shape := .binary op, operands := [x, y] } :=
  intern_node hg id (fun _ => Shape.noConfusion) rfl (by simp [hx, hy])

theorem unary_meets (hg : g.WellFormed) (op : Operator) (hx : x < g.size) :
    Meets Overflow (unary op x) g fun z g' =>
      z < g'.size ∧ g'.node z = { shape := .unary op, operands := [x] } :=
  intern_node hg id (fun _ => Shape.noConfusion) rfl (by simp [hx])

theorem set_meets (hg : g.WellFormed) (hxs : ∀ y ∈ xs, y < g.size) :
    Meets Overflow (set xs) g fun z g' =>
      z < g'.size ∧ g'.node z = { shape := .set, operands := xs } :=
  intern_node hg id (fun _ => Shape.noConfusion) trivial hxs

theorem arrow_meets (hg : g.WellFormed) (hx : x < g.size) (hy : y < g.size) :
    Meets Overflow (arrow x y) g fun z g' =>
      z < g'.size ∧ g'.node z = { shape := .arrow, operands := [x, y] } :=
  intern_node hg id (fun _ => Shape.noConfusion) rfl (by simp [hx, hy])

/-! ### Calls -/

theorem WellFormed.callees_push (hg : g.WellFormed) (f : Callee) :
    { g with callees := g.callees.push f }.WellFormed :=
  { hg with callee_mem := fun x f' hf => Array.mem_push.2 (.inl (hg.callee_mem x f' hf)) }

theorem growsTo_callees_push (g : Graph) (f : Callee) :
    g.GrowsTo { g with callees := g.callees.push f } where
  size_le := Nat.le_refl _
  node_eq _ _ := rfl
  callees_prefix := by simp only [Array.toList_push, List.prefix_append]
  lt_of_isLoop _ hl := lt_size_of_isLoop (g := g) hl
  labels_eq := rfl
  forms_eq := rfl

theorem register_meets (hg : g.WellFormed) (f : Callee) :
    Meets E (register f) g fun _ g' => f ∈ g'.callees := by
  have heq : register f g =
      .ok () (if g.callees.contains f then g else { g with callees := g.callees.push f }) := rfl
  rw [Meets, heq]
  by_cases hf : g.callees.contains f
  · simp only [if_pos hf]
    exact ⟨hg, .refl g, by simpa using hf⟩
  · simp only [if_neg hf]
    exact ⟨hg.callees_push f, growsTo_callees_push g f, Array.mem_push_self⟩

theorem call_meets (hg : g.WellFormed) (f : Callee) (hxs : ∀ y ∈ xs, y < g.size) :
    Meets Overflow (call f xs) g fun z g' =>
      z < g'.size ∧ g'.node z = { shape := .call f, operands := xs } := by
  refine (register_meets hg f).bind fun _ g' hg' hx hf => ?_
  have hfit : g'.Fits { shape := .call f, operands := xs } := by
    refine ⟨fun y hy => hx.lt_size (hxs y hy), ?_, trivial⟩
    rintro f' ⟨⟩
    exact hf
  exact (intern_meets hg' hfit).mono fun _ _ _ _ h => ⟨h.1, h.2 id⟩

/-! ### Sums, products and powers -/

variable {ts fs : List NodeId}

theorem flattenSum_lt (hg : g.WellFormed) (hts : ∀ t ∈ ts, t < g.size) :
    ∀ y ∈ g.flattenSum ts, y < g.size := by
  intro y hy
  obtain ⟨t, ht, hy⟩ := List.mem_flatMap.1 (List.mem_filter.1 hy).1
  split at hy
  · exact hg.operands_lt_size t y hy
  · exact List.mem_singleton.1 hy ▸ hts t ht

theorem flattenProduct_lt (hg : g.WellFormed) (hfs : ∀ f ∈ fs, f < g.size) :
    ∀ y ∈ g.flattenProduct fs, y < g.size := by
  intro y hy
  obtain ⟨t, ht, hy⟩ := List.mem_flatMap.1 (List.mem_filter.1 hy).1
  split at hy
  · exact hg.operands_lt_size t y hy
  · exact List.mem_singleton.1 hy ▸ hfs t ht

/-- What a sum or a product of the operands `xs`, already flattened, comes to. -/
inductive Collapses (g g' : Graph) (s : Shape) (unit : NodeId) (le : NodeId → NodeId → Bool) :
    List NodeId → NodeId → Prop
  | nil : Collapses g g' s unit le [] unit
  | single {x : NodeId} (hx : x < g.size) : Collapses g g' s unit le [x] x
  | node {xs : List NodeId} {x : NodeId} (hlt : x < g'.size) (hlen : 2 ≤ xs.length)
      (hx : g'.node x = { shape := s, operands := xs.mergeSort le }) :
      Collapses g g' s unit le xs x

theorem sum_meets (hg : g.WellFormed) (hts : ∀ t ∈ ts, t < g.size) :
    Meets Overflow (sum ts) g fun y g' =>
      Collapses g g' .sum zero g.sumLe (g.flattenSum ts) y := by
  refine Meets.get ?_
  have hlt := flattenSum_lt hg hts
  match hxs : g.flattenSum ts with
  | [] => exact .pure hg .nil
  | [x] => exact .pure hg (.single (hlt x (by simp [hxs])))
  | x :: y :: xs =>
    refine (intern_node hg id (fun _ => Shape.noConfusion) (by trivial) ?_).mono fun z g' _ _ h =>
      .node h.1 (by simp) h.2
    intro y hy
    exact hlt y (hxs ▸ (List.mergeSort_perm _ _).mem_iff.1 hy)

theorem product_meets (hg : g.WellFormed) (hfs : ∀ f ∈ fs, f < g.size) :
    Meets Overflow (product fs) g fun y g' =>
      ((∃ x ∈ g.flattenProduct fs, g.value? x = some 0) ∧ y = zero) ∨
        ((∀ x ∈ g.flattenProduct fs, g.value? x ≠ some 0) ∧
          Collapses g g' .product one g.productLe (g.flattenProduct fs) y) := by
  refine Meets.get ?_
  have hlt := flattenProduct_lt hg hfs
  have hany : (g.flattenProduct fs).any (g.hasValue 0) ↔
      ∃ x ∈ g.flattenProduct fs, g.value? x = some 0 := by
    simp only [List.any_eq_true, hasValue, decide_eq_true_eq]
  refine Meets.ite (fun hz => .pure hg (.inl ⟨hany.1 hz, rfl⟩)) fun hz => ?_
  have hz' : ∀ x ∈ g.flattenProduct fs, g.value? x ≠ some 0 := fun x hx hv =>
    hz (hany.2 ⟨x, hx, hv⟩)
  match hxs : g.flattenProduct fs with
  | [] => exact .pure hg (.inr ⟨by simp, .nil⟩)
  | [x] => exact .pure hg (.inr ⟨hxs ▸ hz', .single (hlt x (by simp [hxs]))⟩)
  | x :: y :: xs =>
    refine (intern_node hg id (fun _ => Shape.noConfusion) (by trivial) ?_).mono fun z g' _ _ h =>
      .inr ⟨hxs ▸ hz', .node h.1 (by simp) h.2⟩
    intro y hy
    exact hlt y (hxs ▸ (List.mergeSort_perm _ _).mem_iff.1 hy)

theorem power_meets (hg : g.WellFormed) (hx : x < g.size) (hy : y < g.size) :
    Meets Overflow (power x y) g fun z g' =>
      (g.value? y = some 1 ∧ z = x) ∨
        (g.value? y ≠ some 1 ∧ z < g'.size ∧
          g'.node z = { shape := .power, operands := [x, y] }) := by
  refine Meets.get (Meets.ite (fun h => ?_) fun h => ?_)
  · exact .pure hg (.inl ⟨of_decide_eq_true h, rfl⟩)
  · refine (intern_node hg id (fun _ => Shape.noConfusion) (by exact rfl) (by simp [hx, hy])).mono
      fun z g' _ _ hz => .inr ⟨fun h' => h (decide_eq_true h'), hz⟩

theorem withOperands_meets (hg : g.WellFormed) (hxs : ∀ y ∈ xs, y < g.size)
    (harity : (g.shape x).Allows xs.length) :
    Meets Overflow (withOperands x xs) g fun _ _ => True := by
  have htwo : ∀ f : NodeId × NodeId → Build NodeId, xs.length = 2 →
      (∀ l r, l < g.size → r < g.size → Meets Overflow (f (l, r)) g fun _ _ => True) →
      Meets Overflow (do f (← pickPair xs)) g fun _ _ => True := by
    intro f hlen hf
    obtain ⟨l, r, rfl⟩ := List.length_eq_two.1 hlen
    exact hf l r (hxs l (by simp)) (hxs r (by simp))
  refine Meets.get ?_
  cases hs : g.shape x with
  | constant | symbol => exact .pure hg trivial
  | sum => exact (sum_meets hg hxs).mono fun _ _ _ _ _ => trivial
  | product => exact (product_meets hg hxs).mono fun _ _ _ _ _ => trivial
  | power =>
    rw [hs] at harity
    exact htwo _ harity fun l r hl hr => (power_meets hg hl hr).mono fun _ _ _ _ _ => trivial
  | binary op =>
    rw [hs] at harity
    exact htwo _ harity fun l r hl hr => (binary_meets hg op hl hr).mono fun _ _ _ _ _ => trivial
  | unary op =>
    rw [hs] at harity
    obtain ⟨y, rfl⟩ := List.length_eq_one_iff.1 harity
    exact (unary_meets hg op (hxs y (by simp))).mono fun _ _ _ _ _ => trivial
  | call f =>
    refine (intern_meets hg (s := .call f) ⟨hxs, ?_, trivial⟩).mono fun _ _ _ _ _ => trivial
    rintro f' ⟨⟩
    exact hg.callee_mem x f hs
  | set => exact (set_meets hg hxs).mono fun _ _ _ _ _ => trivial
  | arrow =>
    rw [hs] at harity
    exact htwo _ harity fun l r hl hr => (arrow_meets hg hl hr).mono fun _ _ _ _ _ => trivial

/-! ### Constructions on operands that may lie outside the graph -/

theorem call_grows (f : Callee) (xs : List NodeId) : Grows (call f xs) := by
  intro g hg
  refine (register_meets hg f).bind fun _ g' hg' _ hf => intern_meets_anyError hg' ?_ trivial
  rintro f' ⟨⟩
  exact hf

/-- The constructions that only let graphs grow. -/
def growing : Constructions where
  Holds := Grows
  pure := Grows.pure
  bind := Grows.bind
  throw := Grows.throw
  get _ hg := .of_eq_ok rfl hg trivial
  intern := intern_grows
  call := call_grows
  callAgain {x} _ _ hcall hother g hg := by
    apply Meets.get
    by_cases hs : ∃ f, g.shape x = .call f
    · obtain ⟨f, hf⟩ := hs
      rw [hcall g f hf]
      refine intern_meets_anyError hg ?_ (by trivial)
      rintro f' ⟨⟩
      exact hg.callee_mem x f hf
    · exact hother g (fun f hf => hs ⟨f, hf⟩) hg

theorem withOperands_grows (x : NodeId) (xs : List NodeId) : Grows (withOperands x xs) :=
  withOperands_holds growing.builders x xs

end ExactAlgebra.Graph
