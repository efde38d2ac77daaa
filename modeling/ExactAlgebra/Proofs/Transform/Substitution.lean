import ExactAlgebra.Proofs.Graph.Arithmetic
import ExactAlgebra.Proofs.Transform.Contract

/-!
Substitution lets graphs grow, whatever it replaces. It carries over what is known of expressions,
such as their values where nodes are replaced by constants.
-/

namespace ExactAlgebra

variable {M : Semantics} {s : Substitution} {g g' g₀ : Graph} {depth d : Nat} {x y : NodeId}
variable {v w : Rat} {ys : List NodeId} {vs : List Rat}

namespace Substitution

theorem mem_of_value? (h : s.value? x = some y) : (x, y) ∈ s := by
  obtain ⟨l₁, l₂, he, -⟩ := List.lookup_eq_some_iff.1 h
  exact List.mem_reverse.1 (by rw [he]; simp)

/-- A contract that only asks for graphs to grow. -/
def growing : Contract where
  Frame := Graph.GrowsTo
  Asks _ _ _ := True
  Answers _ _ _ := True
  Below _ _ _ := True
  Fails := Graph.AnyError
  frame_refl := .refl
  frame_of_growsTo _ h := h
  frame_trans h h' := h.trans h'
  frame_lt_size h hx := h.lt_size hx
  answers_frame _ _ _ _ _ := trivial
  below_frame _ _ _ _ _ := trivial
  below_trans _ _ := trivial
  answers_self _ _ := trivial
  fails_outside _ _ := trivial
  fails_exhausted _ := trivial

theorem growing_settles (x : NodeId) (y : NodeId) (g : Graph) : growing.Settles x (some y) g :=
  ⟨fun _ _ _ => trivial, fun _ => trivial⟩

theorem transform_grows (s : Substitution) (hg : g.WellFormed) :
    (s.rules.transform x).Meets growing depth x g (growing.Settles x) := by
  have hoperands : (do return some (← Dialogue.operands x) : Dialogue (Pass Unit) _).Meets
      growing depth x g (growing.Settles x) := by
    have hq : (Dialogue.operands x : Dialogue (Pass Unit) NodeId).Meets growing depth x g
        fun _ _ => True := by
      apply Dialogue.Meets.operands hg
      · intro g' _ _ y _
        exact ⟨trivial, fun _ => trivial⟩
      · intro ys g' hg' _ _
        exact .ite (fun _ => .pure hg' trivial) fun _ => Graph.withOperands_grows x ys hg'
    exact hq.bind fun y g' hg' _ _ => .pure hg' (growing_settles x y g')
  simp only [rules]
  cases s.value? x with
  | some y => exact .pure hg (growing_settles x y g)
  | none =>
    apply Dialogue.Meets.graph
    cases g.shape x with
    | constant | symbol => exact .pure hg (growing_settles x x g)
    | _ => exact hoperands

end Substitution

theorem Graph.substitute_meets {E : Error → Graph → Prop} {Q : NodeId → Graph → Prop}
    (hg : g.WellFormed) (hnil : s = [] → Q x g)
    (hrun : match s.rules.apply g.substitutionDepth x ⟨{}, ⟨g, ()⟩⟩ with
      | .ok y run => run.pass.graph.WellFormed ∧ g.GrowsTo run.pass.graph ∧ Q y run.pass.graph
      | .error e run => run.pass.graph.WellFormed ∧ g.GrowsTo run.pass.graph ∧ E e run.pass.graph) :
    Meets E (substitute s x) g Q := by
  rw [Meets, substitute]
  by_cases hs : s.isEmpty
  · rw [if_pos hs]
    exact ⟨hg, .refl g, hnil (List.isEmpty_iff.1 hs)⟩
  · rw [if_neg hs]
    cases he : s.rules.apply g.substitutionDepth x ⟨{}, ⟨g, ()⟩⟩ with
    | ok y run =>
      rw [he] at hrun
      exact hrun
    | error e run =>
      rw [he] at hrun
      exact hrun

/-- What answers keep, substitution keeps. -/
theorem Graph.substitute_answers {c : Contract} (hg : g.WellFormed)
    (hframe : ∀ g', c.Frame g g' → g.GrowsTo g')
    (hanswer : RepliesWithin c g.substitutionDepth {} (s.rules.apply g.substitutionDepth))
    (hx : c.Asks g.substitutionDepth g x) (hnil : s = [] → c.Answers g x x) :
    Meets c.Fails (substitute s x) g fun y g' => c.Answers g' x y := by
  have hrun := hanswer x g {} () hg (Memo.holds_empty c g) (fun _ => Iff.rfl) hx
    (Memo.leads_empty c g x)
  apply substitute_meets hg hnil
  cases he : s.rules.apply g.substitutionDepth x ⟨{}, ⟨g, ()⟩⟩ with
  | ok y run =>
    rw [he] at hrun
    exact ⟨hrun.1, hframe _ hrun.2.1, hrun.2.2.2.2.2.2⟩
  | error e run =>
    rw [he] at hrun
    exact ⟨hrun.1, hframe _ hrun.2.1, hrun.2.2.2.2⟩

theorem Graph.substitute_grows (s : Substitution) (x : NodeId) : Graph.Grows (substitute s x) := by
  intro g hg
  have hreplies := Rules.replies s.rules (fun _ => rfl)
    (fun _ _ _ hg _ _ => Substitution.transform_grows s hg) g.substitutionDepth
  exact substitute_answers hg (fun _ h => h) (hreplies.within {}) trivial fun _ => trivial

/-! ### Carrying over -/

/-- A shape that has no operands to replace anything in. -/
def Shape.IsLeaf : Shape → Prop
  | .constant _ | .symbol _ => True
  | _ => False

namespace Substitution

/-- What can be known of the nodes of a graph, and is still known of the nodes that they become when
the replacements are made. -/
structure Carrier (s : Substitution) (g₀ : Graph) where
  /-- Something is known of a node. -/
  Fits : NodeId → Prop
  /-- What is known of the first node is known of the second. -/
  Carries : Graph → NodeId → NodeId → Prop
  lt_size : ∀ {x}, Fits x → x < g₀.size
  carries_lt_size : ∀ {g : Graph} {x y}, Fits x → Carries g x y → y < g.size
  carries_extends : ∀ {g g' : Graph} {x y}, g.WellFormed → g.Extends g' → Carries g x y →
    Carries g' x y
  carries_self : ∀ {x}, s = [] → Fits x → Carries g₀ x x
  carries_bound : ∀ {x y}, Fits x → s.value? x = some y → Carries g₀ x y
  not_loop : ∀ {x}, Fits x → s.value? x = none → g₀.isLoop x = false
  carries_leaf : ∀ {x}, Fits x → s.value? x = none → (g₀.shape x).IsLeaf → Carries g₀ x x
  operands : ∀ {x}, Fits x → s.value? x = none → ¬ (g₀.shape x).IsLeaf →
    ∀ y ∈ g₀.operands x, Fits y
  rebuild : ∀ {g : Graph} {x ys}, g.WellFormed → g₀.Extends g → Fits x → s.value? x = none →
    ¬ (g₀.shape x).IsLeaf → List.Forall₂ (Carries g) (g₀.operands x) ys →
    Graph.Meets Graph.Overflow
      (if ys = g₀.operands x then Pure.pure x else Graph.withOperands x ys) g
      fun y g' => Carries g' x y

namespace Carrier

variable (C : Carrier s g₀)

/-- The questions of a run that started in `g₀`. -/
def contract : Contract where
  Frame := Graph.GrowsTo
  Asks depth g x := g₀.Extends g ∧ x < depth ∧ C.Fits x
  Answers := C.Carries
  Below _ z x := x < z
  Fails := Graph.Overflow
  frame_refl := .refl
  frame_of_growsTo _ h := h
  frame_trans h h' := h.trans h'
  frame_lt_size h hx := h.lt_size hx
  answers_frame hg hf _ _ h := C.carries_extends hg hf.toExtends h
  below_frame _ _ _ _ h := h
  below_trans h h' := h'.trans h
  answers_self _ h := absurd h (Nat.lt_irrefl _)
  fails_outside h hx := absurd (h.1.lt_size (C.lt_size h.2.2)) hx
  fails_exhausted h := absurd h.2.1 (Nat.not_lt_zero _)

variable {C}

theorem settles (hx : C.Fits x) (h : C.Carries g x y) : C.contract.Settles x (some y) g :=
  C.contract.settles_of_answers (C.carries_lt_size hx h) h

/-- The operands of a node that is not replaced are smaller, and something is known of them too. -/
theorem operands_meet (hg₀ : g₀.WellFormed) (hg : g.WellFormed) (hext : g₀.Extends g)
    (hlt : x < depth + 1) (hx : C.Fits x) (hs : s.value? x = none)
    (hleaf : ¬ (g₀.shape x).IsLeaf) :
    (Dialogue.operands x : Dialogue (Pass Unit) NodeId).Meets C.contract depth x g
      fun y g' => C.Carries g' x y := by
  have hops : g.operands x = g₀.operands x := hext.operands_eq (C.lt_size hx)
  apply Dialogue.Meets.operands hg
  · intro g' _ hf y hy
    rw [hops] at hy
    have hyx := hg₀.operands_lt x (C.not_loop hx hs) y hy
    have hyd := hyx.trans_le (Nat.le_of_lt_succ hlt)
    exact ⟨⟨hext.trans hf.toExtends, hyd, C.operands hx hs hleaf y hy⟩, fun _ => hyx⟩
  · intro ys g' hg' hf hys
    rw [hops] at hys ⊢
    apply C.rebuild hg' (hext.trans hf.toExtends) hx hs hleaf
    exact hys.imp fun _ _ h => h.2.2

theorem transform_meets (hg₀ : g₀.WellFormed) (hg : g.WellFormed)
    (hx : C.contract.Asks (depth + 1) g x) :
    (s.rules.transform x).Meets C.contract depth x g (C.contract.Settles x) := by
  obtain ⟨hext, hlt, hx⟩ := hx
  simp only [rules]
  cases hs : s.value? x with
  | some y => exact .pure hg (settles hx (C.carries_extends hg₀ hext (C.carries_bound hx hs)))
  | none =>
    apply Dialogue.Meets.graph
    rw [hext.shape_eq (C.lt_size hx)]
    have hoperands : ¬ (g₀.shape x).IsLeaf →
        (do return some (← Dialogue.operands x) : Dialogue (Pass Unit) _).Meets
          C.contract depth x g (C.contract.Settles x) := fun hleaf =>
      (operands_meet hg₀ hg hext hlt hx hs hleaf).bind
        fun y g' hg' _ hy => .pure hg' (settles hx hy)
    cases hshape : g₀.shape x with
    | constant | symbol =>
      have hleaf : (g₀.shape x).IsLeaf := by rw [hshape]; trivial
      exact .pure hg (settles hx (C.carries_extends hg₀ hext (C.carries_leaf hx hs hleaf)))
    | _ =>
      apply hoperands
      rw [hshape]
      exact id

end Carrier

end Substitution

/-- What is known of an expression is known of what it becomes when nodes are replaced in it. -/
theorem Graph.substitute_carries (C : Substitution.Carrier s g) (hg : g.WellFormed)
    (hx : C.Fits x) :
    Graph.Meets Overflow (substitute s x) g fun y g' => C.Carries g' x y := by
  have hreplies := Rules.replies s.rules (fun _ => rfl)
    (fun _ _ _ hg' hx _ => Substitution.Carrier.transform_meets (C := C) hg hg' hx)
    g.substitutionDepth
  exact substitute_answers hg (fun _ h => h) (hreplies.within {})
    ⟨.refl g, (C.lt_size hx).trans (Nat.lt_succ_self _), hx⟩ fun hs => C.carries_self hs hx

/-! ### Values -/

namespace Graph

/-- A node of the same kind over operands with values. -/
theorem withOperands_valueWithin? (hM : ∀ b, M.power b 1 = some b) (hg : g.WellFormed)
    (hs : ¬ (g.shape x).IsLeaf) (hys : g.ValuesWithin M (d + 1) ys vs)
    (hv : M.combine (g.shape x) vs = some v) :
    Meets Overflow (withOperands x ys) g fun y g' => g'.valueWithin? M [] (d + 2) y = some v := by
  have hlt := hys.lt_size
  have hintern : ∀ {t : Shape}, g.shape x = t → ¬ t.IsSymbol → t.Allows ys.length →
      (∀ f, t = .call f → f ∈ g.callees) →
      Meets Overflow (intern t ys) g fun y g' => g'.valueWithin? M [] (d + 2) y = some v := by
    intro t ht hsym harity hcall
    apply (intern_meets hg ⟨hlt, hcall, harity⟩).mono
    intro y g' hg' hx hy
    exact valueWithin?_node hy.1 (hy.2 hsym) (hys.extends hg hx) (ht ▸ hv)
  apply Meets.get
  cases ht : g.shape x with
  | constant | symbol =>
    rw [ht] at hs
    exact absurd trivial hs
  | sum =>
    rw [ht] at hv
    cases hv
    exact sum_valueWithin? hg hys
  | product =>
    rw [ht] at hv
    cases hv
    exact product_valueWithin? hg hys
  | power =>
    rw [ht] at hv
    obtain ⟨b, e, rfl, hp⟩ := Semantics.combine_power_eq_some.1 hv
    obtain ⟨l, r, rfl, hl, hr⟩ := forall₂_pair_right hys
    exact power_valueWithin? hM hg hl hr hp
  | binary op =>
    have hv' := hv
    rw [ht] at hv'
    obtain ⟨b, e, rfl, -⟩ := Semantics.combine_binary_eq_some.1 hv'
    obtain ⟨l, r, rfl, -, -⟩ := forall₂_pair_right hys
    exact hintern ht id rfl fun f hf => by cases hf
  | unary op =>
    have hv' := hv
    rw [ht] at hv'
    obtain ⟨b, rfl, -⟩ := Semantics.combine_unary_eq_some.1 hv'
    obtain ⟨l, rfl, -⟩ := forall₂_singleton_right hys
    exact hintern ht id rfl fun f hf => by cases hf
  | call f =>
    apply hintern ht id trivial
    rintro f' ⟨⟩
    exact hg.callee_mem x f ht
  | set | arrow =>
    rw [ht] at hv
    cases hv

end Graph

namespace Substitution

/-- The value of a node that is not replaced, and the values of its operands. -/
theorem exists_values (hg₀ : g₀.WellFormed) (hv : g₀.Denotes M s x v) (hs : s.value? x = none) :
    g₀.isLoop x = false ∧ ∃ vs,
      List.Forall₂ (fun y w => g₀.valueWithin? M s x y = some w) (g₀.operands x) vs ∧
      M.combine (g₀.shape x) vs = some v := by
  cases Graph.valueWithin?_succ.1 (hv.valueWithin? hg₀) with
  | bound _ hs' =>
    rw [hs] at hs'
    cases hs'
  | node _ _ hl hvs hc => exact ⟨hl, _, hvs, hc⟩

/-- The transformed operands have the values of the operands, and are no deeper than these may
be. -/
theorem valuesWithin_of_carried {xs : List NodeId} (hlt : ∀ y ∈ xs, y < x)
    (hvs : List.Forall₂ (fun y w => g₀.valueWithin? M s d y = some w) xs vs)
    (hys : List.Forall₂ (fun y y' =>
      ∀ v, g₀.Denotes M s y v → g.valueWithin? M [] (y + 1) y' = some v) xs ys) :
    g.ValuesWithin M x ys vs := by
  induction hys generalizing vs with
  | nil =>
    cases hvs
    exact .nil
  | cons hy _ ih =>
    cases hvs with
    | cons hw hvs =>
      have hyx := hlt _ (List.mem_cons_self ..)
      refine .cons (Graph.valueWithin?_mono (hy _ ⟨d, hw⟩) hyx) ?_
      exact ih (fun z hz => hlt z (List.mem_cons_of_mem _ hz)) hvs

theorem rebuild_valueWithin? (hM : ∀ b, M.power b 1 = some b) (hg₀ : g₀.WellFormed)
    (hg : g.WellFormed) (hext : g₀.Extends g) (hv : g₀.Denotes M s x v) (hs : s.value? x = none)
    (hleaf : ¬ (g₀.shape x).IsLeaf)
    (hys : List.Forall₂ (fun y y' =>
      ∀ v, g₀.Denotes M s y v → g.valueWithin? M [] (y + 1) y' = some v) (g₀.operands x) ys) :
    Graph.Meets Graph.Overflow
      (if ys = g₀.operands x then Pure.pure x else Graph.withOperands x ys) g
      fun y g' => g'.valueWithin? M [] (x + 1) y = some v := by
  have hx := hv.lt_size
  obtain ⟨hl, vs, hvs, hcombine⟩ := exists_values hg₀ hv hs
  have hys' := valuesWithin_of_carried (hg₀.operands_lt x hl) hvs hys
  rw [← hext.shape_eq hx] at hcombine hleaf
  apply Graph.Meets.ite
  · intro he
    apply Graph.Meets.pure hg
    rw [he, ← hext.operands_eq hx] at hys'
    rw [← hext.isLoop_eq hx] at hl
    exact Graph.valueWithin?_succ.2 (.node (hext.lt_size hx) rfl hl hys' hcombine)
  · intro _
    -- Only a constant has number `0`, so that there is room for the operands below `x`.
    have hpos : x ≠ 0 := by
      rintro rfl
      apply hleaf
      rw [hext.shape_eq hx, Graph.shape, show g₀.node 0 = _ from hg₀.node_zero]
      trivial
    obtain ⟨k, rfl⟩ := Nat.exists_eq_succ_of_ne_zero hpos
    exact Graph.withOperands_valueWithin? hM hg hleaf hys' hcombine

/-- The values of nodes are carried over, no deeper than numbers allow. -/
def values (hM : ∀ b, M.power b 1 = some b) (hM' : ∀ name, M.symbol name = none)
    (hg₀ : g₀.WellFormed) : Carrier s g₀ where
  Fits x := ∃ v, g₀.Denotes M s x v
  Carries g x y := ∀ v, g₀.Denotes M s x v → g.valueWithin? M [] (x + 1) y = some v
  lt_size hx := hx.choose_spec.lt_size
  carries_lt_size hx h := Graph.lt_size_of_valueWithin? (h _ hx.choose_spec)
  carries_extends hg hext h v hv := Graph.valueWithin?_extends (h v hv) hg hext
  carries_self hs _ v hv := (hs ▸ hv).valueWithin? hg₀
  carries_bound := by
    intro x y _ hs v hv
    cases Graph.valueWithin?_succ.1 (hv.valueWithin? hg₀) with
    | bound _ hs' hy =>
      cases hs.symm.trans hs'
      exact hg₀.valueWithin?_plain hy
    | node _ hs' =>
      rw [hs] at hs'
      cases hs'
  not_loop hx hs := (exists_values hg₀ hx.choose_spec hs).1
  carries_leaf := by
    intro x _ hs hleaf v hv
    obtain ⟨hl, vs, -, hc⟩ := exists_values hg₀ hv hs
    cases hshape : g₀.shape x with
    | constant q =>
      rw [hshape] at hc
      cases hc
      apply hg₀.valueWithin?_plain
      exact Graph.plainValue?_eq_some.2 ⟨hv.lt_size, hl, Graph.value?_eq_some.2 hshape⟩
    | symbol name =>
      rw [hshape, Semantics.combine, hM'] at hc
      cases hc
    | _ =>
      rw [hshape] at hleaf
      exact hleaf.elim
  operands := by
    intro x hx hs _ y hy
    obtain ⟨-, vs, hvs, -⟩ := exists_values hg₀ hx.choose_spec hs
    obtain ⟨i, hi, rfl⟩ := List.getElem_of_mem hy
    exact ⟨_, _, hvs.get hi (hvs.length_eq ▸ hi)⟩
  rebuild := by
    intro g x ys hg hext hx hs hleaf hys
    obtain ⟨v, hv⟩ := hx
    apply (rebuild_valueWithin? hM hg₀ hg hext hv hs hleaf hys).mono
    intro y g' _ _ hy w hw
    rwa [hw.unique hv]

end Substitution

/-- Replacing the symbols of an expression by constants keeps its value. -/
theorem Graph.substitute_valueWithin? (hM : ∀ b, M.power b 1 = some b)
    (hM' : ∀ name, M.symbol name = none) (hg : g.WellFormed) (hv : g.Denotes M s x v) :
    Graph.Meets Overflow (substitute s x) g fun y g' =>
      g'.valueWithin? M [] (x + 1) y = some v := by
  have hcarried := substitute_carries (Substitution.values (s := s) hM hM' hg) hg ⟨v, hv⟩
  exact hcarried.mono fun y g' _ _ h => h v hv

end ExactAlgebra
