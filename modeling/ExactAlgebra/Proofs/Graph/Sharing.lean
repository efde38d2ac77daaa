import ExactAlgebra.Graph.Tree
import ExactAlgebra.Proofs.Graph.Construction
import ExactAlgebra.Proofs.Graph.Order

/-!
In a graph built without self-referential nodes, two nodes with one structure are one node. The
order of the operands of a sum or a product is no part of their structure.
-/

namespace ExactAlgebra

variable {α β : Type} {s s' : Shape} {xs ys : List α}

/-- Two operand lists that count as one; the order of the operands of sums and products is free. -/
def Shape.Reorders (xs ys : List α) : Shape → Prop
  | .sum | .product => xs.Perm ys
  | _ => xs = ys

theorem Shape.Reorders.refl (xs : List α) : s.Reorders xs xs := by
  cases s <;> first | exact List.Perm.refl xs | exact rfl

theorem Shape.Reorders.perm (h : s.Reorders xs ys) : xs.Perm ys := by
  cases s <;> first | exact h | exact .of_eq h

/-- A rearrangement of images is the image of a rearrangement. -/
theorem Shape.Reorders.of_map {f : α → β} {vs : List β} (h : s.Reorders (xs.map f) vs) :
    ∃ ys, s.Reorders xs ys ∧ ys.map f = vs := by
  have hperm : (xs.map f).Perm vs → ∃ ys, xs.Perm ys ∧ ys.map f = vs := by
    intro hp
    have himage : List.Forall₂ (fun v x => v = f x) (xs.map f) xs := by
      rw [List.forall₂_map_left_iff]
      exact List.forall₂_same.2 fun _ _ => rfl
    obtain ⟨ys, hvs, hys⟩ := List.perm_comp_forall₂ hp.symm himage
    rw [← List.forall₂_map_right_iff, List.forall₂_eq_eq_eq] at hvs
    exact ⟨ys, hys.symm, hvs.symm⟩
  cases s <;> first | exact hperm h | exact ⟨xs, rfl, h⟩

/-- Trees of one structure: constants by value, symbols by name, calls by function. -/
inductive Tree.Alike : Tree → Tree → Prop
  | node {s : Shape} {ts vs us : List Tree} (hr : s.Reorders ts vs) (h : List.Forall₂ Alike vs us) :
      Alike (.node s ts) (.node s us)

theorem Tree.Alike.inv {ts us : List Tree} (h : Alike (.node s ts) (.node s' us)) :
    s = s' ∧ ∃ vs, s.Reorders ts vs ∧ List.Forall₂ Alike vs us := by
  cases h with
  | node hr h => exact ⟨rfl, _, hr, h⟩

namespace Graph

variable {g g' : Graph} {x a b : NodeId} {xs ys : List NodeId}

/-! ### Graphs that share all structure -/

/-- The operands of sums and products stand in canonical order. -/
def Sorted (g : Graph) (xs : List NodeId) : Shape → Prop
  | .sum => xs.Pairwise fun x y => g.sumLe x y
  | .product => xs.Pairwise fun x y => g.productLe x y
  | _ => True

structure Shared (g : Graph) : Prop where
  not_loop : ∀ x, g.isLoop x = false
  indexed : ∀ x, x < g.size → g.index[(g.shape x, g.operands x)]? = some x
  sorted : ∀ x, g.Sorted (g.operands x) (g.shape x)

/-- Canonical order is that of the nodes on which graphs agree. -/
theorem Agree.sorted {P : NodeId → Prop} (h : Agree P g g') (hxs : ∀ y ∈ xs, P y)
    (hs : g.Sorted xs s) : g'.Sorted xs s := by
  cases s with
  | sum =>
    refine List.Pairwise.imp_of_mem (fun hy hz hle => ?_) hs
    rwa [h.sumLe_eq (hxs _ hy) (hxs _ hz)]
  | product =>
    refine List.Pairwise.imp_of_mem (fun hy hz hle => ?_) hs
    rwa [h.productLe_eq (hxs _ hy) (hxs _ hz)]
  | _ => trivial

theorem Extends.sorted (hx : g.Extends g') (hg : g.WellFormed) (hxs : ∀ y ∈ xs, y < g.size)
    (h : g.Sorted xs s) : g'.Sorted xs s :=
  (hx.agree hg).sorted hxs h

theorem empty_shared : empty.Shared := by
  have hnode : ∀ x, empty.node x = { shape := .constant 0 } ∨
      empty.node x = { shape := .constant 1 } := by
    intro x
    match x with
    | 0 => exact .inl rfl
    | 1 => exact .inr rfl
    | x + 2 => exact .inl (node_of_size_le (Nat.le_add_left 2 x))
  have hshape : ∀ x, ¬ (empty.shape x).IsSymbol := by
    intro x
    rcases hnode x with h | h <;> rw [shape, h] <;> exact id
  have hloop : ∀ x, empty.isLoop x = false := by
    intro x
    rcases hnode x with h | h <;> rw [isLoop, h]
  refine ⟨hloop, fun x hx => ?_, fun x => ?_⟩
  · exact empty_wellFormed.node_index x hx (hloop x) (hshape x)
  · rcases hnode x with h | h <;> rw [shape, h] <;> trivial

/-- A node that was not there before joins the others. -/
theorem Shared.extend (hs : g.Shared) (hg : g.WellFormed) (hxs : ∀ y ∈ xs, y < g.size)
    (hnew : g.index[(s, xs)]? = none) (hsorted : g.Sorted xs s) : (g.extend s xs).Shared := by
  have hx := (growsTo_extend g s xs).toExtends
  have hcases := node_push_cases g { shape := s, operands := xs }
  refine ⟨fun x => ?_, fun x hlt => ?_, fun x => ?_⟩
  · rcases hcases x with ⟨-, he⟩ | ⟨-, he⟩ | ⟨-, he⟩
    · exact (congrArg Node.isLoop he).trans (hs.not_loop x)
    · exact congrArg Node.isLoop he
    · exact congrArg Node.isLoop he
  · rw [index_extend]
    rw [size_extend] at hlt
    rcases Nat.lt_succ_iff_lt_or_eq.1 hlt with hlt | rfl
    · have hold := hs.indexed x hlt
      rw [hx.shape_eq hlt, hx.operands_eq hlt, if_neg, hold]
      intro hkey
      rw [hkey, hnew] at hold
      cases hold
    · rw [shape, operands, node_extend_self, if_pos rfl]
  · rcases hcases x with ⟨hlt, -⟩ | ⟨rfl, -⟩ | ⟨hlt, -⟩
    · rw [hx.shape_eq hlt, hx.operands_eq hlt]
      exact hx.sorted hg (hg.operands_lt_size x) (hs.sorted x)
    · rw [shape, operands, node_extend_self]
      exact hx.sorted hg hxs hsorted
    · rw [shape, node_of_size_le (by rw [size_extend]; exact hlt)]
      trivial

/-! ### What constructions keep -/

/-- A construction that leaves a graph with shared structure, whatever its outcome. -/
def Shares (m : Build α) : Prop :=
  ∀ ⦃g : Graph⦄, g.WellFormed → g.Shared →
    Meets (fun _ g' => g'.Shared) m g fun _ g' => g'.Shared

theorem Shares.pure (a : α) : Shares (Pure.pure a : Build α) := fun _ hg hs => .pure hg hs

theorem Shares.throw (e : Error) : Shares (MonadExcept.throw e : Build α) :=
  fun _ hg hs => .throw hg hs

theorem Shares.bind {m : Build α} {f : α → Build β} (hm : Shares m) (hf : ∀ a, Shares (f a)) :
    Shares (m >>= f) :=
  fun _ hg hs => (hm hg hs).bind fun a _ hg' _ hs' => hf a hg' hs'

/-- Operands may lie outside the graph; then nothing is added. -/
theorem intern_shared (hg : g.WellFormed) (hs : g.Shared) (hcall : ∀ f, s = .call f → f ∈ g.callees)
    (harity : s.Allows xs.length) (hsorted : g.Sorted xs s) :
    Meets (fun _ g' => g'.Shared) (intern s xs) g fun _ g' => g'.Shared := by
  have hgrows := intern_meets_anyError hg hcall harity
  unfold Meets at hgrows ⊢
  rw [intern_eq] at hgrows ⊢
  cases hi : g.index[(s, xs)]? with
  | some x => exact ⟨hg, .refl g, hs⟩
  | none =>
    simp only [hi] at hgrows ⊢
    by_cases hc : capacity ≤ g.size
    · simp only [if_pos hc]
      exact ⟨hg, .refl g, hs⟩
    by_cases hall : xs.all (· < g.size)
    · simp only [if_neg hc, if_pos hall] at hgrows ⊢
      have hxs : ∀ y ∈ xs, y < g.size := fun y hy =>
        of_decide_eq_true (List.all_eq_true.1 hall y hy)
      exact ⟨hgrows.1, hgrows.2.1, hs.extend hg hxs hi hsorted⟩
    · simp only [if_neg hc, if_neg hall]
      exact ⟨hg, .refl g, hs⟩

theorem Sorted.of_verbatim (hs : s.IsVerbatim) : g.Sorted xs s := by
  cases s with
  | sum | product => exact hs.elim
  | _ => trivial

/-- Shapes whose nodes are added as they are given. -/
theorem intern_shares (hs : s.IsVerbatim) (harity : s.Allows xs.length) : Shares (intern s xs) :=
  fun _ hg hg' => intern_shared hg hg' (fun _ hf => by rw [hf] at hs; exact hs.elim) harity
    (.of_verbatim hs)

theorem Shared.callees_push (hs : g.Shared) (hg : g.WellFormed) (f : Callee) :
    { g with callees := g.callees.push f }.Shared where
  not_loop := hs.not_loop
  indexed := hs.indexed
  sorted x := (growsTo_callees_push g f).toExtends.sorted hg (hg.operands_lt_size x) (hs.sorted x)

theorem register_shared (hg : g.WellFormed) (hs : g.Shared) (f : Callee) :
    Meets (fun _ g' => g'.Shared) (register f) g fun _ g' => f ∈ g'.callees ∧ g'.Shared := by
  have hmem := register_meets (E := fun _ g' => g'.Shared) hg f
  have heq : register f g =
      .ok () (if g.callees.contains f then g else { g with callees := g.callees.push f }) := rfl
  rw [Meets, heq] at hmem ⊢
  refine ⟨hmem.1, hmem.2.1, hmem.2.2, ?_⟩
  split
  · exact hs
  · exact hs.callees_push hg f

theorem call_shares (f : Callee) (xs : List NodeId) : Shares (call f xs) := by
  intro g hg hs
  refine (register_shared hg hs f).bind fun _ g' hg' _ ⟨hf, hs'⟩ =>
    intern_shared hg' hs' ?_ (by trivial) (by trivial)
  rintro f' ⟨⟩
  exact hf

theorem sum_shares (ts : List NodeId) : Shares (sum ts) := by
  intro g hg hs
  refine Meets.get ?_
  match g.flattenSum ts with
  | [] => exact .pure hg hs
  | [x] => exact .pure hg hs
  | x :: y :: xs =>
    have htrans : ∀ a b c, g.sumLe a b → g.sumLe b c → g.sumLe a c := fun _ _ _ => hg.sumLe_trans
    have hsorted := List.pairwise_mergeSort htrans hg.sumLe_total (x :: y :: xs)
    exact intern_shared hg hs (fun _ => Shape.noConfusion) (by trivial) hsorted

theorem product_shares (fs : List NodeId) : Shares (product fs) := by
  intro g hg hs
  refine Meets.get (Meets.ite (fun _ => .pure hg hs) fun _ => ?_)
  match g.flattenProduct fs with
  | [] => exact .pure hg hs
  | [x] => exact .pure hg hs
  | x :: y :: xs =>
    have htrans : ∀ a b c, g.productLe a b → g.productLe b c → g.productLe a c := fun _ _ _ =>
      hg.productLe_trans
    have hsorted := List.pairwise_mergeSort htrans hg.productLe_total (x :: y :: xs)
    exact intern_shared hg hs (fun _ => Shape.noConfusion) (by trivial) hsorted

theorem power_shares (x y : NodeId) : Shares (power x y) :=
  fun _ hg hs => Meets.get (Meets.ite (fun _ => .pure hg hs) fun _ =>
    intern_shared hg hs (fun _ => Shape.noConfusion) (by exact rfl) (by trivial))

/-- The constructions that leave graphs with shared structure. -/
def sharing : Builders where
  Holds := Shares
  pure := Shares.pure
  bind := Shares.bind
  throw := Shares.throw
  get _ hg hs := .of_eq_ok rfl hg hs
  intern := intern_shares
  sum := sum_shares
  product := product_shares
  power := power_shares
  call := call_shares
  callAgain {x _ _} hcall hother g hg hs := by
    apply Meets.get
    by_cases hx : ∃ f, g.shape x = .call f
    · obtain ⟨f, hf⟩ := hx
      rw [hcall g f hf]
      refine intern_shared hg hs ?_ (by trivial) (by trivial)
      rintro f' ⟨⟩
      exact hg.callee_mem x f hf
    · exact hother g (fun f hf => hx ⟨f, hf⟩) hg hs

/-! ### Sequences of constructions -/

namespace Construction

/-- The graph that is left, also when the construction fails. -/
def after (c : Construction) (g : Graph) : Graph :=
  match c.build g with
  | .ok _ g' => g'
  | .error _ g' => g'

theorem after_shared (c : Construction) (hg : g.WellFormed) (hs : g.Shared) :
    (c.after g).WellFormed ∧ (c.after g).Shared := by
  have h := c.build_holds sharing hg hs
  unfold Meets at h
  unfold after
  cases hc : c.build g <;> rw [hc] at h <;> exact ⟨h.1, h.2.2⟩

end Construction

/-- The graph left by constructions one after the other. -/
def built (cs : List Construction) : Graph := cs.foldl (fun g c => c.after g) empty

theorem built_shared (cs : List Construction) : (built cs).WellFormed ∧ (built cs).Shared := by
  have hfold : ∀ g : Graph, g.WellFormed → g.Shared →
      (cs.foldl (fun g c => c.after g) g).WellFormed ∧
        (cs.foldl (fun g c => c.after g) g).Shared := by
    induction cs with
    | nil => exact fun g hg hs => ⟨hg, hs⟩
    | cons c cs ih =>
      intro g hg hs
      obtain ⟨hg', hs'⟩ := c.after_shared hg hs
      exact ih _ hg' hs'
  exact hfold empty empty_wellFormed empty_shared

/-! ### Trees of nodes -/

/-- Any depth above the number of a node shows all of its structure, if no node of it refers to
itself. -/
theorem unfoldWithin_eq {P : NodeId → Prop} (hg : g.WellFormed)
    (hP : ∀ x, P x → g.isLoop x = false ∧ ∀ y ∈ g.operands x, P y) (hx : P x) {d d' : Nat}
    (hd : x < d) (hd' : x < d') : g.unfoldWithin d [] x = g.unfoldWithin d' [] x := by
  induction x using Nat.strong_induction_on generalizing d d' with
  | _ x ih =>
    obtain ⟨d, rfl⟩ := Nat.exists_eq_succ_of_ne_zero (Nat.ne_of_gt (Nat.zero_lt_of_lt hd))
    obtain ⟨d', rfl⟩ := Nat.exists_eq_succ_of_ne_zero (Nat.ne_of_gt (Nat.zero_lt_of_lt hd'))
    obtain ⟨hl, hops⟩ := hP x hx
    simp only [unfoldWithin, hl, Bool.false_eq_true, if_false]
    congr 1
    apply List.map_congr_left
    intro y hy
    have hlt := hg.operands_lt x hl y hy
    have hd : y < d := hlt.trans_le (Nat.le_of_lt_succ hd)
    have hd' : y < d' := hlt.trans_le (Nat.le_of_lt_succ hd')
    exact ih y hlt (hops y hy) hd hd'

theorem tree_eq_node {P : NodeId → Prop} (hg : g.WellFormed)
    (hP : ∀ x, P x → g.isLoop x = false ∧ ∀ y ∈ g.operands x, P y) (hx : P x) :
    g.tree x = .node (g.shape x) ((g.operands x).map g.tree) := by
  obtain ⟨d, hd, hdepth⟩ : ∃ d, g.size ≤ d ∧ g.unfoldDepth = d + 1 :=
    ⟨g.size * g.size + 2 * g.size, by omega, by rw [unfoldDepth]; ring⟩
  obtain ⟨hl, hops⟩ := hP x hx
  rw [tree, hdepth, unfoldWithin]
  simp only [hl, Bool.false_eq_true, if_false]
  congr 1
  apply List.map_congr_left
  intro y hy
  have hlt : y < d := (hg.operands_lt_size x y hy).trans_le hd
  rw [tree, hdepth]
  exact unfoldWithin_eq hg hP (hops y hy) hlt (Nat.lt_succ_of_lt hlt)

theorem Shared.tree_eq (hs : g.Shared) (hg : g.WellFormed) (x : NodeId) :
    g.tree x = .node (g.shape x) ((g.operands x).map g.tree) :=
  tree_eq_node (P := fun _ => True) hg (fun x _ => ⟨hs.not_loop x, fun _ _ => trivial⟩) trivial

theorem Shared.alike_refl (hs : g.Shared) (hg : g.WellFormed) (x : NodeId) :
    (g.tree x).Alike (g.tree x) := by
  induction x using Nat.strong_induction_on with
  | _ x ih =>
    rw [hs.tree_eq hg x]
    apply Tree.Alike.node (.refl _)
    rw [List.forall₂_map_left_iff, List.forall₂_map_right_iff, List.forall₂_same]
    intro y hy
    exact ih y (hg.operands_lt x (hs.not_loop x) y hy)

/-- Operands in canonical order stand in no other order. -/
theorem Sorted.eq_of_reorders (hg : g.WellFormed) (hxs : ∀ y ∈ xs, y < g.size)
    (h : g.Sorted xs s) (h' : g.Sorted ys s) (hr : s.Reorders xs ys) : xs = ys := by
  have hys : ∀ y ∈ ys, y < g.size := fun y hy => hxs y (hr.perm.mem_iff.2 hy)
  cases s with
  | sum =>
    exact List.Perm.eq_of_pairwise (fun a b ha hb => hg.sumLe_antisymm (hxs a ha) (hys b hb)) h
      h' hr
  | product =>
    exact List.Perm.eq_of_pairwise (fun a b ha hb => hg.productLe_antisymm (hxs a ha) (hys b hb)) h
      h' hr
  | _ => exact hr

/-- Nodes of one structure are one node, by induction on the smaller structures of operands. -/
theorem Shared.eq_of_alike (hs : g.Shared) (hg : g.WellFormed) (ha : a < g.size) (hb : b < g.size)
    (h : (g.tree a).Alike (g.tree b)) : a = b := by
  induction a using Nat.strong_induction_on generalizing b with
  | _ a ih =>
    rw [hs.tree_eq hg a, hs.tree_eq hg b] at h
    obtain ⟨hshape, vs, hvs, hops⟩ := h.inv
    obtain ⟨xs, hxs, rfl⟩ := hvs.of_map
    rw [List.forall₂_map_left_iff, List.forall₂_map_right_iff] at hops
    have heq : xs = g.operands b := by
      apply List.ext_getElem hops.length_eq
      intro i hi hi'
      have hmem : xs[i] ∈ g.operands a := hxs.perm.mem_iff.2 (List.getElem_mem hi)
      have hmem' : (g.operands b)[i] ∈ g.operands b := List.getElem_mem hi'
      have hlt := hg.operands_lt a (hs.not_loop a) _ hmem
      exact ih _ hlt (hg.operands_lt_size a _ hmem) (hg.operands_lt_size b _ hmem')
        (hops.get hi hi')
    have hoperands : g.operands a = g.operands b := by
      subst heq
      exact Sorted.eq_of_reorders hg (hg.operands_lt_size a) (hs.sorted a) (hshape ▸ hs.sorted b)
        hxs
    have hindex := hs.indexed a ha
    rw [hshape, hoperands, hs.indexed b hb] at hindex
    exact (Option.some.inj hindex).symm

/-- In every graph that constructions lead to, nodes are equal when their structures are. -/
theorem eq_iff_alike (cs : List Construction) (a b : Fin (built cs).size) :
    a = b ↔ ((built cs).tree a).Alike ((built cs).tree b) := by
  obtain ⟨hg, hs⟩ := built_shared cs
  constructor
  · rintro rfl
    exact hs.alike_refl hg a
  · intro h
    exact Fin.ext (hs.eq_of_alike hg a.isLt b.isLt h)

end Graph

end ExactAlgebra
