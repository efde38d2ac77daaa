import ExactAlgebra.Proofs.Graph.Reach
import ExactAlgebra.Proofs.Reachable.Rebuilding
import ExactAlgebra.Proofs.Transform.Replay

/-!
Replacement in expressions as trees. From the root down, a node with a replacement becomes this
replacement, and any other node is built anew over what its operands become. Nothing is remembered:
a node that occurs twice is treated twice.
-/

namespace ExactAlgebra

open ExactAlgebra.Graph (Vocabulary Lasting withOperands)

/-- An expression as a tree, in which a node stands as often as it occurs. -/
inductive Unfolding where
  | node (x : NodeId) (operands : List Unfolding)

namespace Graph

/-- The tree of a node, down to a depth. -/
def unfoldingWithin (g : Graph) : Nat → NodeId → Unfolding
  | 0, x => .node x []
  | depth + 1, x => .node x ((g.operands x).map (g.unfoldingWithin depth))

/-- The tree of an expression without self-reference, whose operands have smaller numbers. -/
def unfolding (g : Graph) (x : NodeId) : Unfolding := g.unfoldingWithin (x + 1) x

end Graph

/-- The replacement of a node; of two pairs for one node the later counts. -/
def Substitution.last? (s : Substitution) (x : NodeId) : Option NodeId :=
  ((s.filter fun p => p.1 = x).getLast?).map Prod.snd

namespace Unfolding

mutual

/-- Builds what a tree becomes when replacements are made, from its root down. -/
def replace (s : Substitution) : Unfolding → Build NodeId
  | node x ts =>
    match s.last? x with
    | some y => return y
    | none => do withOperands x (← replaceAll s ts)

def replaceAll (s : Substitution) : List Unfolding → Build (List NodeId)
  | [] => return []
  | t :: ts => do
    let y ← replace s t
    let ys ← replaceAll s ts
    return y :: ys

end

theorem replaceAll_eq_mapM (s : Substitution) (ts : List Unfolding) :
    replaceAll s ts = ts.mapM (replace s) := by
  induction ts with
  | nil => rfl
  | cons t ts ih => rw [replaceAll, ih, List.mapM_cons]

end Unfolding

variable {V : Vocabulary} {s : Substitution} {g g' t : Graph} {depth : Nat} {x y z : NodeId}
variable {xs ys : List NodeId}

/-! ### Lists -/

theorem forall₂_join {α β γ : Type} {R : α → β → Prop} {S : α → γ → Prop} {T : β → γ → Prop}
    {as : List α} {bs : List β} {cs : List γ} (h : List.Forall₂ R as bs)
    (h' : List.Forall₂ S as cs) (hT : ∀ a b c, R a b → S a c → T b c) : List.Forall₂ T bs cs := by
  induction h generalizing cs with
  | nil =>
    cases h'
    exact .nil
  | cons hb _ ih =>
    cases h' with
    | cons hc h' => exact .cons (hT _ _ _ hb hc) (ih h')

/-- What is found for each element of a list is found for the list. -/
theorem mapM_eq_ok {α β : Type} {f : α → Build β} {as : List α} {bs : List β}
    (h : List.Forall₂ (fun a b => f a g = .ok b g) as bs) : as.mapM f g = .ok bs g := by
  induction h with
  | nil => rfl
  | cons hb _ ih => simp only [List.mapM_cons, bind, EStateM.bind, hb, ih, pure, EStateM.pure]

/-! ### Trees of expressions -/

theorem Substitution.value?_append (s : Substitution) (p : NodeId × NodeId) (x : NodeId) :
    (s ++ [p]).value? x = if p.1 = x then some p.2 else s.value? x := by
  obtain ⟨k, v⟩ := p
  rw [value?, List.reverse_append, List.reverse_singleton, List.singleton_append,
    List.lookup_cons, value?]
  by_cases h : k = x
  · rw [if_pos h, h, beq_self_eq_true]
  · rw [if_neg h, beq_false_of_ne (Ne.symm h)]

theorem Substitution.value?_eq_last? (s : Substitution) (x : NodeId) : s.value? x = s.last? x := by
  induction s using List.reverseRecOn with
  | nil => rfl
  | append_singleton s p ih =>
    rw [value?_append, last?, List.filter_append, ih]
    by_cases h : p.1 = x
    · simp [h]
    · simp [h, last?]

theorem Graph.Elementary.unfoldingWithin_eq (hg : g.WellFormed) (hx : g.Elementary V x)
    (hd : x < depth) : g.unfoldingWithin depth x = g.unfolding x := by
  have hall : ∀ d d', x < d → x < d' → g.unfoldingWithin d x = g.unfoldingWithin d' x := by
    clear hd
    induction hx with
    | @node x hx hl hc hops ih =>
      intro d d' hd hd'
      obtain ⟨d, rfl⟩ := Nat.exists_eq_succ_of_ne_zero (Nat.ne_zero_of_lt hd)
      obtain ⟨d', rfl⟩ := Nat.exists_eq_succ_of_ne_zero (Nat.ne_zero_of_lt hd')
      simp only [Graph.unfoldingWithin, Unfolding.node.injEq, true_and]
      apply List.map_congr_left
      intro y hy
      have hyx := hg.operands_lt x hl y hy
      have hle : ∀ {n}, x < n + 1 → y < n := fun hn => hyx.trans_le (Nat.le_of_lt_succ hn)
      exact ih y hy d d' (hle hd) (hle hd')
  exact hall depth (x + 1) hd (Nat.lt_succ_self x)

theorem Graph.Elementary.unfolding_eq (hg : g.WellFormed) (hx : g.Elementary V x) :
    g.unfolding x = .node x ((g.operands x).map g.unfolding) := by
  rw [Graph.unfolding, Graph.unfoldingWithin]
  congr 1
  apply List.map_congr_left
  intro y hy
  exact (hx.operands y hy).unfoldingWithin_eq hg (hg.operands_lt x hx.isLoop_eq y hy)

theorem Graph.Elementary.unfolding_extend (hg : g.WellFormed) (hx : g.Elementary V x)
    (hg' : g'.WellFormed) (hext : g.Extends g') : g'.unfolding x = g.unfolding x := by
  induction hx with
  | @node x hx hl hc hops ih =>
    have hxe : g.Elementary V x := .node hx hl hc hops
    rw [(hext.elementary hxe).unfolding_eq hg', hxe.unfolding_eq hg, hext.operands_eq hx,
      List.map_congr_left ih]

/-- What the tree of an expression becomes, in terms of its operands. -/
theorem Graph.Elementary.replace_unfolding (hg : g.WellFormed) (hx : g.Elementary V x) :
    (g.unfolding x).replace s =
      match s.value? x with
      | some y => pure y
      | none => (g.operands x).mapM (fun y => (g.unfolding y).replace s) >>= withOperands x := by
  rw [hx.unfolding_eq hg, Unfolding.replace, Unfolding.replaceAll_eq_mapM, List.mapM_map,
    Substitution.value?_eq_last?]
  rfl

/-! ### Results of replacement -/

namespace Substitution

/-- Nothing that `x` reaches is replaced, self-referential nodes being entered. -/
def Spares (s : Substitution) (g : Graph) (x : NodeId) : Prop :=
  ∀ z, g.Reaches x z → s.value? z = none

/-- In a graph that holds all that is built meanwhile, `x` becomes `y`. -/
inductive Replaces (s : Substitution) (g : Graph) : NodeId → NodeId → Prop
  | bound {x y : NodeId} (hs : s.value? x = some y) : Replaces s g x y
  | spared {x : NodeId} (hl : g.isLoop x = true) (hs : s.Spares g x) : Replaces s g x x
  | rebuilt {x y : NodeId} {ys : List NodeId} (hl : g.isLoop x = false) (hs : s.value? x = none)
      (hys : List.Forall₂ (Replaces s g) (g.operands x) ys)
      (hy : withOperands x ys g = .ok y g) : Replaces s g x y

/-- Expressions in which no self-reference is touched by a substitution, of nodes that are their own
sums and products. -/
inductive Tame (s : Substitution) (g : Graph) : NodeId → Prop
  | loop {x : NodeId} (hx : x < g.size) (hl : g.isLoop x = true) (hself : g.Settled x)
      (hs : s.Spares g x) : Tame s g x
  | node {x : NodeId} (hx : x < g.size) (hl : g.isLoop x = false) (hself : g.Settled x)
      (hops : ∀ y ∈ g.operands x, Tame s g y) : Tame s g x

/-- All replacements are nodes of a graph. -/
def Within (s : Substitution) (g : Graph) : Prop := ∀ p ∈ s, p.2 < g.size

theorem Within.value? (h : s.Within g) (hs : s.value? x = some y) : y < g.size :=
  h (x, y) (mem_of_value? hs)

theorem Within.extend (h : s.Within g) (hx : g.Extends g') : s.Within g' :=
  fun p hp => hx.lt_size (h p hp)

namespace Spares

theorem value? (h : s.Spares g x) : s.value? x = none := h x .refl

theorem operand (h : s.Spares g x) (hy : y ∈ g.operands x) : s.Spares g y := fun z hz =>
  h z (hz.of_operand hy)

theorem extend (h : s.Spares g x) (hg : g.WellFormed) (hx : x < g.size) (hext : g.Extends g') :
    s.Spares g' x := by
  have hreach : ∀ z, g'.Reaches x z → z < g.size ∧ g.Reaches x z := by
    intro z hz
    induction hz with
    | refl => exact ⟨hx, .refl⟩
    | step _ hz ih =>
      rw [hext.operands_eq ih.1] at hz
      exact ⟨hg.operands_lt_size _ _ hz, .step ih.2 hz⟩
  exact fun z hz => h z (hreach z hz).2

end Spares

namespace Tame

theorem lt_size (h : s.Tame g x) : x < g.size := by
  cases h <;> assumption

theorem settled (h : s.Tame g x) : g.Settled x := by
  cases h <;> assumption

/-- Loops are spared. -/
theorem isLoop_eq (h : s.Tame g x) (hs : ¬ s.Spares g x) : g.isLoop x = false := by
  cases h with
  | loop _ _ _ hs' => exact absurd hs' hs
  | node _ hl => exact hl

theorem operands (h : s.Tame g x) (hl : g.isLoop x = false) :
    ∀ y ∈ g.operands x, s.Tame g y := by
  cases h with
  | loop _ hl' => simp [hl] at hl'
  | node _ _ _ hops => exact hops

theorem extend (h : s.Tame g x) (hg : g.WellFormed) (hg' : g'.WellFormed) (hext : g.Extends g') :
    s.Tame g' x := by
  induction h with
  | loop hx hl hself hs =>
    refine .loop (hext.lt_size hx) ?_ (hself.extend hg hx hg' hext) (hs.extend hg hx hext)
    rw [hext.isLoop_eq hx, hl]
  | node hx hl hself hops ih =>
    refine .node (hext.lt_size hx) ?_ (hself.extend hg hx hg' hext) ?_
    · rw [hext.isLoop_eq hx, hl]
    · rwa [hext.operands_eq hx]

end Tame

end Substitution

/-- An expression without self-reference is tame, whatever is replaced. -/
theorem Graph.Elementary.tame (hg : g.Regular) (hx : g.Elementary V x) : s.Tame g x := by
  induction hx with
  | node hx hl hc hops ih =>
    exact .node hx hl (Graph.Elementary.settled hg (.node hx hl hc hops)) ih

namespace Substitution.Replaces

theorem rebuild_lasting (hg : g.WellFormed) (hx : x < g.size)
    (hys : List.Forall₂ (fun _ y => y < g.size) (g.operands x) ys) :
    Lasting (withOperands x ys) g := by
  apply Graph.withOperands_lasting hg hx
  · rw [← hys.length_eq]
    exact hg.arity x
  · intro y hy
    obtain ⟨_, -, hlt⟩ := Graph.exists_of_forall₂ hys hy
    exact hlt

/-- Constants and symbols stay what they are, if they are not replaced. -/
theorem leaf (hg : g.WellFormed) (hl : g.isLoop x = false) (hv : s.value? x = none)
    (hs : (g.shape x).IsLeaf) : s.Replaces g x x := by
  have hnil : List.Forall₂ (s.Replaces g) (g.operands x) [] := by
    rw [hg.leaf_operands hs]
    exact .nil
  exact .rebuilt hl hv hnil (Graph.withOperands_leaf hs)

/-- What holds of replacements and of loops that are spared, and is carried from operands to what is
built anew over them, holds of all that an expression becomes. -/
theorem induction {motive : NodeId → NodeId → Prop} (hx : s.Tame g x) (h : s.Replaces g x y)
    (bound : ∀ x y, s.value? x = some y → motive x y)
    (spared : ∀ x, s.Tame g x → g.isLoop x = true → s.Spares g x → motive x x)
    (rebuilt : ∀ x y ys, s.Tame g x → g.isLoop x = false → s.value? x = none →
      List.Forall₂ (fun x y => s.Tame g x ∧ s.Replaces g x y ∧ motive x y) (g.operands x) ys →
      withOperands x ys g = .ok y g → motive x y) : motive x y := by
  induction hx generalizing y with
  | @loop x hx hl hself hs =>
    cases h with
    | bound hv => exact bound x y hv
    | spared => exact spared x (.loop hx hl hself hs) hl hs
    | rebuilt hl' => simp [hl] at hl'
  | @node x hx hl hself hops ih =>
    cases h with
    | bound hv => exact bound x y hv
    | spared hl' => simp [hl] at hl'
    | rebuilt _ hv hys hy =>
      have hall : ∀ z ∈ g.operands x, s.Tame g z ∧ ∀ w, s.Replaces g z w → motive z w :=
        fun z hz => ⟨hops z hz, fun _ => ih z hz⟩
      have hys' := (List.forall₂_and_left _ _).2 ⟨hall, hys⟩
      refine rebuilt x y _ (.node hx hl hself hops) hl hv (hys'.imp ?_) hy
      exact fun z w h => ⟨h.1.1, h.2, h.1.2 w h.2⟩

theorem lt_size (hg : g.WellFormed) (hs : s.Within g) (hx : s.Tame g x) (h : s.Replaces g x y) :
    y < g.size := by
  refine induction (motive := fun _ y => y < g.size) hx h ?bound ?spared ?rebuilt
  case bound => exact fun x y hv => hs.value? hv
  case spared => exact fun x hx _ _ => hx.lt_size
  case rebuilt =>
    intro x y ys hx _ _ hys hy
    exact (rebuild_lasting hg hx.lt_size (hys.imp fun _ _ h => h.2.2)).lt_size hy

theorem forall_lt_size (hg : g.WellFormed) (hs : s.Within g) (hxs : ∀ x ∈ xs, s.Tame g x)
    (h : List.Forall₂ (s.Replaces g) xs ys) : ∀ y ∈ ys, y < g.size := by
  intro y hy
  obtain ⟨x, hx, hxy⟩ := Graph.exists_of_forall₂ h hy
  exact hxy.lt_size hg hs (hxs x hx)

/-- A node is built anew for good over what its operands have become. -/
theorem lasting (hg : g.WellFormed) (hs : s.Within g) (hx : s.Tame g x) (hl : g.isLoop x = false)
    (hys : List.Forall₂ (s.Replaces g) (g.operands x) ys) : Lasting (withOperands x ys) g := by
  have hboth := (List.forall₂_and_left _ _).2 ⟨hx.operands hl, hys⟩
  exact rebuild_lasting hg hx.lt_size (hboth.imp fun _ _ h => h.2.lt_size hg hs h.1)

/-- What is built anew over what the operands have become. -/
theorem rebuilt_of (hg : g.WellFormed) (hs : s.Within g) (hx : s.Tame g x)
    (hl : g.isLoop x = false) (hys : List.Forall₂ (s.Replaces g) (g.operands x) ys)
    (hy : withOperands x ys g = .ok y g) : g.Rebuilt x ys y := by
  refine Graph.rebuilt_of_withOperands hg ?_ (forall_lt_size hg hs (hx.operands hl) hys) hy
  rw [← hys.length_eq]
  exact hg.arity x

/-- What was found is still found when the graph has grown. -/
theorem extend (hg : g.WellFormed) (hs : s.Within g) (hx : s.Tame g x) (h : s.Replaces g x y)
    (ht : t.WellFormed) (hext : g.Extends t) : s.Replaces t x y := by
  refine induction (motive := s.Replaces t) hx h ?bound ?spared ?rebuilt
  case bound => exact fun x y hv => .bound hv
  case spared =>
    intro x hx hl hs
    exact .spared ((hext.isLoop_eq hx.lt_size).trans hl) (hs.extend hg hx.lt_size hext)
  case rebuilt =>
    intro x y ys hx hl hv hys hy
    have hlasting := lasting hg hs hx hl (hys.imp fun _ _ h => h.2.1)
    refine .rebuilt ((hext.isLoop_eq hx.lt_size).trans hl) hv ?_ (hlasting.extends_ok hy ht hext)
    rw [hext.operands_eq hx.lt_size]
    exact hys.imp fun _ _ h => h.2.2

/-- An expression becomes one node only. -/
theorem unique (hx : s.Tame g x) (h : s.Replaces g x y) (h' : s.Replaces g x z) : y = z := by
  refine induction (motive := fun x y => ∀ z, s.Replaces g x z → y = z) hx h ?bound ?spared ?rebuilt
    z h'
  case bound =>
    intro x y hv z h'
    cases h' with
    | bound hv' => exact Option.some.inj (hv.symm.trans hv')
    | spared _ hs => simp [hs.value?] at hv
    | rebuilt _ hv' => simp [hv'] at hv
  case spared =>
    intro x _ hl hs z h'
    cases h' with
    | bound hv => simp [hs.value?] at hv
    | spared => rfl
    | rebuilt hl' => simp [hl] at hl'
  case rebuilt =>
    intro x y ys _ hl hv hys hy z h'
    cases h' with
    | bound hv' => simp [hv'] at hv
    | spared hl' => simp [hl] at hl'
    | rebuilt _ _ hys' hy' =>
      obtain rfl : ys = _ :=
        List.forall₂_eq_eq_eq ▸ forall₂_join hys hys' fun _ _ _ h => h.2.2 _
      rw [hy] at hy'
      cases hy'
      rfl

/-- What is spared stays what it is. -/
theorem self (hg : g.Regular) (hx : s.Tame g x) (hs : s.Spares g x) : s.Replaces g x x := by
  induction hx with
  | loop _ hl _ hs => exact .spared hl hs
  | node hx hl hself hops ih =>
    refine .rebuilt hl hs.value? (List.forall₂_same.2 fun y hy => ih y hy (hs.operand hy)) ?_
    exact Graph.withOperands_operands hg hx hl hself fun y hy => (hops y hy).settled

/-- Replacement in the tree of an expression finds what it becomes. -/
theorem replace_unfolding (hg : g.Regular) (hx : g.Elementary V x) (h : s.Replaces g x y) :
    (g.unfolding x).replace s g = .ok y g := by
  refine induction (motive := fun x y => g.Elementary V x →
    (g.unfolding x).replace s g = .ok y g) (hx.tame hg) h ?bound ?spared ?rebuilt hx
  case bound =>
    intro x y hv hx
    rw [hx.replace_unfolding hg.toWellFormed, hv]
    rfl
  case spared =>
    intro x _ hl _ hx
    simp [hx.isLoop_eq] at hl
  case rebuilt =>
    intro x y ys _ _ hv hys hy hx
    have hboth := (List.forall₂_and_left _ _).2 ⟨hx.operands, hys⟩
    have hops := mapM_eq_ok (hboth.imp fun _ _ h => h.2.2.2 h.1)
    rw [hx.replace_unfolding hg.toWellFormed, hv]
    simp only [bind, EStateM.bind, hops, hy]

end Substitution.Replaces

end ExactAlgebra
