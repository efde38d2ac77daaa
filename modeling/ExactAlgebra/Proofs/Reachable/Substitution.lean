import ExactAlgebra.Proofs.Reachable.Replacement
import ExactAlgebra.Proofs.Transform.Reach

/-!
What substitution finds. Loops in which nothing is replaced are left alone, with all that they
reach; everything else becomes what is built anew over its operands.
-/

namespace ExactAlgebra

open ExactAlgebra.Graph (Gathering Meets Overflow withOperands)

variable {s : Substitution} {g g' g₀ : Graph} {depth : Nat} {x y z : NodeId} {ys : List NodeId}

namespace Substitution

/-- `y` may be asked for while `x` is being transformed. Loops are entered only where nothing is
replaced, and elsewhere operands have smaller numbers. -/
structure Leads (s : Substitution) (g : Graph) (x y : NodeId) : Prop where
  spares : s.Spares g x → s.Spares g y
  lt : s.Spares g y ∨ y < x

theorem Leads.trans (h : s.Leads g x y) (h' : s.Leads g y z) : s.Leads g x z where
  spares hx := h'.spares (h.spares hx)
  lt := by
    rcases h.lt with hy | hy
    · exact .inl (h'.spares hy)
    · exact h'.lt.imp_right fun hz => hz.trans hy

/-- Nodes that are spared stay what they are, and those that are tame become what they should. -/
structure Finds (s : Substitution) (g₀ g : Graph) (x y : NodeId) : Prop where
  extends_graph : g₀.Extends g
  spared : s.Spares g₀ x → y = x
  tame : s.Tame g₀ x → s.Replaces g x y

theorem Finds.of_spares (hg₀ : g₀.Regular) (hs : s.Within g₀) (hg : g.WellFormed)
    (hext : g₀.Extends g) (hx : s.Spares g₀ x) : s.Finds g₀ g x x where
  extends_graph := hext
  spared _ := rfl
  tame hx' := (Replaces.self hg₀ hx' hx).extend hg₀.toWellFormed hs hx' hg hext

theorem Finds.extend (h : s.Finds g₀ g x y) (hg₀ : g₀.WellFormed) (hs : s.Within g₀)
    (hg : g.WellFormed) (hg' : g'.WellFormed) (hext : g.Extends g') : s.Finds g₀ g' x y where
  extends_graph := h.extends_graph.trans hext
  spared := h.spared
  tame hx := (h.tame hx).extend hg (hs.extend h.extends_graph)
    (hx.extend hg₀ hg h.extends_graph) hg' hext

/-- Substitution in the nodes of `g₀`. -/
def finding (hg₀ : g₀.Regular) (hs : s.Within g₀) : Contract where
  Frame g g' := g.GrowsTo g' ∧ (g.WellFormed → g'.WellFormed)
  Asks depth g x := depth ≠ 0 ∧ g₀.Extends g ∧ x < g₀.size ∧ (s.Spares g₀ x ∨ s.Tame g₀ x)
  Answers g x y := s.Finds g₀ g x y
  Below g x y := g.WellFormed ∧ g₀.Extends g ∧ s.Leads g₀ x y
  Fails := Overflow
  frame_refl g := ⟨.refl g, id⟩
  frame_of_growsTo hg h := ⟨h, fun _ => hg⟩
  frame_trans h h' := ⟨h.1.trans h'.1, h'.2 ∘ h.2⟩
  frame_lt_size h hx := h.1.lt_size hx
  answers_frame hg hf _ _ h := h.extend hg₀.toWellFormed hs hg (hf.2 hg) hf.1.toExtends
  below_frame hg hf _ _ h := ⟨hf.2 hg, h.2.1.trans hf.1.toExtends, h.2.2⟩
  below_trans h h' := ⟨h.1, h.2.1, h.2.2.trans h'.2.2⟩
  answers_self {g x} _ h := by
    obtain ⟨hg, hext, hleads⟩ := h
    exact .of_spares hg₀ hs hg hext (hleads.lt.resolve_right (Nat.lt_irrefl x))
  fails_outside h hx := absurd (h.2.1.lt_size h.2.2.1) hx
  fails_exhausted h := absurd rfl h.1

/-- The operands of a node are asked for in their turn. -/
theorem asks_operand (hg₀ : g₀.WellFormed) (hx : s.Spares g₀ x ∨ s.Tame g₀ x)
    (hy : y ∈ g₀.operands x) : (s.Spares g₀ y ∨ s.Tame g₀ y) ∧ s.Leads g₀ x y := by
  have hspares : s.Spares g₀ x → (s.Spares g₀ y ∨ s.Tame g₀ y) ∧ s.Leads g₀ x y := fun hs =>
    ⟨.inl (hs.operand hy), fun _ => hs.operand hy, .inl (hs.operand hy)⟩
  rcases hx with hs | hx
  · exact hspares hs
  cases hx with
  | loop _ _ _ hs => exact hspares hs
  | node hlt hl hself hops =>
    exact ⟨.inr (hops y hy), fun hs => hs.operand hy, .inr (hg₀.operands_lt x hl y hy)⟩

/-- A node that is spared is not built anew. -/
theorem Spares.finds_operands (h : s.Spares g₀ x)
    (hys : List.Forall₂ (s.Finds g₀ g) (g₀.operands x) ys) : ys = g₀.operands x := by
  have hboth := (List.forall₂_and_left _ _).2 ⟨fun y hy => h.operand hy, hys⟩
  have hsame : List.Forall₂ Eq ys (g₀.operands x) :=
    List.Forall₂.flip (hboth.imp fun y y' h => h.2.spared h.1)
  rwa [List.forall₂_eq_eq_eq] at hsame

/-- What is built over the operands, if they have changed, is what is to be found. -/
theorem rebuild_finds (hg₀ : g₀.Regular) (hs : s.Within g₀) (hx : s.Spares g₀ x ∨ s.Tame g₀ x)
    (hlt : x < g₀.size) (hv : s.value? x = none) (hg : g.WellFormed) (hext : g₀.Extends g)
    (hys : List.Forall₂ (s.Finds g₀ g) (g₀.operands x) ys) :
    Meets Overflow (if ys = g₀.operands x then Pure.pure x else withOperands x ys) g
      fun y g' => y < g'.size ∧ s.Finds g₀ g' x y := by
  by_cases hsx : s.Spares g₀ x
  · rw [if_pos (hsx.finds_operands hys)]
    exact .pure hg ⟨hext.lt_size hlt, .of_spares hg₀ hs hg hext hsx⟩
  have htame := hx.resolve_left hsx
  have hl := htame.isLoop_eq hsx
  have hops := htame.operands hl
  have hboth := (List.forall₂_and_left _ _).2 ⟨hops, hys⟩
  have hreplaced : ∀ t, t.WellFormed → g.Extends t → t.isLoop x = false ∧
      List.Forall₂ (s.Replaces t) (t.operands x) ys := by
    intro t ht hext'
    rw [(hext.trans hext').isLoop_eq hlt, (hext.trans hext').operands_eq hlt]
    exact ⟨hl, hboth.imp fun _ _ h => (h.2.extend hg₀.toWellFormed hs hg ht hext').tame h.1⟩
  obtain ⟨hl', hys'⟩ := hreplaced g hg (.refl g)
  have hlasting := Replaces.lasting hg (hs.extend hext) (htame.extend hg₀.toWellFormed hg hext) hl'
    hys'
  have hfinds : ∀ y t, t.WellFormed → g.Extends t → withOperands x ys t = .ok y t →
      s.Finds g₀ t x y := fun y t ht hext' hfound =>
    ⟨hext.trans hext', fun h => absurd h hsx, fun _ =>
      .rebuilt (hreplaced t ht hext').1 hv (hreplaced t ht hext').2 hfound⟩
  apply Meets.ite
  · rintro rfl
    have hown : Graph.Lasting (withOperands x (g₀.operands x)) g₀ :=
      Replaces.rebuild_lasting hg₀.toWellFormed hlt
        (List.forall₂_same.2 (hg₀.operands_lt_size x))
    have hfound := Graph.withOperands_operands hg₀ hlt hl htame.settled fun y hy =>
      (hops y hy).settled
    exact .pure hg ⟨hext.lt_size hlt, hfinds x g hg (.refl g) (hown.extends_ok hfound hg hext)⟩
  · intro _
    apply Meets.mono hlasting
    intro y t ht hext' ⟨hy, hfound⟩
    exact ⟨hy, hfinds y t ht hext' (hfound t ht (.refl t))⟩

theorem leaf_finds (hg₀ : g₀.Regular) (hs : s.Within g₀) (hv : s.value? x = none)
    (hleaf : (g.shape x).IsLeaf) (hlt : x < g₀.size) (hg : g.WellFormed) (hext : g₀.Extends g) :
    s.Finds g₀ g x x where
  extends_graph := hext
  spared _ := rfl
  tame hx := by
    cases hx with
    | loop hlt hl hself h =>
      exact (Finds.of_spares hg₀ hs hg hext h).tame (.loop hlt hl hself h)
    | node _ hl => exact .leaf hg ((hext.isLoop_eq hlt).trans hl) hv hleaf

theorem transform_finds (hg₀ : g₀.Regular) (hs : s.Within g₀) (hd : depth ≠ 0)
    (hx : s.Spares g₀ x ∨ s.Tame g₀ x) (hlt : x < g₀.size) (hg : g.WellFormed)
    (hext : g₀.Extends g) :
    (s.rules.transform x).Meets (finding hg₀ hs) depth x g ((finding hg₀ hs).Settles x) := by
  have hsettles : ∀ {y t}, y < t.size → s.Finds g₀ t x y →
      (finding hg₀ hs).Settles x (some y) t := fun hy h => Contract.settles_of_answers hy h
  have hoperands : s.value? x = none →
      (do return some (← Dialogue.operands x) : Dialogue (Pass Unit) _).Meets
        (finding hg₀ hs) depth x g ((finding hg₀ hs).Settles x) := by
    intro hv
    have hq : (Dialogue.operands x : Dialogue (Pass Unit) NodeId).Meets (finding hg₀ hs) depth x g
        fun y g' => y < g'.size ∧ s.Finds g₀ g' x y := by
      apply Dialogue.Meets.operands hg
      · intro g' hg' hf y hy
        rw [hext.operands_eq hlt] at hy
        have hext' := hext.trans hf.1.toExtends
        obtain ⟨hy', hleads⟩ := asks_operand hg₀.toWellFormed hx hy
        exact ⟨⟨hd, hext', hg₀.operands_lt_size x y hy, hy'⟩, fun _ => ⟨hg', hext', hleads⟩⟩
      · intro ys g' hg' hf hys
        rw [hext.operands_eq hlt] at hys ⊢
        exact rebuild_finds hg₀ hs hx hlt hv hg' (hext.trans hf.1.toExtends)
          (hys.imp fun _ _ h => h.2.2)
    exact hq.bind fun y g' hg' _ hy => .pure hg' (hsettles hy.1 hy.2)
  simp only [rules]
  cases hv : s.value? x with
  | some y =>
    refine .pure hg (hsettles ((hs.extend hext).value? hv) ⟨hext, fun h => ?_, fun _ => .bound hv⟩)
    simp [h.value?] at hv
  | none =>
    apply Dialogue.Meets.graph
    have hleaf : (g.shape x).IsLeaf → (finding hg₀ hs).Settles x (some x) g := fun h =>
      hsettles (hext.lt_size hlt) (leaf_finds hg₀ hs hv h hlt hg hext)
    cases hshape : g.shape x with
    | constant | symbol => exact .pure hg (hleaf (by rw [hshape]; trivial))
    | _ => exact hoperands hv

end Substitution

/-- Substitution fails only for want of room. -/
theorem Graph.Regular.substitute_replaces (hg : g.Regular) (hs : s.Within g) (hx : s.Tame g x) :
    Meets Overflow (substitute s x) g fun y g' => s.Replaces g' x y := by
  have hfinds : Meets Overflow (substitute s x) g fun y g' => s.Finds g g' x y := by
    apply substitute_answers_within (c := Substitution.finding hg hs) hg.toWellFormed
      (fun _ h => h.1) fun _ _ _ h => h.2.2.1
    · rintro depth x g' hg' hd ⟨-, hext, hlt, hx'⟩ -
      exact Substitution.transform_finds hg hs hd hx' hlt hg' hext
    · exact ⟨Nat.succ_ne_zero _, .refl g, hx.lt_size, .inr hx⟩
    · rintro rfl
      exact .of_spares hg hs hg.toWellFormed (.refl g) fun _ _ => rfl
  exact hfinds.mono fun y g' _ _ h => h.tame hx

/-! ### Symbols that are replaced -/

theorem Shape.IsSymbol.isLeaf {s : Shape} (h : s.IsSymbol) : s.IsLeaf := by
  cases s <;> trivial

namespace Substitution

/-- Only symbols are replaced. -/
def OnSymbols (s : Substitution) (g : Graph) : Prop := ∀ p ∈ s, (g.shape p.1).IsSymbol

namespace OnSymbols

theorem isSymbol (h : s.OnSymbols g) (hv : s.value? x = some y) : (g.shape x).IsSymbol :=
  h _ (mem_of_value? hv)

theorem value?_eq_none (h : s.OnSymbols g) (hx : ¬ (g.shape x).IsSymbol) : s.value? x = none := by
  cases hv : s.value? x with
  | none => rfl
  | some y => exact absurd (h.isSymbol hv) hx

theorem extend (h : s.OnSymbols g) (hext : g.Extends g') : s.OnSymbols g' := by
  intro p hp
  have hs := h p hp
  have hlt : p.1 < g.size := by
    by_contra hlt
    rw [Graph.shape, Graph.node_of_size_le (Nat.le_of_not_lt hlt)] at hs
    exact hs
  rwa [hext.shape_eq hlt]

end OnSymbols

theorem Spares.of_operands (hv : s.value? x = none) (hops : ∀ y ∈ g.operands x, s.Spares g y) :
    s.Spares g x := by
  have hreach : ∀ z, g.Reaches x z → z = x ∨ ∃ y ∈ g.operands x, g.Reaches y z := by
    intro z hz
    induction hz with
    | refl => exact .inl rfl
    | step _ hz ih =>
      rcases ih with rfl | ⟨y, hy, hyz⟩
      · exact .inr ⟨_, hz, .refl⟩
      · exact .inr ⟨y, hy, hyz.step hz⟩
  intro z hz
  rcases hreach z hz with rfl | ⟨y, hy, hyz⟩
  · exact hv
  · exact hops y hy z hyz

/-- Symbols do not come in by building nodes. -/
theorem Spares.of_rebuilt (hg : g.WellFormed) (hkeys : s.OnSymbols g)
    (hx : (g.shape x).IsLeaf → s.Spares g x) (hys : ∀ y ∈ ys, s.Spares g y)
    (h : g.Rebuilt x ys y) : s.Spares g y := by
  have hunit : ∀ k : Gathering, s.Spares g k.unit := by
    intro k
    have hnode := Gathering.node_unit hg k
    apply of_operands
    · apply hkeys.value?_eq_none
      rw [Graph.shape, hnode]
      exact id
    · rw [Graph.operands, hnode]
      exact fun y hy => absurd hy List.not_mem_nil
  exact h.closed hunit (fun _ h _ _ hy => h.operand hy) hx hys fun _ _ hleaf hops =>
    of_operands (hkeys.value?_eq_none fun hs => hleaf hs.isLeaf) hops

/-- No symbol is left that is replaced, if none comes in with the replacements. -/
theorem Replaces.spares (hg : g.WellFormed) (hs : s.Within g) (hkeys : s.OnSymbols g)
    (hvalues : ∀ p ∈ s, s.Spares g p.2) (hx : s.Tame g x) (h : s.Replaces g x y) :
    s.Spares g y := by
  refine induction (motive := fun _ y => s.Spares g y) hx h ?bound ?spared ?rebuilt
  case bound => exact fun x y hv => hvalues _ (mem_of_value? hv)
  case spared => exact fun x _ _ hs => hs
  case rebuilt =>
    intro x y ys hx hl hv hys hy
    have hrebuilt := rebuilt_of hg hs hx hl (hys.imp fun _ _ h => h.2.1) hy
    refine .of_rebuilt hg hkeys (fun hleaf => .of_operands hv fun y hy => ?_) (fun y hy => ?_)
      hrebuilt
    · simp [hg.leaf_operands hleaf] at hy
    · obtain ⟨_, -, h⟩ := Graph.exists_of_forall₂ hys hy
      exact h.2.2

end Substitution

/--
In every graph that programs reach, substitution for symbols replaces each of their occurrences in
an expression, if they do not occur in the replacements. Self-reference may be anywhere but around
these occurrences.
-/
theorem Graph.Reachable.substitute_clears (hg : g.Reachable) (hs : s.Within g)
    (hkeys : s.OnSymbols g) (hvalues : ∀ p ∈ s, s.Spares g p.2) (hx : s.Tame g x) :
    Meets Overflow (Graph.substitute s x) g fun y g' => s.Spares g' y := by
  have hwf := hg.regular.toWellFormed
  apply (hg.regular.substitute_replaces hs hx).mono
  intro y g' hg' hext hy
  apply hy.spares hg' (hs.extend hext) (hkeys.extend hext) _ (hx.extend hwf hg' hext)
  exact fun p hp => (hvalues p hp).extend hwf (hs p hp) hext

end ExactAlgebra
