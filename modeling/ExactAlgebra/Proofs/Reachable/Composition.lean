import Mathlib
import ExactAlgebra.Proofs.Reachable.Unfolding

/-!
Substitutions compose. To substitute twice comes to the same as to substitute once, with the second
substitution made in the replacements of the first. Between the two, sums and products are taken
apart, put in order again and collapse, and all of this commutes with what is substituted later.
-/

namespace ExactAlgebra

open ExactAlgebra.Graph (Gathering Gathers HasZero Interchangeable Meets Overflow Rebuilt
  Vocabulary both withOperands)

variable {V : Vocabulary} {s t u : Substitution} {k : Gathering} {g g' : Graph} {x y z : NodeId}
variable {xs ys zs : List NodeId}

namespace Substitution

/-- Only symbols are replaced, and all replacements are nodes that are their own sums and
products. -/
structure Plain (s : Substitution) (g : Graph) : Prop where
  onSymbols : s.OnSymbols g
  within : s.Within g
  settled : ∀ p ∈ s, g.Settled p.2

theorem Plain.extend (h : s.Plain g) (hg : g.WellFormed) (hg' : g'.WellFormed)
    (hext : g.Extends g') : s.Plain g' where
  onSymbols := h.onSymbols.extend hext
  within := h.within.extend hext
  settled p hp := (h.settled p hp).extend hg (h.within p hp) hg' hext

/-! ### What expressions become -/

namespace Tame

theorem flatten (hxs : ∀ x ∈ xs, t.Tame g x) : ∀ x ∈ k.flatten g xs, t.Tame g x :=
  Gathering.flatten_closed (fun _ h hl => h.operands hl) hxs

theorem of_rebuilt (hg : g.Regular) (hx : (g.shape x).IsLeaf → t.Tame g x)
    (hys : ∀ y ∈ ys, t.Tame g y) (h : g.Rebuilt x ys y) : t.Tame g y := by
  have hself := h.settled hg (fun hs => (hx hs).settled) fun y hy => (hys y hy).settled
  have hunit : ∀ k : Gathering, t.Tame g k.unit := by
    intro k
    cases k with
    | sum => exact (hg.elementary_zero (V := .all)).tame hg
    | product => exact (hg.elementary_one (V := .all)).tame hg
  exact h.closed hunit (fun _ h hl => h.operands hl) hx hys fun hy hl _ hops =>
    .node hy hl hself hops

end Tame

namespace Replaces

theorem settled (hg : g.Regular) (hs : s.Plain g) (hx : s.Tame g x) (h : s.Replaces g x y) :
    g.Settled y := by
  refine induction (motive := fun _ y => g.Settled y) hx h ?bound ?spared ?rebuilt
  case bound => exact fun x y hv => hs.settled _ (mem_of_value? hv)
  case spared => exact fun x hx _ _ => hx.settled
  case rebuilt =>
    intro x y ys hx hl _ hys hy
    have hrebuilt := rebuilt_of hg.toWellFormed hs.within hx hl (hys.imp fun _ _ h => h.2.1) hy
    refine hrebuilt.settled hg (fun _ => hx.settled) fun y hy => ?_
    obtain ⟨_, -, h⟩ := Graph.exists_of_forall₂ hys hy
    exact h.2.2

/-- An expression without self-reference becomes an expression that is as tame as the
replacements. -/
theorem tame (hg : g.Regular) (hs : ∀ p ∈ s, t.Tame g p.2) (hx : g.Elementary V x)
    (h : s.Replaces g x y) : t.Tame g y := by
  have hin : s.Within g := fun p hp => (hs p hp).lt_size
  refine induction (motive := fun x y => g.Elementary V x → t.Tame g y) (hx.tame hg) h ?bound
    ?spared ?rebuilt hx
  case bound => exact fun x y hv _ => hs _ (mem_of_value? hv)
  case spared =>
    intro x _ hl _ hx
    simp [hx.isLoop_eq] at hl
  case rebuilt =>
    intro x y ys htame hl _ hys hy hx
    have hrebuilt := rebuilt_of hg.toWellFormed hin htame hl (hys.imp fun _ _ h => h.2.1) hy
    refine .of_rebuilt hg (fun _ => hx.tame hg) (fun y hy => ?_) hrebuilt
    have hboth := (List.forall₂_and_left _ _).2 ⟨hx.operands, hys⟩
    obtain ⟨_, -, h⟩ := Graph.exists_of_forall₂ hboth hy
    exact h.2.2.2 h.1

theorem of_constant (hg : g.WellFormed) (hkeys : s.OnSymbols g) (hl : g.isLoop x = false) {q : Rat}
    (hs : g.shape x = .constant q) : s.Replaces g x x := by
  refine .leaf hg hl (hkeys.value?_eq_none ?_) ?_ <;> rw [hs]
  · exact id
  · trivial

/-- Constants stay what they are where only symbols are replaced. -/
theorem eq_of_value? (hkeys : s.OnSymbols g) {q : Rat} (hq : g.value? x = some q)
    (h : s.Replaces g x y) : y = x := by
  have hs : g.shape x = .constant q := by
    rw [Graph.value?] at hq
    cases hs : g.shape x <;> rw [hs] at hq <;> cases hq
    rfl
  cases h with
  | bound hv =>
    have hsymbol := hkeys.isSymbol hv
    rw [hs] at hsymbol
    exact hsymbol.elim
  | spared => rfl
  | rebuilt _ _ _ hy =>
    rw [Graph.withOperands_leaf (by rw [hs]; trivial)] at hy
    cases hy
    rfl

/-! ### Replacing in sums and products -/

theorem gathers_of (hg : g.WellFormed) (hs : s.Within g) (hx : s.Tame g x)
    (hl : g.isLoop x = false) (hshape : g.shape x = k.shape)
    (hys : List.Forall₂ (s.Replaces g) (g.operands x) ys) (hy : withOperands x ys g = .ok y g) :
    g.Gathers k (k.flatten g ys) y := by
  have hlt := forall_lt_size hg hs (hx.operands hl) hys
  exact ((hg.build_gathers k hlt).of_eq ((Graph.withOperands_gathering hshape).symm.trans hy)).2

/-- What is taken over of an operand becomes what is taken over of what the operand becomes. -/
theorem flatten_singleton (hg : g.Regular) (hs : s.Plain g) (hx : s.Tame g x)
    (h : s.Replaces g x y) :
    ∃ qs, List.Forall₂ (s.Replaces g) (k.flatten g [x]) qs ∧
      g.Interchangeable (k.flatten g [y]) (k.flatten g qs) := by
  cases hopens : k.opens (g.node x) with
  | true =>
    obtain ⟨hshape, hl⟩ := Gathering.opens_iff.1 hopens
    have hsymbol : ¬ (g.shape x).IsSymbol := hshape ▸ Gathering.not_isSymbol
    cases h with
    | bound hv => simp [hs.onSymbols.value?_eq_none hsymbol] at hv
    | spared hl' => simp [hl] at hl'
    | @rebuilt _ _ ys _ _ hys hy =>
      rw [hx.settled.flatten_self hg.toWellFormed hx.lt_size hl hshape]
      have hgathers := gathers_of hg.toWellFormed hs.within hx hl hshape hys hy
      refine ⟨ys, hys, hgathers.flatten hg.toWellFormed fun z hz => ?_⟩
      exact ⟨(Gathering.mem_flatten.1 hz).2, (hg.flatten k ys z hz).2⟩
  | false =>
    rw [Gathering.flatten_singleton, Gathering.parts_of_not_opens hopens, List.filter_singleton]
    cases hneutral : g.hasValue k.neutral x with
    | true =>
      obtain rfl := h.eq_of_value? hs.onSymbols (of_decide_eq_true hneutral)
      refine ⟨[], .nil, ?_⟩
      rw [Gathering.flatten_singleton, Gathering.parts_of_not_opens hopens, List.filter_singleton,
        hneutral]
      exact .of_perm .nil
    | false => exact ⟨[y], .cons h .nil, .of_perm (.refl _)⟩

theorem flatten (hg : g.Regular) (hs : s.Plain g) (hxs : ∀ x ∈ xs, s.Tame g x)
    (h : List.Forall₂ (s.Replaces g) xs ys) :
    ∃ qs, List.Forall₂ (s.Replaces g) (k.flatten g xs) qs ∧
      g.Interchangeable (k.flatten g ys) (k.flatten g qs) := by
  induction h with
  | nil => exact ⟨[], .nil, .of_perm .nil⟩
  | @cons x y xs ys hxy _ ih =>
    obtain ⟨ps, hps, hpi⟩ := hxy.flatten_singleton (k := k) hg hs (hxs x List.mem_cons_self)
    obtain ⟨qs, hqs, hqi⟩ := ih fun x hx => hxs x (List.mem_cons_of_mem _ hx)
    refine ⟨ps ++ qs, ?_, ?_⟩
    · rw [← List.singleton_append, Gathering.flatten_append]
      exact List.rel_append hps hqs
    · rw [← List.singleton_append, Gathering.flatten_append, Gathering.flatten_append]
      exact hpi.append hqi

/-- What is gathered from operands becomes what is gathered from what they become. -/
theorem gathers (hg : g.Regular) (hs : s.Plain g) (hxs : ∀ x ∈ xs, s.Tame g x)
    (hkept : ∀ x ∈ xs, g.hasValue k.neutral x = false) (h : List.Forall₂ (s.Replaces g) xs ys)
    (hy : g.Gathers k xs y) (hz : g.Gathers k (k.flatten g ys) z) : s.Replaces g y z := by
  have hwf := hg.toWellFormed
  have hunit : ∀ k : Gathering, s.Replaces g k.unit k.unit := fun k =>
    of_constant hwf hs.onSymbols (by rw [Graph.isLoop, Gathering.node_unit hwf])
      (by rw [Graph.shape, Gathering.node_unit hwf])
  cases hy with
  | zero hzero =>
    obtain ⟨x, hx, hvalue⟩ := hzero
    obtain ⟨w, hw, hxw⟩ := Graph.exists_of_forall₂ h.flip hx
    obtain rfl := eq_of_value? hs.onSymbols hvalue hxw
    have hopens : k.opens (g.node w) = false := Gathering.not_opens_of_shape fun hshape => by
      rw [Graph.value?_of_gathering hshape] at hvalue
      cases hvalue
    have hmem : w ∈ k.flatten g ys := by
      refine Gathering.mem_flatten.2 ⟨⟨w, hw, ?_⟩, hkept w hx⟩
      rw [Gathering.parts_of_not_opens hopens]
      exact List.mem_singleton_self w
    rw [hz.eq_zero ⟨w, hmem, hvalue⟩]
    exact hunit .sum
  | unit =>
    cases h
    have hnone : ∀ x ∈ ([] : List NodeId), x < g.size := fun _ hx => absurd hx List.not_mem_nil
    rw [hz.unique hwf hnone .unit]
    exact hunit k
  | single =>
    cases h with
    | @cons _ w _ _ hyw hnil =>
      cases hnil
      have htame := hxs y List.mem_cons_self
      have hlt := forall_lt_size hwf hs.within hxs (.cons hyw .nil)
      have hbuild := hyw.settled hg hs htame k
      rw [Gathers.build hwf hlt hz] at hbuild
      cases hbuild
      exact hyw
  | @node _ ops _ _ _ hp _ _ hn =>
    obtain ⟨qs, hqs, hperm⟩ := List.perm_comp_forall₂ hp h
    have hshape : g.shape y = k.shape := by rw [Graph.shape, hn]
    have hops : g.operands y = ops := by rw [Graph.operands, hn]
    have hlt := forall_lt_size hwf hs.within (fun x hx => hxs x (hp.mem_iff.1 hx)) hqs
    have hnone := hs.onSymbols.value?_eq_none (x := y) (hshape ▸ Gathering.not_isSymbol)
    refine .rebuilt (by rw [Graph.isLoop, hn]) hnone (hops ▸ hqs) ?_
    rw [Graph.withOperands_gathering hshape]
    exact Gathers.build hwf hlt (hz.congr (.of_perm (Gathering.flatten_perm hperm.symm)))

/-! ### One substitution after another -/

/-- What is built over operands becomes what is built over what the operands become. -/
theorem rebuilt_over (hg : g.Regular) (ht : t.Plain g) (hl : g.isLoop x = false)
    (hleaf : (g.shape x).IsLeaf → t.value? x = none) (hys : ∀ y ∈ ys, t.Tame g y)
    (hyz : List.Forall₂ (t.Replaces g) ys zs) (hy : g.Rebuilt x ys y)
    (hz : withOperands x zs g = .ok z g) : t.Replaces g y z := by
  have hwf := hg.toWellFormed
  have hlt := forall_lt_size hwf ht.within hys hyz
  cases hy with
  | leaf hs =>
    rw [Graph.withOperands_leaf hs] at hz
    cases hz
    exact .leaf hwf hl (hleaf hs) hs
  | @gathered k _ hs hy =>
    rw [Graph.withOperands_gathering hs] at hz
    obtain ⟨qs, hqs, hi⟩ := flatten (k := k) hg ht hys hyz
    have hgathers := ((hwf.build_gathers k hlt).of_eq hz).2
    have hkept : ∀ x ∈ k.flatten g ys, g.hasValue k.neutral x = false := fun x hx =>
      (Gathering.mem_flatten.1 hx).2
    exact gathers hg ht (Tame.flatten hys) hkept hqs hy (hgathers.congr hi)
  | @base _ e hs he hone =>
    subst he
    cases hyz with
    | @cons _ w _ _ hyw hyz =>
      cases hyz with
      | @cons _ e' _ _ hee' hnil =>
        cases hnil
        obtain rfl := hee'.eq_of_value? ht.onSymbols (of_decide_eq_true hone)
        rw [withOperands, Graph.get_bind, hs] at hz
        change Graph.power w e' g = _ at hz
        rw [Graph.power, Graph.get_bind, if_pos hone] at hz
        cases hz
        exact hyw
  | node hs _ hy hn =>
    have hshape : g.shape y = g.shape x := by rw [Graph.shape, hn]
    have hops : g.operands y = ys := by rw [Graph.operands, hn]
    have hsymbol : ¬ (g.shape y).IsSymbol := fun h => hs (hshape ▸ h.isLeaf)
    refine .rebuilt (by rw [Graph.isLoop, hn]) (ht.onSymbols.value?_eq_none hsymbol) (hops ▸ hyz) ?_
    rw [Graph.withOperands_congr hs hshape, hz]

end Replaces

/-- `u` replaces by `s` and then by `t`. -/
structure Composes (s t u : Substitution) (g : Graph) : Prop where
  bound : ∀ x y, s.value? x = some y → ∃ z, u.value? x = some z ∧ t.Replaces g y z
  other : ∀ x, s.value? x = none → u.value? x = t.value? x

theorem Replaces.comp (hg : g.Regular) (hs : ∀ p ∈ s, t.Tame g p.2) (ht : t.Plain g)
    (hu : Composes s t u g) (hx : g.Elementary V x) (hy : s.Replaces g x y)
    (hz : u.Replaces g x z) : t.Replaces g y z := by
  have hin : s.Within g := fun p hp => (hs p hp).lt_size
  refine induction (motive := fun x y => g.Elementary V x →
    ∀ z, u.Replaces g x z → t.Replaces g y z) (hx.tame hg) hy ?bound ?spared ?rebuilt hx z hz
  case bound =>
    intro x y hv hx z hz
    obtain ⟨w, hw, hyw⟩ := hu.bound x y hv
    obtain rfl := hz.unique (hx.tame hg) (.bound hw)
    exact hyw
  case spared =>
    intro x _ hl _ hx
    simp [hx.isLoop_eq] at hl
  case rebuilt =>
    intro x y ys htame hl hv hys hy hx z hz
    have hother := hu.other x hv
    have hrebuilt := rebuilt_of hg.toWellFormed hin htame hl (hys.imp fun _ _ h => h.2.1) hy
    have hboth := (List.forall₂_and_left _ _).2 ⟨hx.operands, hys⟩
    cases hz with
    | bound hz =>
      have hz' : t.value? x = some z := hother ▸ hz
      rw [Graph.withOperands_leaf (ht.onSymbols.isSymbol hz').isLeaf] at hy
      cases hy
      exact .bound hz'
    | spared hl' => simp [hl] at hl'
    | rebuilt _ hz hzs hz' =>
      refine rebuilt_over hg ht hl (fun _ => hother ▸ hz) ?_ ?_ hrebuilt hz'
      · intro y hy
        obtain ⟨_, -, h⟩ := Graph.exists_of_forall₂ hboth hy
        exact h.2.2.1.tame hg hs h.1
      · exact forall₂_join hboth hzs fun _ _ _ h h' => h.2.2.2 h.1 _ h'

/-- The replacements of `s`, with `t` made in them. -/
def mapValues (s t : Substitution) : Build Substitution :=
  s.mapM fun p => do return (p.1, ← Graph.substitute t p.2)

/-- The substitution that makes up for `s` and then `t`; where both replace a node, `s` counts. -/
def andThen (s t : Substitution) : Build Substitution := do
  return t ++ (← s.mapValues t)

theorem forall₂_lookup {R : NodeId → NodeId → Prop} {s s' : Substitution}
    (h : List.Forall₂ (fun p q => p.1 = q.1 ∧ R p.2 q.2) s s') (x : NodeId) :
    (s.lookup x = none ∧ s'.lookup x = none) ∨
      ∃ y z, s.lookup x = some y ∧ s'.lookup x = some z ∧ R y z := by
  induction h with
  | nil => exact .inl ⟨rfl, rfl⟩
  | @cons p q s s' hpq _ ih =>
    obtain ⟨k, v⟩ := p
    obtain ⟨_, v'⟩ := q
    obtain ⟨rfl, hv⟩ := hpq
    by_cases hx : x = k
    · subst hx
      exact .inr ⟨v, v', List.lookup_cons_self, List.lookup_cons_self, hv⟩
    · have hne : (x == k) = false := beq_false_of_ne hx
      simpa only [List.lookup_cons, hne] using ih

theorem composes_append {s' : Substitution}
    (h : List.Forall₂ (fun p q => p.1 = q.1 ∧ t.Replaces g p.2 q.2) s s') :
    Composes s t (t ++ s') g := by
  have hlookup := forall₂_lookup (List.forall₂_reverse_iff.2 h)
  have happend : ∀ x, (t ++ s').value? x = (s'.value? x).or (t.value? x) := by
    intro x
    rw [value?, List.reverse_append, List.lookup_append, value?, value?]
  constructor
  · intro x y hv
    rcases hlookup x with ⟨hnone, -⟩ | ⟨y', z, hy, hz, hyz⟩
    · rw [value?, hnone] at hv
      cases hv
    · obtain rfl : y' = y := Option.some.inj (hy.symm.trans hv)
      exact ⟨z, by rw [happend, value?, hz, Option.some_or], hyz⟩
  · intro x hv
    rcases hlookup x with ⟨-, hnone⟩ | ⟨y, z, hy, -, -⟩
    · rw [happend, value?, hnone, Option.none_or]
    · rw [value?, hy] at hv
      cases hv

end Substitution

namespace Graph

theorem substitute_regular (hg : g.Regular) (s : Substitution) (x : NodeId) :
    (final (substitute s x g)).Regular :=
  (substitute_leads acting s x g).regular hg

theorem Regular.substitute_finds (hg : g.Regular) (hs : s.Within g) (hx : s.Tame g x) :
    Meets Overflow (substitute s x) g fun y g' => g'.Regular ∧ s.Replaces g' x y := by
  have hregular := substitute_regular hg s x
  have hkeeps : Meets Overflow (substitute s x) g fun _ g' => g'.Regular :=
    (hg.substitute_replaces hs hx).mono_of_eq_ok fun y g' he => by rwa [he] at hregular
  exact hkeeps.and (hg.substitute_replaces hs hx)

end Graph

namespace Substitution

/-- What `x` becomes when one substitution is made, and then the other. -/
def twice (s t : Substitution) (x : NodeId) : Build NodeId := do
  let y ← Graph.substitute s x
  Graph.substitute t y

/-- What `x` becomes when both substitutions are made at once. -/
def once (s t : Substitution) (x : NodeId) : Build NodeId := do
  let u ← s.andThen t
  Graph.substitute u x

/-- `z` is what `x` becomes in two steps. -/
def Twice (s t : Substitution) (x : NodeId) (g : Graph) (z : NodeId) : Prop :=
  ∃ y, s.Replaces g x y ∧ t.Replaces g y z

/-- `z` is what `x` becomes in one step. -/
def Once (s t : Substitution) (x : NodeId) (g : Graph) (z : NodeId) : Prop :=
  ∃ u, u.Within g ∧ Composes s t u g ∧ u.Replaces g x z

/-- An expression without self-reference, in which a first substitution may be made and then a
second, which replaces symbols only and nothing in the loops that come with the first. -/
structure Composable (V : Vocabulary) (s t : Substitution) (x : NodeId) (g : Graph) : Prop where
  elementary : g.Elementary V x
  tame : ∀ p ∈ s, t.Tame g p.2
  plain : t.Plain g

namespace Composable

theorem within (h : Composable V s t x g) : s.Within g := fun p hp => (h.tame p hp).lt_size

theorem extend (h : Composable V s t x g) (hg : g.WellFormed) (hg' : g'.WellFormed)
    (hext : g.Extends g') : Composable V s t x g' where
  elementary := hext.elementary h.elementary
  tame p hp := (h.tame p hp).extend hg hg' hext
  plain := h.plain.extend hg hg' hext

theorem twice_eq_once (h : Composable V s t x g) (hg : g.Regular) (hy : Twice s t x g y)
    (hz : Once s t x g z) : y = z := by
  obtain ⟨w, hw, hy⟩ := hy
  obtain ⟨u, -, hu, hz⟩ := hz
  exact hy.unique (hw.tame hg h.tame h.elementary) (hw.comp hg h.tame h.plain hu h.elementary hz)

/-! #### Two steps -/

theorem twice_meets (h : Composable V s t x g) (hg : g.Regular) :
    Meets Overflow (twice s t x) g fun y g' => g'.Regular ∧ Twice s t x g' y := by
  apply (hg.substitute_finds h.within (h.elementary.tame hg)).bind
  intro y g₁ hwf₁ hext ⟨hg₁, hy⟩
  have h₁ := h.extend hg.toWellFormed hwf₁ hext
  apply (hg₁.substitute_finds h₁.plain.within (hy.tame hg₁ h₁.tame h₁.elementary)).mono
  intro z g₂ hwf₂ hext₂ ⟨hg₂, hz⟩
  exact ⟨hg₂, y, hy.extend hwf₁ h₁.within (h₁.elementary.tame hg₁) hwf₂ hext₂, hz⟩

theorem twice_extend (h : Composable V s t x g) (hg : g.Regular) (hg' : g'.WellFormed)
    (hext : g.Extends g') (hy : Twice s t x g y) : Twice s t x g' y := by
  obtain ⟨w, hw, hy⟩ := hy
  have hwf := hg.toWellFormed
  exact ⟨w, hw.extend hwf h.within (h.elementary.tame hg) hg' hext,
    hy.extend hwf h.plain.within (hw.tame hg h.tame h.elementary) hg' hext⟩

/-! #### One step -/

theorem mapValues_meets (h : Composable V s t x g) (hg : g.Regular) :
    Meets Overflow (s.mapValues t) g fun s' g' =>
      g'.Regular ∧ s'.Within g' ∧
        List.Forall₂ (fun p q => p.1 = q.1 ∧ t.Replaces g' p.2 q.2) s s' := by
  induction s generalizing g with
  | nil => exact .pure hg.toWellFormed ⟨hg, fun _ hp => absurd hp List.not_mem_nil, .nil⟩
  | cons p s ih =>
    rw [mapValues, List.mapM_cons, ← mapValues]
    have hp := h.tame p List.mem_cons_self
    have hpair : Meets Overflow (do return (p.1, ← Graph.substitute t p.2)) g fun q g' =>
        g'.Regular ∧ p.1 = q.1 ∧ t.Replaces g' p.2 q.2 :=
      (hg.substitute_finds h.plain.within hp).bind fun y g' hwf _ ⟨hg', hy⟩ =>
        .pure hwf ⟨hg', rfl, hy⟩
    apply hpair.bind
    intro q g₁ hwf₁ hx₁ ⟨hg₁, hkey, hq⟩
    have h₁ := h.extend hg.toWellFormed hwf₁ hx₁
    have hp₁ := h₁.tame p List.mem_cons_self
    have hrest : Composable V s t x g₁ :=
      { h₁ with tame := fun p hp => h₁.tame p (List.mem_cons_of_mem _ hp) }
    apply (ih hrest hg₁).bind
    intro s' g₂ hwf₂ hx₂ ⟨hg₂, hin, hs'⟩
    have hq₂ := hq.extend hwf₁ h₁.plain.within hp₁ hwf₂ hx₂
    refine .pure hwf₂ ⟨hg₂, ?_, .cons ⟨hkey, hq₂⟩ hs'⟩
    intro r hr
    rcases List.mem_cons.1 hr with rfl | hr
    · exact hx₂.lt_size (hq.lt_size hwf₁ h₁.plain.within hp₁)
    · exact hin r hr

theorem andThen_meets (h : Composable V s t x g) (hg : g.Regular) :
    Meets Overflow (s.andThen t) g fun u g' =>
      g'.Regular ∧ u.Within g' ∧ Composes s t u g' := by
  apply (h.mapValues_meets hg).bind
  intro s' g' hwf hx ⟨hg', hin, hs'⟩
  refine .pure hwf ⟨hg', ?_, composes_append hs'⟩
  intro p hp
  rcases List.mem_append.1 hp with hp | hp
  · exact hx.lt_size (h.plain.within p hp)
  · exact hin p hp

theorem composes_extend (h : Composable V s t x g) (hu : Composes s t u g) (hg : g.WellFormed)
    (hg' : g'.WellFormed) (hext : g.Extends g') : Composes s t u g' where
  bound x y hv := by
    obtain ⟨z, hz, hyz⟩ := hu.bound x y hv
    exact ⟨z, hz, hyz.extend hg h.plain.within (h.tame _ (mem_of_value? hv)) hg' hext⟩
  other := hu.other

theorem once_meets (h : Composable V s t x g) (hg : g.Regular) :
    Meets Overflow (once s t x) g fun y g' => g'.Regular ∧ Once s t x g' y := by
  apply (h.andThen_meets hg).bind
  intro u g₁ hwf₁ hext ⟨hg₁, hin, hu⟩
  have h₁ := h.extend hg.toWellFormed hwf₁ hext
  apply (hg₁.substitute_finds hin (h₁.elementary.tame hg₁)).mono
  intro z g₂ hwf₂ hext₂ ⟨hg₂, hz⟩
  exact ⟨hg₂, u, hin.extend hext₂, h₁.composes_extend hu hwf₁ hwf₂ hext₂, hz⟩

theorem once_extend (h : Composable V s t x g) (hg : g.Regular) (hg' : g'.WellFormed)
    (hext : g.Extends g') (hy : Once s t x g y) : Once s t x g' y := by
  obtain ⟨u, hin, hu, hy⟩ := hy
  have hwf := hg.toWellFormed
  exact ⟨u, hin.extend hext, h.composes_extend hu hwf hg' hext,
    hy.extend hwf hin (h.elementary.tame hg) hg' hext⟩

theorem both_meets (h : Composable V s t x g) (hg : g.Regular) :
    Meets Overflow (both (twice s t x) (once s t x)) g (fun p _ => p.1 = p.2) ∧
      Meets Overflow (both (once s t x) (twice s t x)) g (fun p _ => p.1 = p.2) := by
  constructor
  · apply (h.twice_meets hg).bind
    intro y g₁ hwf₁ hx₁ ⟨hg₁, hy⟩
    have h₁ := h.extend hg.toWellFormed hwf₁ hx₁
    apply (h₁.once_meets hg₁).bind
    intro z g₂ hwf₂ hx₂ ⟨hg₂, hz⟩
    have hy₂ := h₁.twice_extend hg₁ hwf₂ hx₂ hy
    exact .pure hwf₂ ((h₁.extend hwf₁ hwf₂ hx₂).twice_eq_once hg₂ hy₂ hz)
  · apply (h.once_meets hg).bind
    intro z g₁ hwf₁ hx₁ ⟨hg₁, hz⟩
    have h₁ := h.extend hg.toWellFormed hwf₁ hx₁
    apply (h₁.twice_meets hg₁).bind
    intro y g₂ hwf₂ hx₂ ⟨hg₂, hy⟩
    have hz₂ := h₁.once_extend hg₁ hwf₂ hx₂ hz
    exact .pure hwf₂ ((h₁.extend hwf₁ hwf₂ hx₂).twice_eq_once hg₂ hy hz₂).symm

end Composable

end Substitution

namespace Graph

open Substitution (once twice)

/--
In every graph that programs reach, two substitutions into an expression without self-reference lead
to the node that one substitution leads to: the one that replaces what the first replaces by its
replacements with the second made in them, and other symbols as the second does. It does not matter
which way comes first, and only for lack of room may there be no such node. Replacements may be
self-referential, but those of the first must not be so in what the second replaces.
-/
theorem Reachable.substitute_compose (hg : g.Reachable) (hx : g.Elementary V x)
    (hs : ∀ p ∈ s, t.Tame g p.2) (ht : t.Plain g) :
    Meets Overflow (both (twice s t x) (once s t x)) g (fun p _ => p.1 = p.2) ∧
      Meets Overflow (both (once s t x) (twice s t x)) g (fun p _ => p.1 = p.2) :=
  Substitution.Composable.both_meets ⟨hx, hs, ht⟩ hg.regular

/-- The loop `r = not (a + r)`, node `6` over the sum `7`, and the sum `w + x`, node `9`. -/
def negatedLoop : Graph :=
  [Action.construct (.symbol "a"), .construct (.symbol "v"), .construct (.symbol "w"),
    .construct (.symbol "x"), .openLoop "r", .construct (.sum [2, 6]),
    .construct (.unary .negation 7), .closeLoop 6 8, .construct (.sum [4, 5])].foldl
      (fun g a => a.after g) .empty

theorem negatedLoop_reachable : negatedLoop.Reachable := Reachable.empty.acts _

theorem negatedLoop_elementary : negatedLoop.Elementary .all 9 := by
  have hleaf : ∀ x ∈ [4, 5], negatedLoop.Elementary .all x := by
    intro x hx
    have hx' : x < negatedLoop.size ∧ negatedLoop.isLoop x = false ∧
        negatedLoop.operands x = [] := by
      rcases List.mem_pair.1 hx with rfl | rfl <;> cbv
    refine .node hx'.1 hx'.2.1 (Vocabulary.all_covers x _) fun y hy => ?_
    rw [hx'.2.2] at hy
    exact absurd hy List.not_mem_nil
  have hoperands : negatedLoop.operands 9 = [4, 5] := by cbv
  exact .node (by cbv) (by cbv) (Vocabulary.all_covers 9 _) (hoperands ▸ hleaf)

theorem negatedLoop_settled : negatedLoop.Settled 6 := by
  have hshape : negatedLoop.shape 6 = .unary .negation := by cbv
  apply settled_of_shape
  · rw [hshape]
    exact id
  · intro k
    rw [hshape]
    cases k <;> exact Shape.noConfusion

theorem negatedLoop_tame : Substitution.Tame [(4, 6)] negatedLoop 6 := by
  have hreach : ∀ z, negatedLoop.Reaches 6 z → z ∈ [6, 7, 2] := by
    intro z hz
    induction hz with
    | refl => exact List.mem_cons_self
    | @step y z _ hz hy =>
      have hops : negatedLoop.operands 6 = [7] ∧ negatedLoop.operands 7 = [2, 6] ∧
          negatedLoop.operands 2 = [] := by cbv
      simp only [List.mem_cons, List.not_mem_nil, or_false] at hy
      rcases hy with rfl | rfl | rfl <;> simp only [hops] at hz <;> revert z <;> decide
  refine .loop (by cbv) (by cbv) negatedLoop_settled fun z hz => ?_
  have hnone : ∀ z ∈ [6, 7, 2], Substitution.value? [(4, 6)] z = none := by decide
  exact hnone z (hreach z hz)

/-- In `w + x`, first `x` and then `w` may be replaced by the loop, or both at once. -/
theorem negatedLoop_substitute_compose :
    (∀ p ∈ [(5, 6)], Substitution.Tame [(4, 6)] negatedLoop p.2) ∧
      Substitution.Plain [(4, 6)] negatedLoop ∧
      Meets Overflow (both (twice [(5, 6)] [(4, 6)] 9) (once [(5, 6)] [(4, 6)] 9)) negatedLoop
        fun p _ => p.1 = p.2 := by
  have hs : ∀ p ∈ [(5, 6)], Substitution.Tame [(4, 6)] negatedLoop p.2 := by
    intro p hp
    rw [List.mem_singleton.1 hp]
    exact negatedLoop_tame
  have ht : Substitution.Plain [(4, 6)] negatedLoop := by
    constructor <;> intro p hp <;> rw [List.mem_singleton.1 hp]
    · have hsymbol : negatedLoop.shape 4 = .symbol "w" := by cbv
      rw [hsymbol]
      trivial
    · cbv
    · exact negatedLoop_settled
  exact ⟨hs, ht, (negatedLoop_reachable.substitute_compose negatedLoop_elementary hs ht).1⟩

/-- With `x` replaced by the sum `a + r` that the loop is made of, and then `a` by `v`, two steps
come to `v + w + not (v + r)`, and one step comes to `v + w + r`. -/
theorem negatedLoop_compose_ne :
    negatedLoop.Reachable ∧ negatedLoop.Elementary .all 9 ∧
      (negatedLoop.shape 5).IsSymbol ∧ (negatedLoop.shape 2).IsSymbol ∧
      match both (twice [(5, 7)] [(2, 3)] 9) (once [(5, 7)] [(2, 3)] 9) negatedLoop with
      | .ok p _ => p.1 ≠ p.2
      | .error _ _ => False := by
  have hx : negatedLoop.shape 5 = .symbol "x" := by cbv
  have ha : negatedLoop.shape 2 = .symbol "a" := by cbv
  rw [hx, ha]
  exact ⟨negatedLoop_reachable, negatedLoop_elementary, trivial, trivial, by cbv⟩

end Graph

end ExactAlgebra
