import Mathlib.Data.List.ReduceOption
import ExactAlgebra.Proofs.Collection.Replay
import ExactAlgebra.Proofs.Collection.Terms
import ExactAlgebra.Proofs.Reachable.Rebuilding

/-!
Building the same again in another order. After a construction, a second one that takes the same
steps, some of them in another order, finds all that it needs, and adds nothing.
-/

namespace ExactAlgebra.Graph

variable {α β γ δ : Type} {g g' : Graph} {x : NodeId} {xs ys : List NodeId}

/-- In all larger graphs a construction comes to `a`, and adds nothing. -/
def Retrieves (g : Graph) (m : Build α) (a : α) : Prop :=
  ∀ t, t.WellFormed → g.Extends t → m t = .ok a t

namespace Retrieves

variable {m : Build α} {a : α}

theorem extend (h : g.Retrieves m a) (hx : g.Extends g') : g'.Retrieves m a :=
  fun t ht hx' => h t ht (hx.trans hx')

theorem pure (g : Graph) (a : α) : g.Retrieves (Pure.pure a) a := fun _ _ _ => rfl

theorem bind {f : α → Build β} {b : β} (h : g.Retrieves m a) (hf : g.Retrieves (f a) b) :
    g.Retrieves (m >>= f) b := by
  intro t ht hx
  simp only [Bind.bind, EStateM.bind, h t ht hx, hf t ht hx]

theorem mapM {f : α → Build β} {as : List α} {bs : List β}
    (h : List.Forall₂ (fun a b => g.Retrieves (f a) b) as bs) : g.Retrieves (as.mapM f) bs := by
  induction h with
  | nil => exact pure g []
  | cons hb _ ih =>
    rw [List.mapM_cons]
    exact hb.bind (ih.bind (pure g _))

end Retrieves

/-- Where one construction leads to `a`, the other one leads afterwards, nothing being added, to
some `b` that goes with it. -/
def Echoes (m : Build α) (m' : Build β) (g : Graph) (R : Graph → α → β → Prop) : Prop :=
  Meets Overflow m g fun a g' => ∃ b, R g' a b ∧ g'.Retrieves m' b

/-- A construction that comes to the same again. -/
def Repeatable (m : Build α) (g : Graph) (Q : Graph → α → Prop) : Prop :=
  Echoes m m g fun g' a b => b = a ∧ Q g' a

namespace Echoes

variable {m : Build α} {m' : Build β} {R : Graph → α → β → Prop} {a : α} {b : β}

theorem pure (hg : g.WellFormed) (h : R g a b) : Echoes (Pure.pure a) (Pure.pure b) g R :=
  Meets.pure hg ⟨b, h, .pure g b⟩

theorem bind {f : α → Build γ} {f' : β → Build δ} {S : Graph → γ → δ → Prop}
    (h : Echoes m m' g R)
    (hf : ∀ a b g', g'.WellFormed → g.Extends g' → R g' a b → Echoes (f a) (f' b) g' S) :
    Echoes (m >>= f) (m' >>= f') g S := by
  apply Meets.bind h
  intro a g' hg' hx ⟨b, hab, hfound⟩
  apply (hf a b g' hg' hx hab).mono
  intro c g'' _ hx' ⟨d, hcd, hfound'⟩
  exact ⟨d, hcd, (hfound.extend hx').bind hfound'⟩

/-- What the second construction reads of the graph has to be the same in every larger one. -/
theorem get {f : Graph → Build α} {f' : Graph → Build β}
    (hf : ∀ t, g.Extends t → f' t = f' g) (h : Echoes (f g) (f' g) g R) :
    Echoes (MonadState.get >>= f) (MonadState.get >>= f') g R := by
  apply Meets.get
  apply Meets.mono h
  intro a g' _ hx ⟨b, hab, hfound⟩
  refine ⟨b, hab, fun t ht hx' => ?_⟩
  rw [get_bind, hf t (hx.trans hx')]
  exact hfound t ht hx'

theorem ite {c : Prop} [Decidable c] {n : Build α} {n' : Build β} (h : c → Echoes m m' g R)
    (h' : ¬ c → Echoes n n' g R) :
    Echoes (if c then m else n) (if c then m' else n') g R := by
  split
  · exact h ‹_›
  · exact h' ‹_›

end Echoes

namespace Repeatable

variable {m : Build α} {Q : Graph → α → Prop} {a : α}

theorem pure (hg : g.WellFormed) (h : Q g a) : Repeatable (Pure.pure a) g Q :=
  Echoes.pure hg ⟨rfl, h⟩

theorem echoes_bind {f : α → Build β} {f' : α → Build γ} {S : Graph → β → γ → Prop}
    (h : Repeatable m g Q)
    (hf : ∀ a g', g'.WellFormed → g.Extends g' → Q g' a → Echoes (f a) (f' a) g' S) :
    Echoes (m >>= f) (m >>= f') g S := by
  apply Echoes.bind h
  rintro _ a g' hg' hx ⟨rfl, ha⟩
  exact hf a g' hg' hx ha

theorem bind {f : α → Build β} {S : Graph → β → Prop} (h : Repeatable m g Q)
    (hf : ∀ a g', g'.WellFormed → g.Extends g' → Q g' a → Repeatable (f a) g' S) :
    Repeatable (m >>= f) g S := h.echoes_bind hf

theorem get {f : Graph → Build α} (hf : ∀ t, g.Extends t → f t = f g) (h : Repeatable (f g) g Q) :
    Repeatable (MonadState.get >>= f) g Q := Echoes.get hf h

theorem ite {c : Prop} [Decidable c] {n : Build α} (h : c → Repeatable m g Q)
    (h' : ¬ c → Repeatable n g Q) : Repeatable (if c then m else n) g Q := Echoes.ite h h'

end Repeatable

/-! ### Lists in another order -/

section Lists

variable {P : Graph → α → Prop} {I : Graph → β → Prop} {as as' : List α}

/-- What was built for each entry of a list is found again. -/
theorem Repeatable.mapM_retrieves {f : α → Build β}
    (hP : ∀ {g g' : Graph} {a}, g.Extends g' → P g a → P g' a)
    (hI : ∀ {g g' : Graph} {b}, g.Extends g' → I g b → I g' b)
    (hf : ∀ {g : Graph} {a}, g.WellFormed → P g a → Repeatable (f a) g I) (hg : g.WellFormed)
    (has : ∀ a ∈ as, P g a) :
    Meets Overflow (as.mapM f) g fun bs g' =>
      (∀ b ∈ bs, I g' b) ∧ List.Forall₂ (fun a b => g'.Retrieves (f a) b) as bs := by
  have hbuilt : Meets Overflow (as.mapM f) g fun bs g' =>
      List.Forall₂ (fun a b => I g' b ∧ g'.Retrieves (f a) b) as bs := by
    apply Meets.mapM (P := P) (fun _ hx ha => hP hx ha)
      (fun _ hx hb => ⟨hI hx hb.1, hb.2.extend hx⟩) _ hg has
    intro g a hg ha
    apply Meets.mono (hf hg ha)
    rintro b g' _ _ ⟨_, ⟨rfl, hb⟩, hfound⟩
    exact ⟨hb, hfound⟩
  apply hbuilt.mono
  intro bs g' _ _ hbs
  exact ⟨((List.forall₂_and_left _ _).1 hbs.flip).1, hbs.imp fun _ _ h => h.2⟩

theorem Repeatable.mapM {f : α → Build β}
    (hP : ∀ {g g' : Graph} {a}, g.Extends g' → P g a → P g' a)
    (hI : ∀ {g g' : Graph} {b}, g.Extends g' → I g b → I g' b)
    (hf : ∀ {g : Graph} {a}, g.WellFormed → P g a → Repeatable (f a) g I) (hg : g.WellFormed)
    (has : ∀ a ∈ as, P g a) :
    Repeatable (as.mapM f) g fun g' bs => ∀ b ∈ bs, I g' b := by
  apply (mapM_retrieves (P := P) (I := I) hP hI hf hg has).mono
  intro bs g' _ _ ⟨hbs, hfound⟩
  exact ⟨bs, ⟨rfl, hbs⟩, .mapM hfound⟩

/-- A list may be mapped in any order. -/
theorem Echoes.mapM_perm {f : α → Build β}
    (hP : ∀ {g g' : Graph} {a}, g.Extends g' → P g a → P g' a)
    (hI : ∀ {g g' : Graph} {b}, g.Extends g' → I g b → I g' b)
    (hf : ∀ {g : Graph} {a}, g.WellFormed → P g a → Repeatable (f a) g I) (hg : g.WellFormed)
    (has : ∀ a ∈ as, P g a) (hp : as.Perm as') :
    Echoes (as.mapM f) (as'.mapM f) g fun g' bs bs' => bs.Perm bs' ∧ ∀ b ∈ bs, I g' b := by
  apply (Repeatable.mapM_retrieves (P := P) (I := I) hP hI hf hg has).mono
  intro bs g' _ _ ⟨hbs, hfound⟩
  obtain ⟨bs', hfound', hp'⟩ := List.perm_comp_forall₂ hp.symm hfound
  exact ⟨bs', ⟨hp'.symm, hbs⟩, .mapM hfound'⟩

/-- Up to what is left out, a list is mapped entry by entry. -/
theorem filterMapM_eq (f : α → Build (Option β)) (as : List α) :
    as.filterMapM f = (do return (← as.mapM f).reduceOption) := by
  induction as with
  | nil => rfl
  | cons a as ih =>
    rw [List.filterMapM_cons, List.mapM_cons, ih]
    simp only [bind_assoc, pure_bind]
    congr 1
    funext o
    cases o <;> simp only [List.reduceOption_cons_of_none, List.reduceOption_cons_of_some]

end Lists

/-! ### Nodes -/

/-- The outcomes are one and the same node. -/
def SameNode (g : Graph) (x y : NodeId) : Prop := y = x ∧ x < g.size

theorem Lasting.repeatable {m : Build NodeId} (h : Lasting m g) :
    Repeatable m g fun g' x => x < g'.size := by
  apply Meets.mono h
  intro x g' _ _ ⟨hx, hfound⟩
  exact ⟨x, ⟨rfl, hx⟩, hfound⟩

theorem constant_repeatable (hg : g.WellFormed) (q : Rat) :
    Repeatable (constant q) g fun g' x => x < g'.size :=
  (intern_lasting hg id (fun _ => Shape.noConfusion) (by exact rfl)
    fun _ hy => absurd hy List.not_mem_nil).repeatable

theorem checked_repeatable (hg : g.WellFormed) (hx : x < g.size) :
    Repeatable (checked x) g fun _ y => y = x := by
  apply (checked_meets hg hx).mono
  rintro y g' _ hx' ⟨rfl, rfl⟩
  refine ⟨y, ⟨rfl, rfl⟩, fun t _ hx' => ?_⟩
  have hc : t.contains y = true := decide_eq_true (hx'.lt_size hx)
  rw [checked, get_bind, if_pos hc]
  rfl

/-- An operand that a base and its weight come to, or none. -/
theorem weighted_repeatable {f : NodeId → NodeId → Build NodeId}
    (hf : ∀ {g : Graph} {x c : NodeId}, g.WellFormed → x < g.size → c < g.size →
      Repeatable (f x c) g fun g' y => y < g'.size)
    (hg : g.WellFormed) {r : NodeId × Rat} (hr : r.1 < g.size) :
    Repeatable (do
      if r.2 = 0 then return none
      let x ← checked r.1
      if r.2 = 1 then return x
      f x (← constant r.2) : Build (Option NodeId)) g fun g' o =>
        ∀ y, o = some y → y < g'.size := by
  apply Repeatable.ite
  · exact fun _ => .pure hg fun _ h => nomatch h
  intro _
  apply (checked_repeatable hg hr).bind
  rintro x g₁ hg₁ hx₁ rfl
  have hx : r.1 < g₁.size := hx₁.lt_size hr
  apply Repeatable.ite
  · intro _
    apply Repeatable.pure hg₁
    rintro _ ⟨⟩
    exact hx
  intro _
  apply (constant_repeatable hg₁ r.2).bind
  intro c g₂ hg₂ hx₂ hc
  apply (hf hg₂ (hx₂.lt_size hx) hc).bind
  intro y g₃ hg₃ _ hy
  apply Repeatable.pure hg₃
  rintro _ ⟨⟩
  exact hy

/-- Operands may be gathered in any order. -/
theorem Echoes.build_perm (hg : g.WellFormed) (k : Gathering) (hxs : ∀ x ∈ xs, x < g.size)
    (hp : xs.Perm ys) : Echoes (k.build xs) (k.build ys) g SameNode := by
  apply (hg.build_gathers k hxs).mono
  intro y g' hg' hx ⟨hy, hgathers⟩
  refine ⟨y, ⟨rfl, hy⟩, fun t ht hx' => ?_⟩
  have hxt := hx.trans hx'
  have hflatten := Gathering.flatten_eq (k := k) hxt hg hxs
  apply Gathers.build ht fun x hmem => hxt.lt_size (hxs x (hp.mem_iff.2 hmem))
  apply Gathers.congr _ (.of_perm (Gathering.flatten_perm hp))
  rw [hflatten]
  exact hgathers.extend hg' hx' fun x hmem => hx.lt_size (Gathering.flatten_lt hg hxs x hmem)

theorem build_repeatable (hg : g.WellFormed) (k : Gathering) (hxs : ∀ x ∈ xs, x < g.size) :
    Repeatable (k.build xs) g fun g' x => x < g'.size :=
  .build_perm hg k hxs (.refl xs)

/-- Operands may be built and gathered in any order. -/
theorem Echoes.gather_perm {f : α → Build (Option NodeId)} {P : Graph → α → Prop}
    {as as' : List α} (k : Gathering)
    (hP : ∀ {g g' : Graph} {a}, g.Extends g' → P g a → P g' a)
    (hf : ∀ {g : Graph} {a}, g.WellFormed → P g a →
      Repeatable (f a) g fun g' o => ∀ x, o = some x → x < g'.size)
    (hg : g.WellFormed) (has : ∀ a ∈ as, P g a) (hp : as.Perm as') :
    Echoes (do k.build (← as.filterMapM f)) (do k.build (← as'.filterMapM f)) g SameNode := by
  have hmap := mapM_perm (P := P) hP (fun hx ho x he => hx.lt_size (ho x he)) hf hg has hp
  rw [filterMapM_eq, filterMapM_eq]
  simp only [bind_assoc, pure_bind]
  apply hmap.bind
  intro os os' g' hg' _ ⟨hperm, hos⟩
  apply build_perm hg' k _ (hperm.filterMap id)
  intro x hx
  obtain ⟨o, ho, he⟩ := List.mem_filterMap.1 hx
  exact hos o ho x he

end ExactAlgebra.Graph
