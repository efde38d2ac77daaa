import ExactAlgebra.Proofs.Transform.Recursion

/-!
Plain recursion that comes to an end: with any depth that is large enough the outcome is the same,
and it is not that the depth did not suffice.
-/

namespace ExactAlgebra

variable {τ α β : Type} {rules : Rules τ} {E : Error → Graph → Prop} {g g' : Graph} {x : NodeId}
variable {Q Q' : α → Graph → Prop} {R : β → Graph → Prop}

/-- An outcome in `Q`, or an error in `E`, in a graph that has grown from `g`. -/
def Arrives (E : Error → Graph → Prop) (g : Graph) (Q : α → Graph → Prop) :
    EStateM.Result Error (Pass τ) α → Prop
  | .ok a p => p.graph.WellFormed ∧ g.Extends p.graph ∧ Q a p.graph
  | .error e p => p.graph.WellFormed ∧ g.Extends p.graph ∧ E e p.graph

theorem Arrives.frame {r : EStateM.Result Error (Pass τ) α} (h : Arrives E g' Q r)
    (hx : g.Extends g') : Arrives E g Q r := by
  cases r with
  | ok a p => exact ⟨h.1, hx.trans h.2.1, h.2.2⟩
  | error e p => exact ⟨h.1, hx.trans h.2.1, h.2.2⟩

theorem Step.recurse_bind (answer : NodeId → EStateM Error (Pass τ) NodeId)
    (p : Step (Pass τ) α) (k : α → Pass τ → Step (Pass τ) β) :
    (p.bind k).recurse answer =
      match p.recurse answer with
      | .ok a s => (k a s).recurse answer
      | .error e s => .error e s := by
  induction p with
  | done outcome => cases outcome <;> rfl
  | ask x s resume ih =>
    simp only [bind, recurse]
    cases answer x s with
    | ok y s' => exact ih y s'
    | error e s' => rfl

namespace Dialogue

/-- Plain recursion brings a computation to an end, whatever was logged before it. -/
def Halts (rules : Rules τ) (E : Error → Graph → Prop) (m : Dialogue (Pass τ) α) (g : Graph)
    (Q : α → Graph → Prop) : Prop :=
  ∀ log, ∃ N r, Arrives E g Q r ∧ ∀ n, N ≤ n → (m ⟨g, log⟩).recurse (rules.recurse n) = r

namespace Halts

theorem of_done {m : Dialogue (Pass τ) α}
    (h : ∀ log, ∃ r, m ⟨g, log⟩ = .done r ∧ Arrives E g Q r) : Halts rules E m g Q := by
  intro log
  obtain ⟨r, he, hr⟩ := h log
  exact ⟨0, r, hr, fun n _ => by rw [he, Step.recurse]⟩

theorem pure {a : α} (hg : g.WellFormed) (h : Q a g) :
    Halts rules E (Pure.pure a : Dialogue (Pass τ) α) g Q :=
  of_done fun log => ⟨.ok a ⟨g, log⟩, rfl, hg, .refl g, h⟩

theorem build {m : Build α} (hm : Graph.Meets E m g Q) :
    Halts rules E (build m : Dialogue (Pass τ) α) g Q := by
  apply of_done
  intro log
  unfold Graph.Meets at hm
  unfold Dialogue.build
  cases he : m g with
  | ok a g' =>
    simp only [he] at hm ⊢
    exact ⟨.ok a ⟨g', log⟩, rfl, hm.1, hm.2.1.toExtends, hm.2.2⟩
  | error e g' =>
    simp only [he] at hm ⊢
    exact ⟨.error e ⟨g', log⟩, rfl, hm.1, hm.2.1.toExtends, hm.2.2⟩

theorem bind {m : Dialogue (Pass τ) α} {f : α → Dialogue (Pass τ) β} (hm : Halts rules E m g Q)
    (hf : ∀ a g', g'.WellFormed → g.Extends g' → Q a g' → Halts rules E (f a) g' R) :
    Halts rules E (m >>= f) g R := by
  intro log
  obtain ⟨N, r, hr, hN⟩ := hm log
  have heq : ∀ n, ((m >>= f) ⟨g, log⟩).recurse (rules.recurse n) = _ := fun n =>
    Step.recurse_bind (rules.recurse n) (m ⟨g, log⟩) f
  cases r with
  | error e p =>
    refine ⟨N, .error e p, hr, fun n hn => ?_⟩
    rw [heq n, hN n hn]
  | ok a p =>
    obtain ⟨hw, hx, hQ⟩ := hr
    obtain ⟨N', r', hr', hN'⟩ := hf a p.graph hw hx hQ p.log
    refine ⟨max N N', r', hr'.frame hx, fun n hn => ?_⟩
    rw [heq n, hN n (le_of_max_le_left hn)]
    exact hN' n (le_of_max_le_right hn)

theorem mono {m : Dialogue (Pass τ) α} (hm : Halts rules E m g Q)
    (hQ : ∀ a g', g'.WellFormed → g.Extends g' → Q a g' → Q' a g') : Halts rules E m g Q' := by
  rw [← bind_pure m]
  exact hm.bind fun a g' hw hx hQa => .pure hw (hQ a g' hw hx hQa)

theorem ite {c : Prop} [Decidable c] {m m' : Dialogue (Pass τ) α} (h : c → Halts rules E m g Q)
    (h' : ¬ c → Halts rules E m' g Q) : Halts rules E (if c then m else m') g Q := by
  split
  · exact h ‹_›
  · exact h' ‹_›

theorem graph {f : Graph → Dialogue (Pass τ) β} (h : Halts rules E (f g) g R) :
    Halts rules E (Dialogue.graph >>= f) g R := h

theorem updateLog {u : τ → τ} {f : Unit → Dialogue (Pass τ) β} (h : Halts rules E (f ()) g R) :
    Halts rules E (Dialogue.updateLog u >>= f) g R :=
  fun log => h (u log)

/-- Asking for a node comes to an end if the rule for the node does. -/
theorem ask {Q : NodeId → Graph → Prop} (hx : x < g.size)
    (h : Halts rules E (rules.transform x) g fun o g' => ∃ y, o = some y ∧ y < g'.size ∧ Q y g') :
    Halts rules E (ask x : Dialogue (Pass τ) NodeId) g Q := by
  intro log
  obtain ⟨N, r, hr, hN⟩ := h log
  have hask : ∀ n, N ≤ n → (Dialogue.ask x ⟨g, log⟩ : Step (Pass τ) NodeId).recurse
      (rules.recurse (n + 1)) = locate r := by
    intro n hn
    rw [Dialogue.ask, Step.recurse, Rules.recurse, if_neg (by simp [Graph.contains, hx]), hN n hn]
    cases locate r <;> rfl
  refine ⟨N + 1, locate r, ?_, fun n hn => ?_⟩
  · cases r with
    | error e p => exact hr
    | ok o p =>
      obtain ⟨hw, hext, y, rfl, hy, hQ⟩ := hr
      rw [locate, if_pos (by simp [Graph.contains, hy])]
      exact ⟨hw, hext, hQ⟩
  · obtain ⟨n, rfl⟩ := Nat.exists_eq_succ_of_ne_zero (Nat.ne_zero_of_lt hn)
    exact hask n (Nat.le_of_succ_le_succ hn)

/-- The nodes of a list are asked for one after another. -/
theorem askAll {xs : List NodeId} {Q : Graph → NodeId → NodeId → Prop} (hg : g.WellFormed)
    (hQ : ∀ {g g' : Graph} {x y}, g.WellFormed → g.Extends g' → Q g x y → Q g' x y)
    (hxs : ∀ x ∈ xs, ∀ g', g'.WellFormed → g.Extends g' →
      Halts rules E (Dialogue.ask x) g' fun y g'' => Q g'' x y) :
    Halts rules E (askAll xs : Dialogue (Pass τ) (List NodeId)) g fun ys g' =>
      List.Forall₂ (Q g') xs ys := by
  induction xs generalizing g with
  | nil => exact .pure hg .nil
  | cons x xs ih =>
    apply (hxs x (List.mem_cons_self ..) g hg (.refl g)).bind
    intro y g' hg' hx hy
    have hrest := ih hg' fun x' hx' g'' hg'' hext =>
      hxs x' (List.mem_cons_of_mem _ hx') g'' hg'' (hx.trans hext)
    apply hrest.bind
    intro ys g'' hg'' hx' hys
    exact .pure hg'' (.cons (hQ hg' hx' hy) hys)

end Halts

end Dialogue

end ExactAlgebra
