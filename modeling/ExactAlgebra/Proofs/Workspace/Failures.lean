import ExactAlgebra.Proofs.Evaluation.Recording
import ExactAlgebra.Proofs.Workspace.Memoisation

/-!
The failures of evaluation in whatever graph a program has arrived at: there is only one, a
substitution whose replacements are not given by arrows, as long as there is room for the nodes that
are needed.
-/

namespace ExactAlgebra

open ExactAlgebra.Graph (Continues Grows Vocabulary)

variable {library : Library} {V : Vocabulary} {g g' : Graph} {depth : Nat} {x y : NodeId}
variable {ms : Nat → Memo}

/-- The graph of a program and the memos of its evaluators, each of which is empty until it is first
used. Nodes may be added, by constructions and by substitutions too; placeholders may be opened and
closed; and expressions may be evaluated, by any of the evaluators, well or not. -/
inductive Arises (library : Library) : Graph → (Nat → Memo) → Prop
  | empty : Arises library .empty fun _ => {}
  | build {g : Graph} {ms : Nat → Memo} (h : Arises library g ms) {α : Type} (m : Build α)
      (hm : Grows m) : Arises library (final (m g)) ms
  | closeLoop {g : Graph} {ms : Nat → Memo} (h : Arises library g ms) (placeholder body : NodeId) :
      Arises library (final (Graph.closeLoop placeholder body g)) ms
  | evaluate {g : Graph} {ms : Nat → Memo} (h : Arises library g ms) (i depth : Nat) (x : NodeId)
      (log : Journal) :
      Arises library (final (evaluateIn library depth x ⟨ms i, ⟨g, log⟩⟩)).pass.graph
        (Function.update ms i (final (evaluateIn library depth x ⟨ms i, ⟨g, log⟩⟩)).memo)

namespace Evaluation

/-- What is remembered can be relied on, and nothing is being transformed. -/
structure Reliable (library : Library) (g : Graph) (m : Memo) : Prop where
  derives : ∀ x y, m.mark? x = some (.finished y) →
    x < g.size ∧ y < g.size ∧ g.Derives library.IsReal x y
  idle : ∀ i, m.mark? i ≠ some .inProgress

/-- A graph and memos in which evaluation can rely on all that is recorded. -/
structure Sound (library : Library) (g : Graph) (ms : Nat → Memo) : Prop where
  wellFormed : g.WellFormed
  consistent : g.Consistent library.IsReal
  reliable : ∀ i, Reliable library g (ms i)

theorem Reliable.empty (library : Library) (g : Graph) : Reliable library g {} :=
  ⟨fun x y h => by simp [Memo.mark?] at h, fun i h => by simp [Memo.mark?] at h⟩

theorem Reliable.continues {m : Memo} (h : Reliable library g m) (hg : g.WellFormed)
    (hx : g.Continues library.IsReal g') : Reliable library g' m := by
  refine ⟨fun x y hxy => ?_, h.idle⟩
  obtain ⟨hlt, hlt', hd⟩ := h.derives x y hxy
  exact ⟨hx.lt_size hlt, hx.lt_size hlt', hd.extends_graph hx.toExtends hg.operands_lt_size hlt⟩

/-- What one evaluation does. -/
theorem Reliable.outcome {m : Memo} (h : Reliable library g m)
    (hlib : library.Changing (Continues library.IsReal)) (hg : g.WellFormed)
    (hc : g.Consistent library.IsReal) (hx : library.Computes V → g.MadeOf V x) (depth : Nat)
    (log : Journal) :
    Outcome (guarded library V) g m
      (fun y g' => x < g'.size ∧ y < g'.size ∧ g'.Derives library.IsReal x y)
      (evaluateIn library depth x ⟨m, ⟨g, log⟩⟩) :=
  evaluateIn_guarded hlib V depth x g m log hg h.derives ⟨hc, hx⟩ fun i hi => absurd hi (h.idle i)

theorem evaluateIn_outside (hx : ¬ x < g.size) (library : Library) (depth : Nat) (m : Memo)
    (log : Journal) : final (evaluateIn library depth x ⟨m, ⟨g, log⟩⟩) = ⟨m, ⟨g, log⟩⟩ := by
  cases depth with
  | zero => rfl
  | succ depth =>
    simp only [evaluateIn, Rules.apply, Graph.contains, hx, decide_false, Bool.not_false, if_true,
      final]

namespace Sound

theorem empty (library : Library) : Sound library .empty fun _ => {} :=
  ⟨Graph.empty_wellFormed, Graph.empty_consistent _, fun _ => .empty library _⟩

theorem continues (h : Sound library g ms) (hg' : g'.WellFormed)
    (hx : g.Continues library.IsReal g') : Sound library g' ms :=
  ⟨hg', hx.consistent h.consistent, fun i => (h.reliable i).continues h.wellFormed hx⟩

theorem build {α : Type} {m : Build α} (h : Sound library g ms) (hm : Grows m) :
    Sound library (final (m g)) ms := by
  have hgrown := hm.changing h.wellFormed
  cases he : m g <;> rw [he] at hgrown <;>
    exact h.continues hgrown.1 (hgrown.2.continues hgrown.1)

theorem closeLoop (h : Sound library g ms) (x y : NodeId) :
    Sound library (final (Graph.closeLoop x y g)) ms := by
  rcases Graph.closeLoop_cases x y g with ⟨e, he⟩ | ⟨label, hx, hs, hl, he⟩
  · rw [he]
    exact h
  have hsymbol : (g.shape x).IsSymbol := by
    rw [hs]
    trivial
  rw [he]
  refine ⟨h.wellFormed.close hx hsymbol y label,
    h.consistent.close h.wellFormed hx hsymbol hl y label, fun i => ⟨fun z w hzw => ?_, ?_⟩⟩
  · obtain ⟨hz, hw, hd⟩ := (h.reliable i).derives z w hzw
    simp only [final, Graph.size_close]
    exact ⟨hz, hw, hd.close h.wellFormed hx hsymbol hl y label⟩
  · exact (h.reliable i).idle

theorem after {run : Run Journal} {m : Memo} {i : Nat} (h : Sound library g ms)
    (hi : Reliable library g m) (hw : run.pass.graph.WellFormed)
    (hf : g.Continues library.IsReal run.pass.graph)
    (hm : run.memo.Holds (guarded library V) run.pass.graph)
    (hmarks : ∀ j, run.memo.mark? j = some .inProgress ↔ m.mark? j = some .inProgress) :
    Sound library run.pass.graph (Function.update ms i run.memo) := by
  refine ⟨hw, hf.consistent h.consistent, fun j => ?_⟩
  by_cases hj : j = i
  · subst hj
    rw [Function.update_self]
    exact ⟨hm, fun z hz => hi.idle z ((hmarks z).1 hz)⟩
  · rw [Function.update_of_ne hj]
    exact (h.reliable j).continues h.wellFormed hf

theorem evaluate (h : Sound library g ms) (hlib : library.Changing (Continues library.IsReal))
    (i depth : Nat) (x : NodeId) (log : Journal) :
    Sound library (final (evaluateIn library depth x ⟨ms i, ⟨g, log⟩⟩)).pass.graph
      (Function.update ms i (final (evaluateIn library depth x ⟨ms i, ⟨g, log⟩⟩)).memo) := by
  by_cases hx : x < g.size
  swap
  · rw [evaluateIn_outside hx, Function.update_eq_self]
    exact h
  have hout := (h.reliable i).outcome (V := g.palette x) hlib h.wellFormed h.consistent
    (fun _ => Graph.madeOf_palette h.wellFormed hx) depth log
  cases he : evaluateIn library depth x ⟨ms i, ⟨g, log⟩⟩ with
  | ok y run =>
    rw [he] at hout
    exact h.after (h.reliable i) hout.1 hout.2.1 hout.2.2.1 hout.2.2.2.1
  | error e run =>
    rw [he] at hout
    exact h.after (h.reliable i) hout.1 hout.2.1 hout.2.2.1 hout.2.2.2.1

end Sound

end Evaluation

/-- Whatever a program has done, evaluation can rely on what is recorded. -/
theorem Arises.sound (hlib : library.Changing (Continues library.IsReal))
    (h : Arises library g ms) : Evaluation.Sound library g ms := by
  induction h with
  | empty => exact .empty library
  | build _ m hm ih => exact ih.build hm
  | closeLoop _ x y ih => exact ih.closeLoop x y
  | evaluate _ i depth x log ih => exact ih.evaluate hlib i depth x log

namespace Workspace

variable {ws : Workspace} {k : Nat}

/--
Where an expression calls functions of rationals only, its evaluation fails in one way: a
substitution in it has been given replacements that are neither an arrow nor a set of arrows. Apart
from that there may have been too little depth, or no room for another node.
-/
theorem evaluate_fails_only (hlib : library.Changing (Continues library.IsReal))
    (h : Arises library (ws.graph k) ms) (hk : k < ws.graphs.size) (hx : x < (ws.graph k).size)
    (hreal : ∀ z f, (ws.graph k).Reaches x z → (ws.graph k).shape z = .call f →
      library.IsReal f) {e : Error} {ws' : Workspace}
    (he : evaluate library depth (.node k x) ws = .error e ws') :
    (e = .bindingIsNoArrow ∧
        ∃ z, (ws.graph k).Reaches x z ∧ (ws.graph k).shape z = .binary .substitution) ∨
      e = .depthExhausted ∨ (e = .graphFull ∧ Graph.capacity ≤ (ws'.graph k).size) := by
  have hsound := h.sound hlib
  have hcomputes : library.Computes ((ws.graph k).palette x) := by
    rintro f ⟨z, hz, hf⟩
    exact hreal z f hz hf
  have hout := (Evaluation.Reliable.empty library (ws.graph k)).outcome
    (V := (ws.graph k).palette x) hlib hsound.wellFormed hsound.consistent
    (fun _ => Graph.madeOf_palette hsound.wellFormed hx) depth (ws.startRun k).pass.log
  rw [evaluate_eq] at he
  cases hrun : evaluateIn library depth x (ws.startRun k) with
  | ok y run =>
    rw [hrun] at he
    cases he
  | error e' run =>
    rw [hrun] at he
    cases he
    have hfail : Outcome _ _ _ _ (evaluateIn library depth x (ws.startRun k)) := hout
    rw [hrun] at hfail
    rw [graph_afterRun hk]
    cases hfail.2.2.2.2 hcomputes with
    | graphFull hfull => exact .inr (.inr ⟨rfl, hfull⟩)
    | depthExhausted => exact .inr (.inl rfl)
    | bindingIsNoArrow hop => exact .inl ⟨rfl, hop⟩

end Workspace

/-- The graph of `0 := 1`, which is its last node. -/
def Graph.unbound : Graph := empty.extend (.binary .substitution) [zero, one]

theorem Graph.unbound_eq : final (binary .substitution zero one empty) = unbound := by
  rw [binary, intern_eq]
  simp [empty, final, unbound, capacity, size, zero, one]

namespace Workspace

theorem unbound_arises : Arises .silent Graph.unbound fun _ => {} := by
  rw [← Graph.unbound_eq]
  exact Arises.empty.build _ (Graph.intern_grows (fun _ => Shape.noConfusion) rfl)

/-- Where `0 := 1` is evaluated, the replacement is not given by an arrow. -/
theorem evaluate_unbound_fails :
    ∃ ws', evaluate .silent 9 (.node 0 2) { graphs := #[Graph.unbound] } =
        .error .bindingIsNoArrow ws' ∧
      ∃ z, Graph.unbound.Reaches 2 z ∧ Graph.unbound.shape z = .binary .substitution := by
  have hlib : Library.silent.Changing (Continues Library.silent.IsReal) := by
    rintro f accepts run ⟨⟩ xs
    exact (Grows.pure _).changing.mono fun _ _ hg h => h.continues hg
  have hcalls : ∀ z f, Graph.unbound.Reaches 2 z → Graph.unbound.shape z = .call f →
      Library.silent.IsReal f := by
    intro z f _ hf
    match z with
    | 0 => cases hf
    | 1 => cases hf
    | 2 => cases hf
    | z + 3 =>
      rw [Graph.shape, Graph.node_of_size_le (Nat.le_add_left 3 z)] at hf
      cases hf
  have herror : (seen id (evaluate .silent 9 (.node 0 2) { graphs := #[Graph.unbound] })).1 =
      .error .bindingIsNoArrow := by
    cbv
  cases he : evaluate .silent 9 (.node 0 2) { graphs := #[Graph.unbound] } with
  | ok h ws' =>
    rw [he] at herror
    cases herror
  | error e ws' =>
    rw [he] at herror
    cases herror
    have harises : Arises .silent (Workspace.graph { graphs := #[Graph.unbound] } 0) fun _ => {} :=
      unbound_arises
    refine ⟨ws', rfl, ?_⟩
    rcases evaluate_fails_only hlib harises (by decide) (by decide) hcalls he with ⟨-, h⟩ | h | h
    · exact h
    · cases h
    · cases h.1

end Workspace

end ExactAlgebra
