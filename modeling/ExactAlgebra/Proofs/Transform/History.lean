import Mathlib
import ExactAlgebra.Proofs.Transform.Contract
import ExactAlgebra.Proofs.Transform.Hooks

/-!
What histories tell about memos. A memo goes through the events of a history one after another, and
each event has one mark of its node before it and one after it. So a history in which every
transformation that began has ended, well or not, leaves a memo that can be used again.
-/

namespace ExactAlgebra

variable {τ α : Type} {m m' m'' : Memo} {e : Event} {es es' mid post : List Event} {x y : NodeId}

/-! ### Memos -/

namespace Memo

/-- What an event does to a memo, and when it can occur. -/
inductive Takes (m : Memo) : Event → Memo → Prop
  | entered {x : NodeId} (h : m.mark? x = none) : Takes m (.entered x) (m.enter x)
  | stored {x y : NodeId} (h : m.mark? x = some .inProgress) :
      Takes m (.stored x y) (m.store x y)
  | failed {x : NodeId} (h : m.mark? x = some .inProgress) : Takes m (.failed x) (m.release x)
  | recalled {x y : NodeId} (h : m.mark? x = some (.finished y)) : Takes m (.recalled x y) m
  | met {x : NodeId} (h : m.mark? x = some .inProgress) : Takes m (.met x) m

/-- A memo goes through the events of a history. -/
inductive Passes : Memo → List Event → Memo → Prop
  | nil (m : Memo) : Passes m [] m
  | cons {m m' m'' : Memo} {e : Event} {es : List Event} (he : m.Takes e m')
      (hes : Passes m' es m'') : Passes m (e :: es) m''

theorem Passes.append (h : m.Passes es m') (h' : m'.Passes es' m'') :
    m.Passes (es ++ es') m'' := by
  induction h with
  | nil m => exact h'
  | cons he _ ih => exact .cons he (ih h')

theorem Takes.passes (h : m.Takes e m') : m.Passes [e] m' := .cons h (.nil m')

theorem Passes.split (h : m.Passes (es ++ es') m'') : ∃ m', m.Passes es m' ∧ m'.Passes es' m'' := by
  induction es generalizing m with
  | nil => exact ⟨m, .nil m, h⟩
  | cons e es ih =>
    cases h with
    | cons he h =>
      obtain ⟨m', hes, hes'⟩ := ih h
      exact ⟨m', .cons he hes, hes'⟩

/-- An event leaves the marks of other nodes as they are. -/
theorem Takes.mark?_other (h : m.Takes e m') (hx : e.node ≠ x) : m'.mark? x = m.mark? x := by
  cases h with
  | entered => exact (mark?_enter ..).trans (if_neg hx)
  | stored => exact (mark?_store ..).trans (if_neg hx)
  | failed => exact (mark?_release ..).trans (if_neg hx)
  | recalled | met => rfl

/-- What can happen to a node without a mark is that its transformation begins. -/
theorem Takes.eq_entered (h : m.Takes e m') (hx : m.mark? e.node = none) : e = .entered e.node := by
  cases h with
  | entered => rfl
  | stored h | failed h | met h | recalled h =>
    rw [Event.node, h] at hx
    cases hx

/-- The transformation of a node with a mark does not begin. -/
theorem Takes.ne_entered (h : m.Takes e m') (hx : m.mark? x ≠ none) : e ≠ .entered x := by
  rintro rfl
  cases h with
  | entered h => exact hx h

/-- A node keeps having a mark, unless it fails. -/
theorem Takes.mark?_ne_none (h : m.Takes e m') (hx : m.mark? x ≠ none) (he : e ≠ .failed x) :
    m'.mark? x ≠ none := by
  by_cases hn : e.node = x
  · subst hn
    cases h with
    | entered h => exact absurd h hx
    | stored => simp [mark?_store]
    | failed => exact absurd rfl he
    | recalled | met => exact hx
  · rwa [h.mark?_other hn]

theorem Passes.mark?_other (h : m.Passes es m') (hx : ∀ e ∈ es, e.node ≠ x) :
    m'.mark? x = m.mark? x := by
  induction h with
  | nil m => rfl
  | cons he _ ih =>
    rw [ih fun e h => hx e (List.mem_cons_of_mem _ h),
      he.mark?_other (hx _ (List.mem_cons_self ..))]

/-- The results that are remembered after an event are those from before, and the one that it
stores. -/
theorem Takes.finished_iff (h : m.Takes e m') :
    m'.mark? x = some (.finished y) ↔ m.mark? x = some (.finished y) ∨ e = .stored x y := by
  by_cases hx : e.node = x
  · subst hx
    cases h with
    | entered h => simp [mark?_enter, Event.node, h]
    | stored h => simp [mark?_store, Event.node, h]
    | failed h => simp [mark?_release, Event.node, h]
    | recalled | met => simp
  · rw [h.mark?_other hx]
    refine ⟨.inl, fun h' => h'.resolve_right ?_⟩
    rintro rfl
    exact hx rfl

/-- What is remembered is what was ever stored: nothing is forgotten, and nothing is replaced. -/
theorem Passes.finished_iff (h : m.Passes es m') :
    m'.mark? x = some (.finished y) ↔ m.mark? x = some (.finished y) ∨ .stored x y ∈ es := by
  induction h with
  | nil m => simp
  | cons he _ ih =>
    rw [ih, he.finished_iff, List.mem_cons, or_assoc, eq_comm (a := Event.stored x y)]

/-- The number of stored results is the number of nodes that have one. -/
def Counted (m : Memo) : Prop :=
  ∃ nodes : Finset NodeId, nodes.card = m.stored ∧
    ∀ x, x ∈ nodes ↔ ∃ y, m.mark? x = some (.finished y)

theorem counted_empty : Counted {} := ⟨∅, rfl, by simp [mark?]⟩

theorem Takes.counted (h : m.Takes e m') (hm : m.Counted) : m'.Counted := by
  obtain ⟨nodes, hcard, hnodes⟩ := hm
  cases h with
  | @stored x y h =>
    have hx : x ∉ nodes := by simp [hnodes, h]
    refine ⟨insert x nodes, ?_, fun i => ?_⟩
    · rw [Finset.card_insert_of_notMem hx, hcard]
      rfl
    · rw [Finset.mem_insert, mark?_store, hnodes]
      split
      · next he => simp [he]
      · next he => simp [Ne.symm he]
  | entered h =>
    refine ⟨nodes, hcard, fun i => ?_⟩
    simp only [hnodes, (Takes.entered h).finished_iff, reduceCtorEq, or_false]
  | failed h =>
    refine ⟨nodes, hcard, fun i => ?_⟩
    simp only [hnodes, (Takes.failed h).finished_iff, reduceCtorEq, or_false]
  | recalled | met => exact ⟨nodes, hcard, hnodes⟩

theorem Passes.counted (h : m.Passes es m') (hm : m.Counted) : m'.Counted := by
  induction h with
  | nil m => exact hm
  | cons he _ ih => exact ih (he.counted hm)

/-- After a failure a node has no mark, as long as nothing happens to it. -/
theorem Passes.mark?_of_failed (h : m.Passes (es ++ .failed x :: post) m')
    (hpost : ∀ e ∈ post, e.node ≠ x) : m'.mark? x = none := by
  obtain ⟨m₁, -, h⟩ := h.split
  cases h with
  | cons he h =>
    rw [h.mark?_other hpost]
    cases he
    rw [mark?_release, if_pos rfl]

/-- What next happens to a node after a failure is that its transformation begins again. -/
theorem Passes.next_of_failed (h : m.Passes (es ++ .failed x :: mid ++ e :: post) m')
    (hmid : ∀ e ∈ mid, e.node ≠ x) (he : e.node = x) : e = .entered x := by
  obtain ⟨m₁, h, h'⟩ := h.split
  have hmark := h.mark?_of_failed hmid
  subst he
  cases h' with
  | cons he _ => exact he.eq_entered hmark

/-- While a node has a mark and does not fail, its transformation does not begin. -/
theorem Passes.entered_notMem (h : m.Passes es m') (hx : m.mark? x ≠ none)
    (hes : .failed x ∉ es) : .entered x ∉ es := by
  induction h with
  | nil m => exact List.not_mem_nil
  | cons he _ ih =>
    rw [List.mem_cons, not_or] at hes ⊢
    exact ⟨(he.ne_entered hx).symm, ih (he.mark?_ne_none hx (Ne.symm hes.1)) hes.2⟩

/-- The transformation of a node that never fails begins at most once. -/
theorem Passes.count_entered_le (h : m.Passes es m') (hes : .failed x ∉ es) :
    es.count (.entered x) ≤ 1 := by
  induction h with
  | nil m => exact Nat.zero_le 1
  | @cons m m₁ _ e es he hrest ih =>
    rw [List.mem_cons, not_or] at hes
    by_cases hn : e = .entered x
    · subst hn
      have hmark : m₁.mark? x ≠ none := by
        cases he
        simp [mark?_enter]
      rw [List.count_cons_self, List.count_eq_zero.2 (hrest.entered_notMem hmark hes.2)]
    · rw [List.count_cons_of_ne hn]
      exact ih hes.2

end Memo

/-! ### Runs -/

/-- How hooks behave: what becomes of a pass, and which nodes they ask for. -/
structure Conduct (τ : Type) where
  Leads : Pass τ → Pass τ → Prop
  Asks : NodeId → Pass τ → Prop
  refl : ∀ p, Leads p p
  trans : ∀ {p p' p''}, Leads p p' → Leads p' p'' → Leads p p''

variable {C : Conduct τ} {run run' run'' : Run τ}

/-- An attempt that starts from a pass behaves, and goes on to do so after each question, whatever
is replied. -/
def Attempt.Obeys (C : Conduct τ) : Attempt (Pass τ) α → Pass τ → Prop
  | .done outcome, p => C.Leads p (final outcome)
  | .ask x p' resume, p =>
    C.Leads p p' ∧ C.Asks x p' ∧ ∀ r p'', C.Leads p' p'' → (resume r p'').Obeys C p''

structure Hooks.Obey (C : Conduct τ) (hooks : Hooks τ) : Prop where
  transform : ∀ x p, C.Asks x p → (hooks.transform x p).Obeys C p
  onCycle : ∀ x p, C.Asks x p → (hooks.onCycle x p).Obeys C p

/-- What a run leaves behind after what happened in it. Whatever was being transformed before is
being transformed still, and nothing else is. -/
structure Visited (C : Conduct τ) (run : Run τ) (es : List Event) (run' : Run τ) : Prop where
  passes : run.memo.Passes es run'.memo
  marks : ∀ i, run'.memo.mark? i = some .inProgress ↔ run.memo.mark? i = some .inProgress
  leads : C.Leads run.pass run'.pass
  stored : ∀ x y, .stored x y ∈ es → ∃ p, p.graph.contains y ∧ C.Leads p run'.pass
  asked : ∀ e ∈ es, ∃ p, p.graph.contains e.node ∧ C.Asks e.node p ∧ C.Leads p run'.pass

namespace Visited

theorem of_leads {p : Pass τ} (h : C.Leads run.pass p) : Visited C run [] ⟨run.memo, p⟩ :=
  ⟨.nil run.memo, fun _ => Iff.rfl, h, nofun, nofun⟩

theorem refl (run : Run τ) : Visited C run [] run := of_leads (C.refl run.pass)

theorem trans (h : Visited C run es run') (h' : Visited C run' es' run'') :
    Visited C run (es ++ es') run'' where
  passes := h.passes.append h'.passes
  marks i := (h'.marks i).trans (h.marks i)
  leads := C.trans h.leads h'.leads
  stored x y hxy := by
    rcases List.mem_append.1 hxy with hxy | hxy
    · obtain ⟨p, hy, hp⟩ := h.stored x y hxy
      exact ⟨p, hy, C.trans hp h'.leads⟩
    · exact h'.stored x y hxy
  asked e he := by
    rcases List.mem_append.1 he with he | he
    · obtain ⟨p, hin, hx, hp⟩ := h.asked e he
      exact ⟨p, hin, hx, C.trans hp h'.leads⟩
    · exact h'.asked e he

/-- An event that leaves the memo as it is. -/
theorem of_takes (h : run.memo.Takes e run.memo) (he : ∀ x y, e ≠ .stored x y)
    (hin : run.pass.graph.contains e.node) (hx : C.Asks e.node run.pass) :
    Visited C run [e] run where
  passes := h.passes
  marks _ := Iff.rfl
  leads := C.refl run.pass
  stored x y hxy := absurd (List.mem_singleton.1 hxy).symm (he x y)
  asked i hi := by
    obtain rfl := List.mem_singleton.1 hi
    exact ⟨run.pass, hin, hx, C.refl run.pass⟩

end Visited

/-- The outcome for a node is either stored or forgotten. -/
theorem settle_cases (x : NodeId) (r : EStateM.Result Error (Run τ) (Option NodeId)) :
    (∃ y, settle x r = .ok y ⟨(final r).memo.store x y, (final r).pass⟩ ∧
      (final r).pass.graph.contains y) ∨
    ∃ e, settle x r = .error e ⟨(final r).memo.release x, (final r).pass⟩ := by
  match r with
  | .error e run => exact .inr ⟨e, rfl⟩
  | .ok none run => exact .inr ⟨_, rfl⟩
  | .ok (some y) run =>
    simp only [settle]
    split
    · next hy => exact .inl ⟨y, rfl, hy⟩
    · exact .inr ⟨_, rfl⟩

/-- The transformation of a node, from its beginning to its end. -/
theorem Visited.settle {m : Memo} {pass : Pass τ}
    {r : EStateM.Result Error (Run τ) (Option NodeId)} (hm : m.mark? x = none)
    (hin : pass.graph.contains x) (hx : C.Asks x pass)
    (h : Visited C ⟨m.enter x, pass⟩ es (final r)) :
    Visited C ⟨m, pass⟩ (.entered x :: (es ++ [.ofOutcome x (settle x r)]))
      (final (settle x r)) := by
  have hmark : (final r).memo.mark? x = some .inProgress :=
    (h.marks x).2 ((Memo.mark?_enter m x x).trans (if_pos rfl))
  -- Both ways to end take one event, and leave no mark of a transformation under way.
  have hend : ∀ {e : Event} {m' : Memo}, (final r).memo.Takes e m' → e.node = x →
      m'.mark? x ≠ some .inProgress → (∀ x y, e = .stored x y → (final r).pass.graph.contains y) →
      Visited C ⟨m, pass⟩ (.entered x :: (es ++ [e])) ⟨m', (final r).pass⟩ := by
    intro e m' ht hn hx' hy
    refine ⟨.cons (.entered hm) (h.passes.append ht.passes), fun i => ?_, h.leads, ?_, ?_⟩
    · exact marks_of_enter hm hx' fun hi => by rw [ht.mark?_other (hn ▸ hi), h.marks]
    · intro a b hab
      simp only [List.mem_cons, List.mem_append, List.not_mem_nil, or_false, reduceCtorEq,
        false_or] at hab
      rcases hab with hab | hab
      · exact h.stored a b hab
      · exact ⟨(final r).pass, hy a b hab.symm, C.refl _⟩
    · intro e' he'
      simp only [List.mem_cons, List.mem_append, List.not_mem_nil, or_false] at he'
      rcases he' with rfl | he' | rfl
      · exact ⟨pass, hin, hx, h.leads⟩
      · exact h.asked e' he'
      · exact ⟨pass, hn ▸ hin, hn ▸ hx, h.leads⟩
  rcases settle_cases x r with ⟨y, he, hy⟩ | ⟨e, he⟩
  · rw [he]
    refine hend (.stored hmark) rfl ?_ ?_
    · simp [Memo.mark?_store]
    · rintro _ _ ⟨⟩
      exact hy
  · rw [he]
    refine hend (.failed hmark) rfl ?_ nofun
    simp [Memo.mark?_release]

/-- An attempt is carried on as it behaves. The induction is on the attempt, of which every question
is a visit in its own right. -/
theorem Attempt.visited {answer : NodeId → EStateM Error (Run τ) NodeId}
    {record : NodeId → Run τ → List Event}
    (hanswer : ∀ x run, C.Asks x run.pass → Visited C run (record x run) (final (answer x run)))
    {p : Attempt (Pass τ) α} {pass : Pass τ} (hp : p.Obeys C pass) (m : Memo) :
    Visited C ⟨m, pass⟩ (p.events answer record m) (final (p.run answer m)) := by
  induction p generalizing pass m with
  | done outcome => cases outcome <;> exact .of_leads hp
  | ask x state resume ih =>
    obtain ⟨hlead, hask, hresume⟩ := hp
    have hstart : Visited C ⟨m, pass⟩ [] ⟨m, state⟩ := .of_leads hlead
    have hvisit := hanswer x ⟨m, state⟩ hask
    exact hstart.trans (hvisit.trans (ih _ _ (hresume _ _ hvisit.leads) _))

theorem Hooks.Obey.visited {hooks : Hooks τ} (h : hooks.Obey C) (depth : Nat) (x : NodeId)
    (run : Run τ) (hx : C.Asks x run.pass) :
    Visited C run (hooks.events depth x run) (final (hooks.apply depth x run)) := by
  induction depth generalizing x run with
  | zero => exact .refl run
  | succ depth ih =>
    rw [Hooks.events, Hooks.apply]
    cases hin : run.pass.graph.contains x with
    | false => exact .refl run
    | true =>
      cases hm : run.memo.mark? x with
      | none => exact .settle hm hin hx (Attempt.visited ih (h.transform x run.pass hx) _)
      | some mark =>
        cases mark with
        | finished y => exact .of_takes (.recalled hm) (fun _ _ => Event.noConfusion) hin hx
        | inProgress =>
          have hmet : Visited C run [.met x] run :=
            .of_takes (.met hm) (fun _ _ => Event.noConfusion) hin hx
          exact hmet.trans (Attempt.visited ih (h.onCycle x run.pass hx) run.memo)

/-! ### Sessions -/

/-- A session is one run from the empty memo. -/
theorem Hooks.Session.visited {hooks : Hooks τ} {R : Pass τ → Pass τ → Prop} {p₀ : Pass τ}
    {replies : List (Except Error NodeId)} (h : hooks.Session R p₀ replies es run)
    (hhooks : hooks.Obey C) (hR : ∀ p p', R p p' → C.Leads p p') (hasks : ∀ x p, C.Asks x p) :
    Visited C ⟨{}, p₀⟩ es run := by
  induction h with
  | fresh => exact .refl _
  | @meanwhile replies es run h p hp ih =>
    have hstep : Visited C run [] ⟨run.memo, p⟩ := .of_leads (hR _ _ hp)
    exact List.append_nil es ▸ ih.trans hstep
  | @visit replies es run h depth x ih =>
    exact ih.trans (hhooks.visited depth x run (hasks x run.pass))

namespace Visited

variable {p₀ : Pass τ}

theorem idle (h : Visited C ⟨{}, p₀⟩ es run) (i : NodeId) :
    run.memo.mark? i ≠ some .inProgress := by
  intro hi
  have hnone := (h.marks i).1 hi
  simp [Memo.mark?] at hnone

theorem finished_iff (h : Visited C ⟨{}, p₀⟩ es run) :
    run.memo.mark? x = some (.finished y) ↔ .stored x y ∈ es := by
  rw [h.passes.finished_iff]
  exact or_iff_right (by simp [Memo.mark?])

end Visited

/-- No node of a pass is lost. -/
abbrev Pass.Retains (p p' : Pass τ) : Prop := p.graph.size ≤ p'.graph.size

/-- Hooks of which no more is known than that they lose no node. -/
def retaining (τ : Type) : Conduct τ where
  Leads := Pass.Retains
  Asks _ _ := True
  refl _ := Nat.le_refl _
  trans := Nat.le_trans

theorem Pass.Retains.contains {p p' : Pass τ} (h : p.Retains p') (hx : p.graph.contains x) :
    p'.graph.contains x := by
  rw [Graph.contains, decide_eq_true_eq] at hx ⊢
  exact hx.trans_le h

/-- Whatever fails on the way, between two visits no transformation is under way, the stored results
are counted, lie in the graph, and are all that were ever stored. A node that failed is transformed
anew when it is next asked for, by whomever. -/
theorem Hooks.Session.consistent {hooks : Hooks τ} {p₀ : Pass τ}
    {replies : List (Except Error NodeId)} (hhooks : hooks.Obey (retaining τ))
    (h : hooks.Session Pass.Retains p₀ replies es run) :
    (∀ x, run.memo.mark? x ≠ some .inProgress) ∧ run.memo.Counted ∧
    (∀ x y, run.memo.mark? x = some (.finished y) → run.pass.graph.contains y) ∧
    (∀ x y, run.memo.mark? x = some (.finished y) ↔ .stored x y ∈ es) ∧
    (∀ x before after, es = before ++ .failed x :: after → (∀ e ∈ after, e.node ≠ x) →
      ∀ depth, hooks.apply (depth + 1) x run =
        settle x ((hooks.transform x run.pass).run (hooks.apply depth) (run.memo.enter x))) ∧
    ∀ x before between e after, es = before ++ .failed x :: between ++ e :: after →
      e.node = x → (∀ e ∈ between, e.node ≠ x) → e = .entered x := by
  have hv := h.visited hhooks (fun _ _ h => h) fun _ _ => trivial
  refine ⟨hv.idle, hv.passes.counted Memo.counted_empty, fun x y hxy => ?_,
    fun _ _ => hv.finished_iff, ?_, ?_⟩
  · obtain ⟨p, hy, hp⟩ := hv.stored x y (hv.finished_iff.1 hxy)
    exact Pass.Retains.contains hp hy
  · rintro x before after rfl hafter depth
    obtain ⟨p, hin, -, hp⟩ := hv.asked (.failed x) (by simp)
    have hin' : run.pass.graph.contains x = true := Pass.Retains.contains hp hin
    simp only [Hooks.apply, hin', hv.passes.mark?_of_failed hafter, Bool.not_true,
      Bool.false_eq_true, if_false]
  · rintro x before between e after rfl he hbetween
    exact hv.passes.next_of_failed hbetween he

/-- Hooks under which each of two nodes asks for the other. The second fails at first, and the first
asks for it once more. -/
def Hooks.persistent : Hooks Nat where
  transform
    | 0, p => .ask 1 p fun
      | .ok _, p => .done (.ok (some 0) p)
      | .error _, p => .ask 1 p fun _ p => .done (.ok (some 0) p)
    | _, ⟨g, 0⟩ => .done (.error .noSuchOperand ⟨g, 1⟩)
    | x, p => .ask 0 p fun _ p => .done (.ok (some x) p)
  onCycle x p := .done (.ok x p)

theorem Hooks.persistent_obeys : persistent.Obey (retaining Nat) where
  transform x p _ :=
    match x, p with
    | 0, _ => ⟨Nat.le_refl _, trivial, fun
      | .ok _, _, _ => Nat.le_refl _
      | .error _, _, _ => ⟨Nat.le_refl _, trivial, fun _ _ _ => Nat.le_refl _⟩⟩
    | _ + 1, ⟨g, 0⟩ => Nat.le_refl g.size
    | _ + 1, ⟨g, _ + 1⟩ => ⟨Nat.le_refl g.size, trivial, fun _ p _ => Nat.le_refl p.graph.size⟩
  onCycle _ p _ := (retaining Nat).refl p

theorem Hooks.Session.consistent_persistent :
    ∃ es run, Hooks.persistent.Session Pass.Retains ⟨.empty, 0⟩ [.ok 0] es run ∧
      es = [.entered 0, .entered 1, .failed 1, .entered 1, .met 0, .stored 1 1, .stored 0 0] ∧
      (∀ x, run.memo.mark? x ≠ some .inProgress) ∧ run.memo.stored = 2 ∧ run.memo.Counted ∧
      (∀ x y, run.memo.mark? x = some (.finished y) ↔ .stored x y ∈ es) := by
  have hfresh : Hooks.persistent.Session Pass.Retains ⟨.empty, 0⟩ [] [] ⟨{}, ⟨.empty, 0⟩⟩ := .fresh
  have h := hfresh.visit 3 0
  obtain ⟨hidle, hcounted, -, hstored, -⟩ := h.consistent Hooks.persistent_obeys
  have he : Hooks.persistent.events 3 0 ⟨{}, ⟨Graph.empty, 0⟩⟩ =
      [.entered 0, .entered 1, .failed 1, .entered 1, .met 0, .stored 1 1, .stored 0 0] := by cbv
  have hr : reply (Hooks.persistent.apply 3 0 ⟨{}, ⟨Graph.empty, 0⟩⟩) = .ok 0 := by cbv
  have hs : (final (Hooks.persistent.apply 3 0 ⟨{}, ⟨Graph.empty, 0⟩⟩)).memo.stored = 2 := by cbv
  rw [hr] at h
  exact ⟨_, _, h, he, hidle, hs, hcounted, hstored⟩

end ExactAlgebra
