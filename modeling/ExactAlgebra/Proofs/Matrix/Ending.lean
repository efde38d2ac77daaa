import ExactAlgebra.Proofs.Matrix.Entries
import ExactAlgebra.Proofs.Workspace.Collection

/-!
The inversion of a matrix of elementary expressions comes to an end. Once it is given enough depth,
every evaluation on the way comes to an outcome that depends on the graph only, and so does the
search for pivots.
-/

namespace ExactAlgebra

open ExactAlgebra.Graph (Vocabulary Meets Overflow)

variable {σ α β : Type} {library : Library} {g g' : Graph} {k n : Nat} {x : NodeId}
variable {S : Graph → σ → Prop} {Q Q' : α → Graph → Prop} {R : β → Graph → Prop}

/-! ### Computations that need depth -/

/-- An outcome in `Q`, in a graph that has grown from `g`, or an error other than want of depth. -/
def Graph.Concluded (g : Graph) (Q : α → Graph → Prop) : Except Error (α × Graph) → Prop
  | .ok (a, g') => g'.WellFormed ∧ g.Extends g' ∧ Q a g'
  | .error e => e ≠ .depthExhausted

/-- What is to be seen of an outcome, if `S` says which graph a state is about. -/
inductive Shown (S : Graph → σ → Prop) :
    Except Error (α × Graph) → EStateM.Result Error σ α → Prop
  | ok {a : α} {g : Graph} {s : σ} (h : S g s) : Shown S (.ok (a, g)) (.ok a s)
  | error {e : Error} {s : σ} : Shown S (.error e) (.error e s)

/-- Once it is given enough depth, a computation comes to one outcome from all states that are about
the graph `g`, and that outcome is not want of depth. -/
def Terminates (S : Graph → σ → Prop) (m : Nat → EStateM Error σ α) (g : Graph)
    (Q : α → Graph → Prop) : Prop :=
  ∃ N r, g.Concluded Q r ∧ ∀ s, S g s → ∀ depth, N ≤ depth → Shown S r (m depth s)

namespace Terminates

variable {m : Nat → EStateM Error σ α} {f : Nat → α → EStateM Error σ β}

theorem pure {a : α} (hg : g.WellFormed) (h : Q a g) : Terminates S (fun _ => pure a) g Q :=
  ⟨0, .ok (a, g), ⟨hg, .refl g, h⟩, fun _ hs _ _ => .ok hs⟩

theorem throw {e : Error} (he : e ≠ .depthExhausted) :
    Terminates S (fun _ => (MonadExcept.throw e : EStateM Error σ α)) g Q :=
  ⟨0, .error e, he, fun _ _ _ _ => .error⟩

theorem bind (hm : Terminates S m g Q)
    (hf : ∀ a g', g'.WellFormed → g.Extends g' → Q a g' →
      Terminates S (fun depth => f depth a) g' R) :
    Terminates S (fun depth => m depth >>= f depth) g R := by
  obtain ⟨N, r, hr, hN⟩ := hm
  cases r with
  | error e =>
    refine ⟨N, .error e, hr, fun s hs depth hd => ?_⟩
    have hm := hN s hs depth hd
    simp only [Bind.bind, EStateM.bind]
    generalize m depth s = o at hm ⊢
    cases hm
    exact .error
  | ok r =>
    obtain ⟨a, g'⟩ := r
    obtain ⟨hg', hx, ha⟩ := hr
    obtain ⟨N', r', hr', hN'⟩ := hf a g' hg' hx ha
    refine ⟨max N N', r', ?_, fun s hs depth hd => ?_⟩
    · cases r' with
      | error e => exact hr'
      | ok r' => exact ⟨hr'.1, hx.trans hr'.2.1, hr'.2.2⟩
    · have hm := hN s hs depth (le_of_max_le_left hd)
      simp only [Bind.bind, EStateM.bind]
      generalize m depth s = o at hm ⊢
      cases hm with
      | ok hs' => exact hN' _ hs' depth (le_of_max_le_right hd)

theorem mono (hm : Terminates S m g Q)
    (h : ∀ a g', g'.WellFormed → g.Extends g' → Q a g' → Q' a g') : Terminates S m g Q' := by
  obtain ⟨N, r, hr, hN⟩ := hm
  refine ⟨N, r, ?_, hN⟩
  cases r with
  | error e => exact hr
  | ok r => exact ⟨hr.1, hr.2.1, h r.1 r.2 hr.1 hr.2.1 hr.2.2⟩

/-- What each step of a fold keeps, from what it was first, is kept by the fold. -/
theorem foldlM {f : Nat → β → α → EStateM Error σ β} {as : List α} {b : β} (hg : g.WellFormed)
    (hf : ∀ b a g', g'.WellFormed → g.Extends g' → R b g' →
      Terminates S (fun depth => f depth b a) g' R) (hb : R b g) :
    Terminates S (fun depth => as.foldlM (f depth) b) g R := by
  induction as generalizing b g with
  | nil => exact .pure hg hb
  | cons a as ih =>
    simp only [List.foldlM_cons]
    apply (hf b a g hg (.refl g) hb).bind
    intro b' g' hg' hx hb'
    exact ih hg' (fun b a g'' hg'' hx' => hf b a g'' hg'' (hx.trans hx')) hb'

/-- What lasts while a graph grows, and is found out about each element, is known of all. -/
theorem ofFnM {f : Nat → Fin n → EStateM Error σ α} {P : Fin n → α → Graph → Prop}
    (hP : ∀ {i a} {g g' : Graph}, g.Extends g' → P i a g → P i a g') (hg : g.WellFormed)
    (hf : ∀ i g', g'.WellFormed → g.Extends g' → Terminates S (fun depth => f depth i) g' (P i)) :
    Terminates S (fun depth => Vector.ofFnM (f depth)) g fun v g' => ∀ i, P i (v.get i) g' := by
  induction n with
  | zero =>
    simp only [Vector.ofFnM_zero]
    exact .pure hg fun i => i.elim0
  | succ n ih =>
    simp only [Vector.ofFnM_succ]
    apply (ih (P := fun i => P i.castSucc) hP fun i => hf i.castSucc).bind
    intro v g₁ hg₁ hx₁ hv
    apply (hf (Fin.last n) g₁ hg₁ hx₁).bind
    intro a g₂ hg₂ hx₂ ha
    refine .pure hg₂ fun i => ?_
    cases i using Fin.lastCases with
    | last =>
      have hget : (v.push a).get (Fin.last n) = a := Vector.getElem_push_eq
      rw [hget]
      exact ha
    | cast i =>
      have hget : (v.push a).get i.castSucc = v.get i := Vector.getElem_push_lt i.isLt
      rw [hget]
      exact hP hx₂ (hv i)

theorem generate {rows cols : Nat} {f : Nat → Fin rows → Fin cols → EStateM Error σ α}
    (hQ : ∀ {a} {g g' : Graph}, g.Extends g' → Q a g → Q a g') (hg : g.WellFormed)
    (hf : ∀ i j g', g'.WellFormed → g.Extends g' → Terminates S (fun depth => f depth i j) g' Q) :
    Terminates S (fun depth => Grid.generate (f depth)) g fun m g' => ∀ i j, Q (m.get i j) g' := by
  have hcolumns := ofFnM (S := S) (f := fun depth j => Vector.ofFnM fun i => f depth i j)
    (P := fun _ (v : Vector α rows) g' => ∀ i, Q (v.get i) g') (fun hx h i => hQ hx (h i)) hg
    fun j g' hg' hx => ofFnM (P := fun _ => Q) hQ hg'
      fun i g'' hg'' hx' => hf i j g'' hg'' (hx.trans hx')
  apply hcolumns.bind
  intro v g' hg' _ hv
  exact .pure hg' fun i j => hv j i

end Terminates

/-! ### Evaluation and elimination -/

namespace Graph

variable {V : Vocabulary} {y : NodeId} {xs : List NodeId}

theorem constant_elementary (hg : g.WellFormed) (q : Rat) :
    Meets Overflow (constant q) g fun x g' => g'.Elementary V x :=
  ((constant_meets hg q).and (constant_replays (V := V) hg q)).mono fun _ _ _ _ h => h.2.1

theorem product_elementary (hg : g.WellFormed) (hxs : ∀ x ∈ xs, g.Elementary V x) :
    Meets Overflow (product xs) g fun z g' => g'.Elementary V z :=
  ((product_meets hg fun x hx => (hxs x hx).lt_size).and (product_replays hg hxs)).mono
    fun _ _ _ _ h => h.2.1

theorem powerOf_elementary (hg : g.WellFormed) (hx : g.Elementary V x) (q : Rat) :
    Meets Overflow (powerOf x q) g fun z g' => g'.Elementary V z := by
  apply (constant_elementary (V := V) hg q).bind
  intro c g' hg' hext hc
  have hx' := hext.elementary hx
  exact ((power_meets hg' hx'.lt_size hc.lt_size).and (power_replays hg' hx' hc)).mono
    fun _ _ _ _ h => h.2.1

theorem subtract_elementary (hg : g.WellFormed) (hx : g.Elementary V x) (hy : g.Elementary V y) :
    Meets Overflow (subtract x y) g fun z g' => g'.Elementary V z := by
  have hnegate : Meets Overflow (negate y) g fun z g' => g'.Elementary V z := by
    apply (constant_elementary (V := V) hg (-1)).bind
    intro c g' hg' hext hc
    exact product_elementary hg' (by simpa using ⟨hc, hext.elementary hy⟩)
  apply hnegate.bind
  intro z g' hg' hext hz
  have hxs : ∀ w ∈ [x, z], g'.Elementary V w := by
    simpa using ⟨hext.elementary hx, hz⟩
  exact ((sum_meets hg' fun w hw => (hxs w hw).lt_size).and (sum_replays hg' hxs)).mono
    fun _ _ _ _ h => h.2.1

end Graph

/-- A run between evaluations, in the graph `g`. -/
structure Run.At (library : Library) (g : Graph) (run : Run Journal) : Prop where
  graph_eq : run.pass.graph = g
  settled : run.Settled (remembering (Evaluation.rules library) library.IsReal)

namespace Tableau

variable {t : Tableau n} {i j : Fin n}

/-- All entries are elementary. -/
def Elementary (library : Library) (t : Tableau n) (g : Graph) : Prop :=
  ∀ i j, g.Elementary library.vocabulary (t.left.get i j) ∧
    g.Elementary library.vocabulary (t.right.get i j)

theorem Elementary.extends (ht : t.Elementary library g) (hx : g.Extends g') :
    t.Elementary library g' :=
  fun i j => ⟨hx.elementary (ht i j).1, hx.elementary (ht i j).2⟩

end Tableau

theorem Grid.elementary_set {V : Vocabulary} {m : Grid n n NodeId}
    (hm : ∀ i j, g.Elementary V (m.get i j)) (hx : g.Elementary V x) (r c i j : Fin n) :
    g.Elementary V ((m.set r c x).get i j) := by
  by_cases h : i = r ∧ j = c
  · rw [h.1, h.2, get_set_self]
    exact hx
  · rw [get_set_ne m x h]
    exact hm i j

/-- What is to be seen of the outcome of a pass. -/
def Evaluation.outcome (q : EStateM.Result Error (Pass Journal) α) : Except Error (α × Graph) :=
  match q with
  | .ok a p => .ok (a, p.graph)
  | .error e _ => .error e

namespace Terminates

/-- What a computation is in the graph `g` is all that matters. -/
theorem congr {m m' : Nat → Eliminating β} (h : Terminates (Run.At library) m g R)
    (hm : ∀ depth run, run.pass.graph = g → m' depth run = m depth run) :
    Terminates (Run.At library) m' g R := by
  obtain ⟨N, r, hr, hN⟩ := h
  refine ⟨N, r, hr, fun run hs depth hd => ?_⟩
  rw [hm depth run hs.graph_eq]
  exact hN run hs depth hd

theorem build {m : Build α} (hm : Meets Overflow m g Q) :
    Terminates (Run.At library) (fun _ => Run.build m) g Q := by
  unfold Meets at hm
  cases he : m g with
  | error e g' =>
    rw [he] at hm
    refine ⟨0, .error e, ?_, fun run hs _ _ => ?_⟩
    · obtain ⟨-, -, rfl, -⟩ := hm
      rintro ⟨⟩
    · obtain ⟨memo, ⟨g, log⟩⟩ := run
      obtain ⟨rfl, -⟩ := hs
      simp only [Run.build, he]
      exact .error
  | ok a g' =>
    rw [he] at hm
    obtain ⟨hg', hx, ha⟩ := hm
    refine ⟨0, .ok (a, g'), ⟨hg', hx.toExtends, ha⟩, fun run hs _ _ => ?_⟩
    obtain ⟨memo, ⟨g, log⟩⟩ := run
    obtain ⟨rfl, hs⟩ := hs
    simp only [Run.build, he]
    exact .ok ⟨rfl, hg', hs.holds.frame hs.wellFormed hx.develops, hs.idle⟩

/-- Evaluation of an elementary node comes to an end. -/
theorem evaluateIn (hlib : library.Changing Graph.Develops) (hg : g.WellFormed)
    (hx : g.Elementary library.vocabulary x) :
    Terminates (Run.At library) (fun depth => evaluateIn library depth x) g fun y g' =>
      g'.Elementary library.vocabulary y := by
  have hE : Evaluation.Permits library library.vocabulary fun e _ => e ≠ .depthExhausted := by
    refine ⟨fun f hf => hf, ?_, ?_⟩
    · rintro e g ⟨rfl, -⟩ ⟨⟩
    · rintro - - ⟨⟩
  obtain ⟨N, q, hq, hN⟩ := Evaluation.exists_depth_of_halts hE.isReal hx
    (Evaluation.evaluates_elementary hE hx g hg (.refl g)) fun _ h => h rfl
  refine ⟨N, Evaluation.outcome q, ?_, ?_⟩
  · cases q with
    | ok y p => exact ⟨hq.1, hq.2.1, hq.2.2.elementary⟩
    | error e p => exact hq.2.2
  · rintro ⟨memo, ⟨g, log⟩⟩ ⟨rfl, hs⟩ depth hd
    have htrans := (Evaluation.rules_uniform hlib).answering depth x g memo log hs.wellFormed
      hs.holds fun i hi => absurd hi (hs.idle i)
    have hr := hN depth memo _ htrans
    have hl := htrans.leaves
    change Shown _ _ ((Evaluation.rules library).apply depth x ⟨memo, ⟨g, log⟩⟩)
    generalize (Evaluation.rules library).apply depth x ⟨memo, ⟨g, log⟩⟩ = r at hr hl ⊢
    cases r with
    | ok y run' =>
      obtain ⟨log', rfl⟩ := hr
      exact .ok ⟨rfl, hl.wellFormed, hl.holds, fun i hi => hs.idle i ((hl.marks i).1 hi)⟩
    | error e run' =>
      obtain ⟨log', rfl⟩ := hr.resolve_left fun h => absurd h.2 (Nat.not_lt.2 hd)
      exact .error

end Terminates

/-- A construction from two elementary nodes gives an elementary node. -/
def Tableau.Composes (library : Library) (f : NodeId → NodeId → Build NodeId) (g : Graph) : Prop :=
  ∀ ⦃x y g'⦄, g'.WellFormed → g.Extends g' → g'.Elementary library.vocabulary x →
    g'.Elementary library.vocabulary y →
      Meets Overflow (f x y) g' fun z g'' => g''.Elementary library.vocabulary z

namespace Tableau

variable {f : NodeId → NodeId → Build NodeId}
variable (hlib : library.Changing Graph.Develops)

include hlib

theorem evaluated_terminates {m : Build NodeId}
    (hm : Meets Overflow m g fun x g' => g'.Elementary library.vocabulary x) :
    Terminates (Run.At library) (fun depth => evaluated library depth m) g fun y g' =>
      g'.Elementary library.vocabulary y :=
  (Terminates.build hm).bind fun _ _ hg' _ hx => .evaluateIn hlib hg' hx

theorem updateColumn_terminates (hg : g.WellFormed) (hf : Composes library f g)
    (ht : t.Elementary library g) (i j k : Fin n) :
    Terminates (Run.At library) (fun depth => updateColumn library depth f i j t k) g
      (Elementary library) := by
  apply (evaluated_terminates hlib (hf hg (.refl g) (ht i k).1 (ht j k).1)).bind
  intro x g₁ hg₁ hx₁ hx
  have ht₁ := ht.extends hx₁
  apply (evaluated_terminates hlib (hf hg₁ hx₁ (ht₁ i k).2 (ht₁ j k).2)).bind
  intro y g₂ hg₂ hx₂ hy
  have ht₂ := ht₁.extends hx₂
  exact .pure hg₂ fun r c => ⟨Grid.elementary_set (fun r c => (ht₂ r c).1) (hx₂.elementary hx) ..,
    Grid.elementary_set (fun r c => (ht₂ r c).2) hy ..⟩

theorem updateRow_terminates (hg : g.WellFormed) (hf : Composes library f g)
    (ht : t.Elementary library g) (i j : Fin n) :
    Terminates (Run.At library) (fun depth => updateRow library depth f i j t) g
      (Elementary library) := by
  refine .foldlM hg (fun t k g' hg' hx ht => ?_) ht
  exact updateColumn_terminates hlib hg' (fun _ _ g'' hg'' hx' => hf hg'' (hx.trans hx')) ht i j k

theorem normalize_terminates (hg : g.WellFormed) (ht : t.Elementary library g) (j : Fin n) :
    Terminates (Run.At library) (fun depth => normalize library depth j t) g
      (Elementary library) := by
  apply (evaluated_terminates hlib (Graph.powerOf_elementary hg (ht j j).1 (-1))).bind
  intro scale g' hg' hx hscale
  refine updateRow_terminates hlib hg' (fun x y g'' hg'' hx' hy _ => ?_) (ht.extends hx) j j
  exact Graph.product_elementary hg'' (by simpa using ⟨hy, hx'.elementary hscale⟩)

theorem clear_terminates (hg : g.WellFormed) (ht : t.Elementary library g) (i j : Fin n) :
    Terminates (Run.At library) (fun depth => clear library depth j t i) g
      (Elementary library) := by
  by_cases hij : i = j
  · simp only [clear, if_pos hij]
    exact .pure hg ht
  have hread : ∀ depth (run : Run Journal), clear library depth j t i run =
      if run.pass.graph.hasValue 0 (t.left.get i j) then .ok t run
      else updateRow library depth
        (fun x y => do Graph.subtract x (← Graph.product [t.left.get i j, y])) i j t run := by
    intro depth run
    simp only [clear, if_neg hij, bind, EStateM.bind, get, getThe, MonadStateOf.get, EStateM.get]
    split <;> rfl
  by_cases h0 : g.hasValue 0 (t.left.get i j)
  · refine Terminates.congr (.pure hg ht) fun depth run hrun => ?_
    rw [hread, hrun, if_pos h0]
    rfl
  · have hcomposes : Composes library
        (fun x y => do Graph.subtract x (← Graph.product [t.left.get i j, y])) g := by
      intro x y g' hg' hx hx' hy
      have hfactor := hx.elementary (ht i j).1
      apply (Graph.product_elementary hg' (by simpa using ⟨hfactor, hy⟩)).bind
      intro z g'' hg'' hext hz
      exact Graph.subtract_elementary hg'' (hext.elementary hx') hz
    refine (updateRow_terminates hlib hg hcomposes ht i j).congr fun depth run hrun => ?_
    rw [hread, hrun, if_neg h0]

theorem reduceColumn_terminates (hg : g.WellFormed) (ht : t.Elementary library g) (j : Fin n) :
    Terminates (Run.At library) (fun depth => reduceColumn library depth t j) g
      (Elementary library) := by
  cases hp : t.pivot? g j with
  | none =>
    have hthrow : Terminates (Run.At library)
        (fun _ => (throw (.singular j) : Eliminating (Tableau n))) g (Elementary library) :=
      .throw (by rintro ⟨⟩)
    refine hthrow.congr fun depth run hrun => ?_
    simp only [reduceColumn, bind, EStateM.bind, get, getThe, MonadStateOf.get, EStateM.get, hrun,
      hp]
  | some i =>
    have hswap : (if i = j then t else t.swapRows j i).Elementary library g := by
      split
      · exact ht
      · intro r c
        simp only [swapRows, Grid.get_swapRows]
        exact ht _ c
    have hclear : ∀ t' g', g'.WellFormed → Elementary library t' g' →
        Terminates (Run.At library)
          (fun depth => (List.finRange n).foldlM (clear library depth j) t') g'
          (Elementary library) := fun t' g' hg' ht' =>
      .foldlM hg' (fun t i g'' hg'' _ ht => clear_terminates hlib hg'' ht i j) ht'
    have hrest := (normalize_terminates hlib hg hswap j).bind fun t' g' hg' _ ht' =>
      hclear t' g' hg' ht'
    refine hrest.congr fun depth run hrun => ?_
    simp only [reduceColumn, bind, EStateM.bind, get, getThe, MonadStateOf.get, EStateM.get, hrun,
      hp]

end Tableau

/-- The elimination on a grid of elementary nodes comes to an end. -/
theorem invertGrid_terminates (hlib : library.Changing Graph.Develops) (hg : g.WellFormed)
    {a : Grid n n NodeId} (ha : ∀ i j, g.Elementary library.vocabulary (a.get i j)) :
    Terminates (Run.At library) (fun depth => invertGrid library depth a) g fun _ _ => True := by
  have hidentity : Meets Overflow (identityGrid n) g fun b g' =>
      ∀ i j, g'.Elementary library.vocabulary (b.get i j) := by
    apply (Graph.constant_elementary (V := library.vocabulary) hg 0).bind
    intro o g₁ hg₁ _ ho
    apply (Graph.constant_elementary (V := library.vocabulary) hg₁ 1).bind
    intro e g₂ hg₂ hx he
    refine .pure hg₂ fun i j => ?_
    rw [Grid.get_ofFn]
    split
    · exact he
    · exact hx.elementary ho
  apply (Terminates.build hidentity).bind
  intro b g' hg' hx hb
  have hstart : (⟨a, b⟩ : Tableau n).Elementary library g' :=
    fun i j => ⟨hx.elementary (ha i j), hb i j⟩
  have hfold : Terminates (Run.At library)
      (fun depth => (List.finRange n).foldlM (Tableau.reduceColumn library depth) ⟨a, b⟩) g'
      (Tableau.Elementary library) :=
    .foldlM hg' (fun t j g'' hg'' _ ht => Tableau.reduceColumn_terminates hlib hg'' ht j) hstart
  exact hfold.bind fun _ _ hg'' _ _ => .pure hg'' trivial

/-! ### Inversion -/

/-- A transformer between evaluations, of graph `k`, which is `g`. -/
structure Transforming.At (library : Library) (k : Nat) (g : Graph)
    (state : Workspace × Transformer (Array Fault)) : Prop where
  settled : Transforming.Settled (remembering (Evaluation.rules library) library.IsReal) k state
  graph_eq : state.1.graph k = g

namespace Terminates

theorem runEvaluation {m : Nat → Eliminating α} (h : Terminates (Run.At library) m g Q) :
    Terminates (Transforming.At library k) (fun depth => Transforming.runEvaluation (m depth)) g
      Q := by
  obtain ⟨N, r, hr, hN⟩ := h
  refine ⟨N, r, hr, ?_⟩
  rintro ⟨ws, t⟩ ⟨⟨rfl, hlt, hs⟩, hg⟩ depth hd
  have hm := hN (Transforming.start ws t) ⟨hg, hs⟩ depth hd
  simp only [Transforming.runEvaluation_eq]
  generalize m depth (Transforming.start ws t) = o at hm ⊢
  cases hm with
  | ok h =>
    obtain ⟨rfl, hs'⟩ := h
    exact .ok ⟨.after hlt hs', Workspace.graph_afterRun hlt _⟩
  | error => exact .error

theorem evaluate (hlib : library.Changing Graph.Develops) (hg : g.WellFormed)
    (hx : g.Elementary library.vocabulary x) :
    Terminates (Transforming.At library k)
      (fun depth => Transforming.evaluate library depth (.node k x)) g fun h g' =>
        ∃ y, h = .node k y ∧ g'.Elementary library.vocabulary y := by
  have hbind : Terminates (Transforming.At library k)
      (fun depth => do
        let y ← Transforming.runEvaluation (ExactAlgebra.evaluateIn library depth x)
        return Handle.node k y) g fun h g' =>
          ∃ y, h = .node k y ∧ g'.Elementary library.vocabulary y :=
    (evaluateIn hlib hg hx).runEvaluation.bind fun y g' hg' _ hy => .pure hg' ⟨y, rfl, hy⟩
  obtain ⟨N, r, hr, hN⟩ := hbind
  refine ⟨N, r, hr, ?_⟩
  rintro ⟨ws, t⟩ hs depth hd
  have h := hN (ws, t) hs depth hd
  obtain ⟨⟨rfl, -, -⟩, -⟩ := hs
  have heq : Transforming.evaluate library depth (.node t.graph x) (ws, t) =
      (do
        let y ← Transforming.runEvaluation (ExactAlgebra.evaluateIn library depth x)
        return .node t.graph y : Transforming (Array Fault) Handle) (ws, t) := by
    have hbind := Transforming.runEvaluation_eq (ExactAlgebra.evaluateIn library depth x) ws t
    rw [Transforming.evaluate_eq]
    simp only [Bind.bind, EStateM.bind, hbind]
    cases ExactAlgebra.evaluateIn library depth x (Transforming.start ws t) <;> rfl
  change Shown _ _ (Transforming.evaluate library depth (.node t.graph x) (ws, t))
  rw [heq]
  exact h

end Terminates

namespace Matrix

/-- All entries of a matrix are elementary expressions of its graph. -/
def Elementary (library : Library) (m : Matrix) (g : Graph) : Prop :=
  ∀ i j, ∃ x, m.entries.get i j = .node m.graph x ∧ g.Elementary library.vocabulary x

theorem invertEntries_terminates (hlib : library.Changing Graph.Develops) (hg : g.WellFormed)
    {entries : Grid n n Handle} (hm : Elementary library ⟨k, n, n, entries⟩ g) :
    Terminates (Transforming.At library k) (fun depth => invertEntries library depth k entries) g
      fun _ _ => True := by
  have hentries : Terminates (Transforming.At library k)
      (fun depth => Grid.generate fun i j => Transforming.evaluate library depth (entries.get i j))
      g fun a g' => ∀ i j, g'.Elementary library.vocabulary (a.get i j).id := by
    refine .generate (Q := fun (h : Handle) g' => g'.Elementary library.vocabulary h.id)
      (fun hx h => hx.elementary h) hg fun i j g' hg' hx => ?_
    obtain ⟨x, he, hel⟩ := hm i j
    change entries.get i j = .node k x at he
    simp only [he]
    refine (Terminates.evaluate hlib hg' (hx.elementary hel)).mono ?_
    rintro _ g'' - - ⟨y, rfl, hy⟩
    exact hy
  apply hentries.bind
  intro a g' hg' _ ha
  have hinvert := invertGrid_terminates hlib hg' (a := a.map Handle.id) fun i j => by
    rw [Grid.get_map]
    exact ha i j
  exact hinvert.runEvaluation.bind fun _ _ hg'' _ _ => .pure hg'' trivial

/--
The inversion of a matrix of elementary expressions ends. Some depth is enough for it, and so is any
depth above, in all workspaces that agree on the graph.
-/
theorem exists_depth_inverse (hlib : library.Changing Graph.Develops) (m : Matrix)
    (hg : g.WellFormed) (hm : m.Elementary library g) :
    ∃ N, ∀ ws : Workspace, m.graph < ws.graphs.size → ws.graph m.graph = g →
      ∀ depth, N ≤ depth → ∀ e ws', m.inverse library depth ws = .error e ws' →
        e ≠ .depthExhausted := by
  obtain ⟨k, rows, cols, entries⟩ := m
  by_cases hsquare : rows = cols
  · subst hsquare
    obtain ⟨N, r, hr, hN⟩ := invertEntries_terminates hlib hg hm
    refine ⟨N, fun ws hk hws depth hd e ws' he => ?_⟩
    have hs : Transforming.At library k g (ws, { graph := k, log := #[] }) :=
      ⟨.fresh hk (hws ▸ hg), hws⟩
    have hshown : Shown _ r (invertEntries library depth k entries _) := hN _ hs depth hd
    rw [inverse_square_eq] at he
    generalize invertEntries library depth k entries (ws, { graph := k, log := #[] }) = o
      at hshown he
    cases hshown with
    | ok => cases he
    | error =>
      cases he
      exact hr
  · refine ⟨0, fun ws _ _ depth _ e ws' he => ?_⟩
    rw [Matrix.inverse, dif_neg hsquare] at he
    cases he
    rintro ⟨⟩

end Matrix

end ExactAlgebra
