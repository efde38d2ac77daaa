import ExactAlgebra.Matrix.Elimination
import ExactAlgebra.Proofs.Matrix.Grid
import ExactAlgebra.Proofs.Matrix.RowReduction
import ExactAlgebra.Proofs.Transform.Contract

/-!
Elimination on grids of nodes does the row operations on the matrices of their values, for every way
to give values to nodes that evaluation respects.
-/

namespace ExactAlgebra

open ExactAlgebra.Graph (Overflow)

variable {library : Library} {depth n : Nat} {g g' : Graph} {α β : Type} {c : Contract}
variable {E : Error → Graph → Prop} {Q Q' : α → Graph → Prop} {R : β → Graph → Prop}
variable {run : Run Journal}

/-- A run between evaluations, the memo of which keeps a contract. -/
structure Run.Settled (c : Contract) (run : Run Journal) : Prop where
  wellFormed : run.pass.graph.WellFormed
  holds : run.memo.Holds c run.pass.graph
  idle : ∀ i, run.memo.mark? i ≠ some .inProgress

/-- A part of an elimination ends well, with an outcome in `Q`, or with an error in `E`. -/
def Eliminates (c : Contract) (E : Error → Graph → Prop) (m : Eliminating α)
    (run : Run Journal) (Q : α → Graph → Prop) : Prop :=
  match m run with
  | .ok a run' => run'.Settled c ∧ c.Frame run.pass.graph run'.pass.graph ∧ Q a run'.pass.graph
  | .error e run' => E e run'.pass.graph

namespace Eliminates

theorem pure {a : α} (hr : run.Settled c) (h : Q a run.pass.graph) :
    Eliminates c E (Pure.pure a) run Q :=
  ⟨hr, c.frame_refl _, h⟩

theorem throw {e : Error} (h : E e run.pass.graph) :
    Eliminates c E (MonadExcept.throw e) run Q := h

/-- The second part may rely on how the first one ended. -/
theorem bind_of_eq {m : Eliminating α} {f : α → Eliminating β} (hm : Eliminates c E m run Q)
    (hf : ∀ a run', m run = .ok a run' → run'.Settled c → c.Frame run.pass.graph run'.pass.graph →
      Q a run'.pass.graph → Eliminates c E (f a) run' R) :
    Eliminates c E (m >>= f) run R := by
  unfold Eliminates at hm ⊢
  simp only [Bind.bind, EStateM.bind]
  cases he : m run with
  | error e run' =>
    rw [he] at hm
    exact hm
  | ok a run' =>
    rw [he] at hm
    obtain ⟨hr, hx, hQ⟩ := hm
    have hfa := hf a run' he hr hx hQ
    unfold Eliminates at hfa
    cases ha : f a run' with
    | error e run'' =>
      simp only [ha] at hfa ⊢
      exact hfa
    | ok b run'' =>
      simp only [ha] at hfa ⊢
      exact ⟨hfa.1, c.frame_trans hx hfa.2.1, hfa.2.2⟩

theorem bind {m : Eliminating α} {f : α → Eliminating β} (hm : Eliminates c E m run Q)
    (hf : ∀ a run', run'.Settled c → c.Frame run.pass.graph run'.pass.graph →
      Q a run'.pass.graph → Eliminates c E (f a) run' R) :
    Eliminates c E (m >>= f) run R :=
  hm.bind_of_eq fun a run' _ => hf a run'

theorem mono {m : Eliminating α} (hm : Eliminates c E m run Q)
    (h : ∀ a g, c.Frame run.pass.graph g → Q a g → Q' a g) : Eliminates c E m run Q' := by
  unfold Eliminates at hm ⊢
  cases he : m run with
  | error e run' =>
    rw [he] at hm
    exact hm
  | ok a run' =>
    rw [he] at hm
    exact ⟨hm.1, hm.2.1, h a _ hm.2.1 hm.2.2⟩

theorem get {f : Run Journal → Eliminating β} (h : Eliminates c E (f run) run R) :
    Eliminates c E (MonadState.get >>= f) run R := h

theorem weaken {E' : Error → Graph → Prop} {m : Eliminating α} (hm : Eliminates c E m run Q)
    (h : ∀ e g, E e g → E' e g) : Eliminates c E' m run Q := by
  unfold Eliminates at hm ⊢
  cases he : m run with
  | error e run' =>
    rw [he] at hm
    exact h e _ hm
  | ok a run' =>
    rw [he] at hm
    exact hm

/-- Nodes are built between evaluations. -/
theorem build {m : Build α} (hr : run.Settled c) (hm : Graph.Meets E m run.pass.graph Q) :
    Eliminates c E (Run.build m) run Q := by
  unfold Graph.Meets at hm
  unfold Eliminates Run.build
  cases he : m run.pass.graph with
  | error e g =>
    simp only [he] at hm ⊢
    exact hm.2.2
  | ok x g =>
    simp only [he] at hm ⊢
    obtain ⟨hg, hx, hv⟩ := hm
    have hf := c.frame_of_growsTo hg hx
    exact ⟨⟨hg, hr.holds.frame hr.wellFormed hf, hr.idle⟩, hf, hv⟩

theorem ite {p : Prop} [Decidable p] {m m' : Eliminating α}
    (h : p → Eliminates c E m run Q) (h' : ¬ p → Eliminates c E m' run Q) :
    Eliminates c E (if p then m else m') run Q := by
  split
  · exact h ‹_›
  · exact h' ‹_›

/-- What holds before each element of a list, of those already done, holds at the end of all. -/
theorem foldlM {f : β → α → Eliminating β} {as : List α} {b₀ : β} {I : List α → β → Graph → Prop}
    (hstep : ∀ done a rest b run', as = done ++ a :: rest →
      done.foldlM f b₀ run = .ok b run' → run'.Settled c →
      c.Frame run.pass.graph run'.pass.graph → I done b run'.pass.graph →
      Eliminates c E (f b a) run' (I (done ++ [a])))
    (hr : run.Settled c) (hb : I [] b₀ run.pass.graph) :
    Eliminates c E (as.foldlM f b₀) run (I as) := by
  have hfold : ∀ (rest done : List α) (b : β) (run' : Run Journal), as = done ++ rest →
      done.foldlM f b₀ run = .ok b run' → run'.Settled c →
      c.Frame run.pass.graph run'.pass.graph → I done b run'.pass.graph →
      Eliminates c E (rest.foldlM f b) run' (I as) := by
    intro rest
    induction rest with
    | nil =>
      intro done b run' has _ hr' _ hI
      rw [List.append_nil] at has
      subst has
      exact .pure hr' hI
    | cons a rest ih =>
      intro done b run' has hdone hr' hx hI
      rw [List.foldlM_cons]
      apply (hstep done a rest b run' has hdone hr' hx hI).bind_of_eq
      intro b' run'' hb' hr'' hx' hI'
      have hdone' : (done ++ [a]).foldlM f b₀ run = .ok b' run'' := by
        rw [List.foldlM_append]
        simp only [Bind.bind, EStateM.bind, hdone, List.foldlM_cons, hb']
        rfl
      apply ih (done ++ [a]) b' run'' _ hdone' hr'' (c.frame_trans hx hx') hI'
      rw [has, List.append_assoc, List.singleton_append]
  exact hfold as [] b₀ run rfl rfl hr (c.frame_refl _) hb

end Eliminates

/-! ### Values that evaluation keeps -/

/--
Values of nodes, and what elimination needs to know of them: evaluation keeps them, and row
operations compute with them.
-/
structure Valuation (library : Library) (depth : Nat) where
  contract : Contract
  Has : Graph → NodeId → Rat → Prop
  /-- A node that was just built will have a value once it is evaluated. -/
  Promises : Graph → NodeId → Rat → Prop
  replies : Replies contract depth (evaluateIn library depth)
  fails_overflow : ∀ {e : Error} {g : Graph}, Overflow e g → contract.Fails e g
  has_frame : ∀ {g g' : Graph} {x v}, g.WellFormed → contract.Frame g g' → Has g x v → Has g' x v
  has_extends : ∀ {g g' : Graph} {x v}, g.WellFormed → g.Extends g' → Has g x v → Has g' x v
  eq_zero : ∀ {g : Graph} {x v}, Has g x v → g.hasValue 0 x → v = 0
  asks : ∀ {g : Graph} {x v}, Promises g x v → contract.Asks depth g x
  has_of_answers : ∀ {g g' : Graph} {x y v}, g.WellFormed → contract.Frame g g' →
    Promises g x v → contract.Answers g' x y → Has g' y v
  constant : ∀ {g : Graph} (q : Rat), g.WellFormed →
    Graph.Meets Overflow (Graph.constant q) g fun x g' => Has g' x q
  invert : ∀ {g : Graph} {x v}, g.WellFormed → Has g x v → v ≠ 0 →
    Graph.Meets Overflow (Graph.powerOf x (-1)) g fun y g' => Promises g' y v⁻¹
  multiply : ∀ {g : Graph} {x y v w}, g.WellFormed → Has g x v → Has g y w →
    Graph.Meets Overflow (Graph.product [x, y]) g fun z g' => Promises g' z (v * w)
  subtractProduct : ∀ {g : Graph} {x y z v w u}, g.WellFormed → Has g x v → Has g y w →
    Has g z u → Graph.Meets Overflow (do Graph.subtract x (← Graph.product [z, y])) g
      fun r g' => Promises g' r (v - u * w)

/-- An elimination that starts from the matrix `A` ends early at the first column that depends on
those before it, or with one of the failures `F`. -/
def Stops (F : Error → Graph → Prop) {n : Nat} (A : RatMatrix n) (e : Error) (g : Graph) : Prop :=
  (∃ j : Fin n, e = .singular j ∧ IsLeast { c | A.ColumnsDependent c } j) ∨ F e g

namespace Valuation

variable {V : Valuation library depth} {x : NodeId} {v : Rat}

/-- A node with a promised value is evaluated to a node with that value. -/
theorem evaluateIn_eliminates (hr : run.Settled V.contract) (hv : V.Promises run.pass.graph x v) :
    Eliminates V.contract V.contract.Fails (evaluateIn library depth x) run fun y g' =>
      V.Has g' y v := by
  have hleads : run.memo.Leads V.contract run.pass.graph x := fun i hi => absurd hi (hr.idle i)
  have hrun : Outcome _ _ _ _ (evaluateIn library depth x run) :=
    V.replies x run.pass.graph run.memo run.pass.log hr.wellFormed hr.holds (V.asks hv) hleads
  unfold Eliminates
  cases he : evaluateIn library depth x run with
  | error e run' =>
    rw [he] at hrun
    exact hrun.2.2.2.2
  | ok y run' =>
    rw [he] at hrun
    obtain ⟨hg, hx, hh, hp, -, -, hy⟩ := hrun
    exact ⟨⟨hg, hh, fun i hi => hr.idle i ((hp i).1 hi)⟩, hx,
      V.has_of_answers hr.wellFormed hx hv hy⟩

theorem evaluated_eliminates (hE : ∀ e g, V.contract.Fails e g → E e g) {m : Build NodeId}
    (hr : run.Settled V.contract)
    (hm : Graph.Meets Overflow m run.pass.graph fun x g' => V.Promises g' x v) :
    Eliminates V.contract E (Tableau.evaluated library depth m) run fun y g' => V.Has g' y v := by
  apply ((Eliminates.build hr hm).weaken fun e g he => hE e g (V.fails_overflow he)).bind
  intro x run' hr' _ hv
  exact (evaluateIn_eliminates hr' hv).weaken hE

end Valuation

/-! ### Tableaus -/

variable {V : Valuation library depth}

/-- A grid of nodes, and the matrix of their values. -/
def Grid.Represents (V : Valuation library depth) (g : Graph) (m : Grid n n NodeId)
    (A : RatMatrix n) : Prop :=
  ∀ i j, V.Has g (m.get i j) (A i j)

theorem Grid.Represents.frame {m : Grid n n NodeId} {A : RatMatrix n} (h : m.Represents V g A)
    (hg : g.WellFormed) (hx : V.contract.Frame g g') : m.Represents V g' A :=
  fun i j => V.has_frame hg hx (h i j)

/-- An entry takes a new value. -/
theorem Grid.Represents.set {m : Grid n n NodeId} {A A' : RatMatrix n} {i k : Fin n} {x : NodeId}
    (h : m.Represents V g A) (hx : V.Has g x (A' i k))
    (hne : ∀ r c, ¬ (r = i ∧ c = k) → A' r c = A r c) : (m.set i k x).Represents V g A' := by
  intro r c
  by_cases hrc : r = i ∧ c = k
  · obtain ⟨rfl, rfl⟩ := hrc
    rw [Grid.get_set_self]
    exact hx
  · rw [Grid.get_set_ne m x hrc, hne r c hrc]
    exact h r c

namespace Tableau

variable {A L R : RatMatrix n} {i j k : Fin n} {t t₀ : Tableau n}
variable {f : NodeId → NodeId → Build NodeId} {φ : Rat → Rat → Rat}

structure Represents (V : Valuation library depth) (g : Graph) (t : Tableau n)
    (L R : RatMatrix n) : Prop where
  left : t.left.Represents V g L
  right : t.right.Represents V g R

theorem Represents.frame (h : t.Represents V g L R) (hg : g.WellFormed)
    (hx : V.contract.Frame g g') : t.Represents V g' L R :=
  ⟨h.left.frame hg hx, h.right.frame hg hx⟩

/-- From nodes with values `v` and `w`, the construction `f` gives the value `φ v w`. -/
def Computes (V : Valuation library depth) (f : NodeId → NodeId → Build NodeId)
    (φ : Rat → Rat → Rat) (g : Graph) : Prop :=
  ∀ ⦃g' x y v w⦄, g'.WellFormed → V.contract.Frame g g' → V.Has g' x v → V.Has g' y w →
    Graph.Meets Overflow (f x y) g' fun z g'' => V.Promises g'' z (φ v w)

/-- Row `i` after the columns `done` were updated from rows `i` and `j`. -/
def partialRow (φ : Rat → Rat → Rat) (i j : Fin n) (L : RatMatrix n) (done : List (Fin n)) :
    RatMatrix n :=
  fun r c => if r = i ∧ c ∈ done then φ (L i c) (L j c) else L r c

theorem partialRow_nil : partialRow φ i j L [] = L := by
  funext r c
  exact if_neg fun h => List.not_mem_nil h.2

theorem partialRow_finRange :
    partialRow φ i j L (List.finRange n) = L.updateRow i fun c => φ (L i c) (L j c) := by
  funext r c
  by_cases hr : r = i
  · subst hr
    rw [partialRow, if_pos ⟨rfl, List.mem_finRange c⟩, Matrix.updateRow_self]
  · rw [partialRow, if_neg fun h => hr h.1, Matrix.updateRow_ne hr]

theorem partialRow_of_notMem {done : List (Fin n)} (hk : k ∉ done) (r : Fin n) :
    partialRow φ i j L done r k = L r k :=
  if_neg fun h => hk h.2

theorem updateColumn_eliminates (hE : ∀ e g, V.contract.Fails e g → E e g)
    (hr : run.Settled V.contract) (hf : Computes V f φ run.pass.graph) {done : List (Fin n)}
    (hk : k ∉ done)
    (ht : t.Represents V run.pass.graph (partialRow φ i j L done) (partialRow φ i j R done)) :
    Eliminates V.contract E (updateColumn library depth f i j t k) run fun t' g' =>
      t'.Represents V g' (partialRow φ i j L (done ++ [k])) (partialRow φ i j R (done ++ [k])) := by
  have hself : ∀ B : RatMatrix n, partialRow φ i j B (done ++ [k]) i k = φ (B i k) (B j k) :=
    fun B => if_pos ⟨rfl, by simp⟩
  have hrest : ∀ (B : RatMatrix n) r c, ¬ (r = i ∧ c = k) →
      partialRow φ i j B (done ++ [k]) r c = partialRow φ i j B done r c := by
    intro B r c hrc
    by_cases hr : r = i
    · have hc : c ≠ k := fun hc => hrc ⟨hr, hc⟩
      simp only [partialRow, hr, List.mem_append, List.mem_singleton, hc, or_false]
    · rw [partialRow, partialRow, if_neg fun h => hr h.1, if_neg fun h => hr h.1]
  have hentry : ∀ {m : Grid n n NodeId} {B : RatMatrix n} {g : Graph} (r : Fin n),
      m.Represents V g (partialRow φ i j B done) → V.Has g (m.get r k) (B r k) := by
    intro m B g r hm
    have hv := hm r k
    rwa [partialRow_of_notMem hk] at hv
  apply (Valuation.evaluated_eliminates hE hr
    (hf hr.wellFormed (V.contract.frame_refl _) (hentry i ht.left) (hentry j ht.left))).bind
  intro x run₁ hr₁ hx₁ hx
  have ht₁ := ht.frame hr.wellFormed hx₁
  apply (Valuation.evaluated_eliminates hE hr₁
    (hf hr₁.wellFormed hx₁ (hentry i ht₁.right) (hentry j ht₁.right))).bind
  intro y run₂ hr₂ hx₂ hy
  have ht₂ := ht₁.frame hr₁.wellFormed hx₂
  apply Eliminates.pure hr₂
  constructor
  · apply ht₂.left.set _ (hrest L)
    rw [hself]
    exact V.has_frame hr₁.wellFormed hx₂ hx
  · apply ht₂.right.set _ (hrest R)
    rw [hself]
    exact hy

/-- Rows on both sides are replaced alike. -/
theorem updateRow_eliminates (hE : ∀ e g, V.contract.Fails e g → E e g)
    (hr : run.Settled V.contract) (hf : Computes V f φ run.pass.graph)
    (ht : t.Represents V run.pass.graph L R) :
    Eliminates V.contract E (updateRow library depth f i j t) run fun t' g' =>
      t'.Represents V g' (L.updateRow i fun c => φ (L i c) (L j c))
        (R.updateRow i fun c => φ (R i c) (R j c)) := by
  have hfold : Eliminates V.contract E (updateRow library depth f i j t) run fun t' g' =>
      t'.Represents V g' (partialRow φ i j L (List.finRange n))
        (partialRow φ i j R (List.finRange n)) := by
    refine Eliminates.foldlM (I := fun (done : List (Fin n)) (t' : Tableau n) (g' : Graph) =>
      t'.Represents V g' (partialRow φ i j L done) (partialRow φ i j R done)) ?_ hr ?_
    · intro done k rest t' run' hsplit _ hr' hx ht'
      have hk : k ∉ done := by
        have hd := List.nodup_finRange n
        rw [hsplit] at hd
        exact fun h => (List.nodup_append.1 hd).2.2 k h k (List.mem_cons_self ..) rfl
      have hf' : Computes V f φ run'.pass.graph :=
        fun g' x y v w hg hx' => hf hg (V.contract.frame_trans hx hx')
      exact updateColumn_eliminates hE hr' hf' hk ht'
    · rw [partialRow_nil, partialRow_nil]
      exact ht
  rw [partialRow_finRange, partialRow_finRange] at hfold
  exact hfold

/-! ### Columns -/

theorem normalize_eliminates (hE : ∀ e g, V.contract.Fails e g → E e g)
    (hr : run.Settled V.contract) (ht : t.Represents V run.pass.graph L R) (hj : L j j ≠ 0) :
    Eliminates V.contract E (normalize library depth j t) run fun t' g' =>
      t'.Represents V g' (L.updateRow j ((L j j)⁻¹ • L j))
        (R.updateRow j ((L j j)⁻¹ • R j)) := by
  apply (Valuation.evaluated_eliminates hE hr (V.invert hr.wellFormed (ht.left j j) hj)).bind
  intro s run' hr' hx hs
  have hf : Computes V (fun x _ => Graph.product [x, s]) (fun v _ => v * (L j j)⁻¹)
      run'.pass.graph := by
    intro g' x y v w hg' hx' hv _
    exact V.multiply hg' hv (V.has_frame hr'.wellFormed hx' hs)
  have hrow : ∀ B : RatMatrix n, (fun c => B j c * (L j j)⁻¹) = (L j j)⁻¹ • B j := by
    intro B
    funext c
    rw [Pi.smul_apply, smul_eq_mul, mul_comm]
  have hm := updateRow_eliminates (i := j) (j := j) hE hr' hf (ht.frame hr.wellFormed hx)
  rw [hrow L, hrow R] at hm
  exact hm

/-- The row operations so far lead from `A` to what the tableau represents. -/
def Stands (V : Valuation library depth) (A : RatMatrix n) (j : Nat) (t : Tableau n) (g : Graph) :
    Prop :=
  ∃ L R, t.Represents V g L R ∧ RatMatrix.Reduced A L R j

/-- Column `j` of the tableau is being cleared. -/
def Clears (V : Valuation library depth) (A : RatMatrix n) (j : Fin n) (done : List (Fin n))
    (t : Tableau n) (g : Graph) : Prop :=
  ∃ L R, t.Represents V g L R ∧ RatMatrix.Cleared A L R j done

theorem clear_eliminates (hE : ∀ e g, V.contract.Fails e g → E e g) (hr : run.Settled V.contract)
    {done : List (Fin n)} (ht : t.Clears V A j done run.pass.graph) :
    Eliminates V.contract E (clear library depth j t i) run fun t' g' =>
      t'.Clears V A j (done ++ [i]) g' := by
  obtain ⟨L, R, ht, hc⟩ := ht
  apply Eliminates.ite
  · intro hi
    exact .pure hr ⟨L, R, ht, hc.skip fun hne => absurd hi hne⟩
  intro hi
  apply Eliminates.get
  have hfactor := ht.left i j
  apply Eliminates.ite
  · intro h0
    exact .pure hr ⟨L, R, ht, hc.skip fun _ => V.eq_zero hfactor h0⟩
  intro _
  have hf : Computes V (fun x y => do Graph.subtract x (← Graph.product [t.left.get i j, y]))
      (fun v w => v - L i j * w) run.pass.graph := by
    intro g' x y v w hg' hx hv hw
    exact V.subtractProduct hg' hv hw (V.has_frame hr.wellFormed hx hfactor)
  apply (updateRow_eliminates hE hr hf ht).mono
  intro t' g' _ ht'
  exact ⟨_, _, ht', hc.clear hi⟩

theorem pivot?_eq_none (ht : t.Represents V g L R) (h : t.pivot? g j = none) (hi : j ≤ i) :
    L i j = 0 := by
  have hnone := List.find?_eq_none.1 h i (List.mem_finRange i)
  apply V.eq_zero (ht.left i j)
  simpa [hi] using hnone

theorem pivot?_eq_some (h : t.pivot? g j = some i) :
    j ≤ i ∧ g.hasValue 0 (t.left.get i j) = false := by
  simpa using List.find?_some h

theorem Represents.swapRows (ht : t.Represents V g L R) (i i' : Fin n) :
    (t.swapRows i i').Represents V g (L.submatrix (Equiv.swap i i') id)
      (R.submatrix (Equiv.swap i i') id) := by
  constructor
  · intro r c
    rw [Tableau.swapRows, Grid.get_swapRows]
    exact ht.left _ c
  · intro r c
    rw [Tableau.swapRows, Grid.get_swapRows]
    exact ht.right _ c

/-- The row with the pivot is moved to its place. -/
theorem Stands.move (ht : t.Represents V g L R) (hred : RatMatrix.Reduced A L R j) (hji : j ≤ i)
    (hne : L i j ≠ 0) :
    ∃ L' R', (if i = j then t else t.swapRows j i).Represents V g L' R' ∧
      RatMatrix.Reduced A L' R' j ∧ L' j j ≠ 0 := by
  by_cases hi : i = j
  · subst hi
    rw [if_pos rfl]
    exact ⟨L, R, ht, hred, hne⟩
  · rw [if_neg hi]
    refine ⟨_, _, ht.swapRows j i, hred.swap hji, ?_⟩
    rw [Matrix.submatrix_apply, Equiv.swap_apply_left]
    exact hne

theorem reduceColumn_eliminates (hr : run.Settled V.contract)
    (ht : t.Stands V A j run.pass.graph)
    (hpivot : ∀ i, t.pivot? run.pass.graph j = some i →
      ¬ V.Has run.pass.graph (t.left.get i j) 0) :
    Eliminates V.contract (Stops V.contract.Fails A) (reduceColumn library depth t j) run
      fun t' g' => t'.Stands V A (j + 1) g' := by
  obtain ⟨L, R, ht, hred⟩ := ht
  have hE : ∀ e g, V.contract.Fails e g → Stops V.contract.Fails A e g := fun _ _ => Or.inr
  apply Eliminates.get
  cases hp : t.pivot? run.pass.graph j with
  | none =>
    apply Eliminates.throw
    left
    exact ⟨j, rfl, hred.isLeast_dependent fun i => pivot?_eq_none ht hp⟩
  | some i =>
    have hne : L i j ≠ 0 := fun h0 => hpivot i hp (h0 ▸ ht.left i j)
    obtain ⟨L', R', ht', hred', hne'⟩ := Stands.move ht hred (pivot?_eq_some hp).1 hne
    apply (normalize_eliminates hE hr ht' hne').bind
    intro t₁ run₁ hr₁ _ ht₁
    have hstart : t₁.Clears V A j [] run₁.pass.graph := ⟨_, _, ht₁, hred'.cleared hne'⟩
    have hclear : Eliminates V.contract (Stops V.contract.Fails A)
        ((List.finRange n).foldlM (clear library depth j) t₁) run₁
        (Clears V A j (List.finRange n)) := by
      refine Eliminates.foldlM (I := Clears V A j) ?_ hr₁ hstart
      intro done i rest t₂ run₂ _ _ hr₂ _ ht₂
      exact clear_eliminates hE hr₂ ht₂
    apply hclear.mono
    rintro t₂ g₂ _ ⟨L₂, R₂, ht₂, hc⟩
    exact ⟨L₂, R₂, ht₂, hc.next⟩

/-- The elimination that starts from `t₀` takes the node `x` of the graph `g` for a pivot. -/
def UsesPivot (library : Library) (depth : Nat) (t₀ : Tableau n) (run : Run Journal) (g : Graph)
    (x : NodeId) : Prop :=
  ∃ (j : Fin n) (t : Tableau n) (run' : Run Journal) (i : Fin n),
    ((List.finRange n).take j).foldlM (reduceColumn library depth) t₀ run = .ok t run' ∧
      t.pivot? run'.pass.graph j = some i ∧ g = run'.pass.graph ∧ x = t.left.get i j

theorem UsesPivot.hasValue_eq_false {x : NodeId} (h : UsesPivot library depth t₀ run g x) :
    g.hasValue 0 x = false := by
  obtain ⟨j, t, run', i, -, hi, rfl, rfl⟩ := h
  exact (pivot?_eq_some hi).2

theorem reduceColumns_eliminates (hr : run.Settled V.contract)
    (ht : t₀.Stands V A 0 run.pass.graph)
    (hpivot : ∀ g x, UsesPivot library depth t₀ run g x → ¬ V.Has g x 0) :
    Eliminates V.contract (Stops V.contract.Fails A)
      ((List.finRange n).foldlM (reduceColumn library depth) t₀) run (Stands V A n) := by
  have hfold : Eliminates V.contract (Stops V.contract.Fails A)
      ((List.finRange n).foldlM (reduceColumn library depth) t₀) run
      (Stands V A (List.finRange n).length) := by
    refine Eliminates.foldlM (I := fun (done : List (Fin n)) => Stands V A done.length) ?_ hr ht
    intro done j rest t run' hsplit hdone hr' _ ht'
    have hj : done.length = j := by
      have hget : (List.finRange n)[done.length]? = some j := by
        rw [hsplit, List.getElem?_append_right (le_refl _), Nat.sub_self]
        rfl
      obtain ⟨hlt, hval⟩ := List.getElem?_eq_some_iff.1 hget
      rw [List.getElem_finRange] at hval
      exact congrArg Fin.val hval
    have htake : (List.finRange n).take j = done := by
      rw [hsplit, ← hj, List.take_left']
      rfl
    rw [hj] at ht'
    rw [List.length_append, List.length_singleton, hj]
    apply reduceColumn_eliminates hr' ht'
    intro i hi
    exact hpivot _ _ ⟨j, t, run', i, htake ▸ hdone, hi, rfl, rfl⟩
  rwa [List.length_finRange] at hfold

end Tableau

/-! ### Inversion -/

theorem identityGrid_represents (V : Valuation library depth) (hr : run.Settled V.contract) :
    Eliminates V.contract V.contract.Fails (Run.build (identityGrid n)) run fun b g' =>
      b.Represents V g' (1 : RatMatrix n) := by
  apply (Eliminates.build (E := Overflow) hr _).weaken fun _ _ => V.fails_overflow
  apply (V.constant 0 hr.wellFormed).bind
  intro o g₁ hg₁ _ ho
  apply (V.constant 1 hg₁).bind
  intro e g₂ hg₂ hx₂ he
  apply Graph.Meets.pure hg₂
  intro i j
  rw [Grid.get_ofFn, Matrix.one_apply]
  by_cases hij : i = j
  · rw [if_pos hij, if_pos hij]
    exact he
  · rw [if_neg hij, if_neg hij]
    exact V.has_extends hg₁ hx₂ ho

/--
Inversion gives the inverse, unless it stops at the first column that depends on those before it.
No pivot that is used may have the value zero.
-/
theorem invertGrid_eliminates (hr : run.Settled V.contract) {a : Grid n n NodeId} {A : RatMatrix n}
    (ha : a.Represents V run.pass.graph A)
    (hpivot : ∀ b run', Run.build (identityGrid n) run = .ok b run' →
      ∀ g x, Tableau.UsesPivot library depth ⟨a, b⟩ run' g x → ¬ V.Has g x 0) :
    Eliminates V.contract (Stops V.contract.Fails A) (invertGrid library depth a) run fun b g' =>
      ∃ B, b.Represents V g' B ∧ A * B = 1 ∧ B * A = 1 := by
  apply ((identityGrid_represents V hr).weaken fun _ _ => Or.inr).bind_of_eq
  intro b run₁ hb₁ hr₁ hx₁ hb
  have hstart : Tableau.Stands V A 0 ⟨a, b⟩ run₁.pass.graph :=
    ⟨A, 1, ⟨ha.frame hr.wellFormed hx₁, hb⟩, .start A⟩
  apply (Tableau.reduceColumns_eliminates hr₁ hstart (hpivot b run₁ hb₁)).bind
  rintro t run₂ hr₂ _ ⟨L, R, ht, hred⟩
  exact .pure hr₂ ⟨R, ht.right, hred.inverse⟩

end ExactAlgebra
