import ExactAlgebra.Proofs.Graph.Mirror
import ExactAlgebra.Proofs.Transform.Replay

/-!
Transformations in two graphs side by side. If the rules for twins ask for twins and lead to twins,
so does a whole run: the memos of the two runs have marks for twins only, and the same ones.
-/

namespace ExactAlgebra

open ExactAlgebra.Graph (Facing Mirrored Mirrors MirrorsNodes Overflow Persistent Twins Vocabulary)

variable {α β γ δ τ τ' : Type} {V W : Vocabulary} {g g' t t' g₀ t₀ : Graph} {x x' y y' : NodeId}
variable {xs ys : List NodeId} {depth depth' : Nat} {Q Q' : α → β → Graph → Graph → Prop}
variable {R : γ → δ → Graph → Graph → Prop}

/-! ### Steps -/

/-- Two steps, from `g` and from `t`, ask for twins, and end in the same way as long as the answers
are twins, unless one of the graphs is full. -/
inductive Step.Mirrors (V W : Vocabulary) (Q : α → β → Graph → Graph → Prop) :
    Graph → Graph → Step (Pass τ) α → Step (Pass τ') β → Prop
  | full {g t : Graph} {p : Pass τ} {r : Step (Pass τ') β} (h : Graph.capacity ≤ p.graph.size) :
      Mirrors V W Q g t (.done (.error .graphFull p)) r
  | full' {g t : Graph} {r : Step (Pass τ) α} {q : Pass τ'} (h : Graph.capacity ≤ q.graph.size) :
      Mirrors V W Q g t r (.done (.error .graphFull q))
  | error {g t : Graph} {e : Error} {p : Pass τ} {q : Pass τ'} :
      Mirrors V W Q g t (.done (.error e p)) (.done (.error e q))
  | ok {g t : Graph} {a : α} {b : β} {p : Pass τ} {q : Pass τ'}
      (h : Facing V W p.graph q.graph) (hx : g.Extends p.graph) (hy : t.Extends q.graph)
      (hQ : Q a b p.graph q.graph) : Mirrors V W Q g t (.done (.ok a p)) (.done (.ok b q))
  | ask {g t : Graph} {x y : NodeId} {p : Pass τ} {q : Pass τ'}
      {resume : NodeId → Pass τ → Step (Pass τ) α} {resume' : NodeId → Pass τ' → Step (Pass τ') β}
      (h : Facing V W p.graph q.graph) (hx : g.Extends p.graph) (hy : t.Extends q.graph)
      (hxy : Twins V W p.graph q.graph x y)
      (hr : ∀ x' y' (p' : Pass τ) (q' : Pass τ'), Facing V W p'.graph q'.graph →
        p.graph.Extends p'.graph → q.graph.Extends q'.graph → Twins V W p'.graph q'.graph x' y' →
        Mirrors V W Q p'.graph q'.graph (resume x' p') (resume' y' q')) :
      Mirrors V W Q g t (.ask x p resume) (.ask y q resume')

namespace Step.Mirrors

variable {p : Step (Pass τ) α} {q : Step (Pass τ') β}

theorem frame (h : Step.Mirrors V W Q g' t' p q) (hx : g.Extends g') (hy : t.Extends t') :
    Step.Mirrors V W Q g t p q := by
  cases h with
  | full h => exact .full h
  | full' h => exact .full' h
  | error => exact .error
  | ok h hx' hy' hQ => exact .ok h (hx.trans hx') (hy.trans hy') hQ
  | ask h hx' hy' hxy hr => exact .ask h (hx.trans hx') (hy.trans hy') hxy hr

theorem bind {k : α → Pass τ → Step (Pass τ) γ} {k' : β → Pass τ' → Step (Pass τ') δ}
    (h : Step.Mirrors V W Q g t p q)
    (hk : ∀ a b (p : Pass τ) (q : Pass τ'), Facing V W p.graph q.graph → g.Extends p.graph →
      t.Extends q.graph → Q a b p.graph q.graph →
      Step.Mirrors V W R p.graph q.graph (k a p) (k' b q)) :
    Step.Mirrors V W R g t (p.bind k) (q.bind k') := by
  induction h with
  | full h => exact .full h
  | full' h => exact .full' h
  | error => exact .error
  | ok h hx hy hQ => exact (hk _ _ _ _ h hx hy hQ).frame hx hy
  | ask h hx hy hxy _ ih =>
    refine .ask h hx hy hxy fun x' y' p' q' h' hx' hy' hxy' => ih x' y' p' q' h' hx' hy' hxy' ?_
    exact fun a b p'' q'' h'' hx'' hy'' =>
      hk a b p'' q'' h'' ((hx.trans hx').trans hx'') ((hy.trans hy').trans hy'')

end Step.Mirrors

namespace Dialogue

/-- Two computations go through the same questions side by side, whatever was logged before. -/
def Mirrors (V W : Vocabulary) (m : Dialogue (Pass τ) α) (m' : Dialogue (Pass τ') β) (g t : Graph)
    (Q : α → β → Graph → Graph → Prop) : Prop :=
  ∀ log log', Step.Mirrors V W Q g t (m ⟨g, log⟩) (m' ⟨t, log'⟩)

namespace Mirrors

theorem pure {a : α} {b : β} (h : Facing V W g t) (hQ : Q a b g t) :
    Mirrors V W (Pure.pure a : Dialogue (Pass τ) α) (Pure.pure b : Dialogue (Pass τ') β) g t Q :=
  fun _ _ => .ok h (.refl g) (.refl t) hQ

theorem bind {m : Dialogue (Pass τ) α} {m' : Dialogue (Pass τ') β} {f : α → Dialogue (Pass τ) γ}
    {f' : β → Dialogue (Pass τ') δ} (hm : Mirrors V W m m' g t Q)
    (hf : ∀ a b g' t', Facing V W g' t' → g.Extends g' → t.Extends t' → Q a b g' t' →
      Mirrors V W (f a) (f' b) g' t' R) :
    Mirrors V W (m >>= f) (m' >>= f') g t R :=
  fun log log' => (hm log log').bind fun a b p q h hx hy hQ =>
    hf a b p.graph q.graph h hx hy hQ p.log q.log

theorem ite {c c' : Prop} [Decidable c] [Decidable c'] {m n : Dialogue (Pass τ) α}
    {m' n' : Dialogue (Pass τ') β} (hc : c ↔ c') (h : c → Mirrors V W m m' g t Q)
    (h' : ¬ c → Mirrors V W n n' g t Q) :
    Mirrors V W (if c then m else n) (if c' then m' else n') g t Q := by
  by_cases hyes : c
  · rw [if_pos hyes, if_pos (hc.1 hyes)]
    exact h hyes
  · rw [if_neg hyes, if_neg (hc.not.1 hyes)]
    exact h' hyes

theorem ask (h : Facing V W g t) (hxy : Twins V W g t x y) :
    Mirrors V W (ask x : Dialogue (Pass τ) NodeId) (ask y : Dialogue (Pass τ') NodeId) g t
      fun x' y' g' t' => Twins V W g' t' x' y' :=
  fun _ _ => .ask h (.refl g) (.refl t) hxy fun _ _ p q h' _ _ hxy' =>
    .ok h' (.refl p.graph) (.refl q.graph) hxy'

theorem build {m : Build α} {m' : Build β} (hm : Graph.Mirrors V W m m' g t Q) :
    Mirrors V W (build m : Dialogue (Pass τ) α) (build m' : Dialogue (Pass τ') β) g t Q := by
  intro log log'
  unfold Graph.Mirrors at hm
  simp only [Dialogue.build]
  generalize m g = r at hm ⊢
  generalize m' t = r' at hm ⊢
  cases hm with
  | @full g' _ h => exact .full (p := ⟨g', log⟩) h
  | @full' _ t' h => exact .full' (q := ⟨t', log'⟩) h
  | error => exact .error
  | @ok a b g' t' h hx hy hQ => exact .ok (p := ⟨g', log⟩) (q := ⟨t', log'⟩) h hx hy hQ

theorem graph {f : Graph → Dialogue (Pass τ) γ} {f' : Graph → Dialogue (Pass τ') δ}
    (h : Mirrors V W (f g) (f' t) g t R) :
    Mirrors V W (Dialogue.graph >>= f) (Dialogue.graph >>= f') g t R := h

/-- The nodes of two lists are asked for one after another. -/
theorem askAll (h : Facing V W g t) (hxs : List.Forall₂ (Twins V W g t) xs ys) :
    Mirrors V W (askAll xs : Dialogue (Pass τ) (List NodeId))
      (askAll ys : Dialogue (Pass τ') (List NodeId)) g t
      fun xs' ys' g' t' => List.Forall₂ (Twins V W g' t') xs' ys' := by
  induction xs generalizing g t ys with
  | nil =>
    cases hxs
    exact .pure h .nil
  | cons x xs ih =>
    cases hxs with
    | cons hx hxs =>
      apply (ask h hx).bind
      intro z w g' t' h' hx' hy' hzw
      have hxs' := (Graph.persistent_twins V W).forall₂ h h' hx' hy' hxs
      apply (ih h' hxs').bind
      intro zs ws g'' t'' h'' hx'' hy'' hzws
      exact .pure h'' (.cons (hzw.grow h' h'' hx'' hy'') hzws)

/-- Twins are built anew from their transformed operands, or both are left as they are. -/
theorem operands (h : Facing V W g t) (hxy : Twins V W g t x y) :
    Mirrors V W (Dialogue.operands x : Dialogue (Pass τ) NodeId)
      (Dialogue.operands y : Dialogue (Pass τ') NodeId) g t
      fun x' y' g' t' => Twins V W g' t' x' y' := by
  have hops := hxy.operands h
  apply Mirrors.graph
  apply (askAll h hops).bind
  intro xs ys g' t' h' hx hy hxs
  have hxy' := hxy.grow h h' hx hy
  have hops' := (Graph.persistent_twins V W).forall₂ h h' hx hy hops
  apply Mirrors.ite
  · exact Relator.rel_eq (Relator.BiUnique.forall₂ (Twins.biUnique h')) hxs hops'
  · exact fun _ => .pure h' hxy'
  · exact fun _ => .build (Graph.withOperands_mirrors h' hxy' hxs)

end Mirrors

end Dialogue

/-! ### Memos -/

/-- Two nodes are being transformed, or have been transformed to twins. -/
inductive Mark.Twins (V W : Vocabulary) (g t : Graph) : Mark → Mark → Prop
  | inProgress : Mark.Twins V W g t .inProgress .inProgress
  | finished {x y : NodeId} (h : Graph.Twins V W g t x y) :
      Mark.Twins V W g t (.finished x) (.finished y)

/-- Two memos have marks for twins only, and the same ones. -/
structure Memo.Matches (V W : Vocabulary) (g t : Graph) (m m' : Memo) : Prop where
  left : ∀ x, m.mark? x ≠ none → ∃ y, Twins V W g t x y
  right : ∀ y, m'.mark? y ≠ none → ∃ x, Twins V W g t x y
  marks : ∀ x y, Twins V W g t x y → Option.Rel (Mark.Twins V W g t) (m.mark? x) (m'.mark? y)

namespace Memo.Matches

variable {m m' n n' : Memo}

theorem empty (V W : Vocabulary) (g t : Graph) : Memo.Matches V W g t {} {} := by
  have hnone : ∀ x, ({} : Memo).mark? x = none := fun x => by simp [Memo.mark?]
  refine ⟨fun x hx => absurd (hnone x) hx, fun y hy => absurd (hnone y) hy, fun x y _ => ?_⟩
  rw [hnone, hnone]
  exact .none

theorem grow (h : Memo.Matches V W g t m m') (hgt : Facing V W g t) (hgt' : Facing V W g' t')
    (hx : g.Extends g') (hy : t.Extends t') : Memo.Matches V W g' t' m m' := by
  have hgrow : ∀ {x y}, Twins V W g t x y → Twins V W g' t' x y :=
    fun h => h.grow hgt hgt' hx hy
  have hmarks : ∀ {x y}, Twins V W g t x y →
      Option.Rel (Mark.Twins V W g' t') (m.mark? x) (m'.mark? y) := by
    intro x y hxy
    have hrel := h.marks x y hxy
    generalize m.mark? x = o at hrel
    generalize m'.mark? y = o' at hrel
    cases hrel with
    | none => exact .none
    | some hmark =>
      cases hmark with
      | inProgress => exact .some .inProgress
      | finished h => exact .some (.finished (hgrow h))
  refine ⟨fun x hx => ?_, fun y hy => ?_, fun x y hxy => ?_⟩
  · obtain ⟨y, hxy⟩ := h.left x hx
    exact ⟨y, hgrow hxy⟩
  · obtain ⟨x, hxy⟩ := h.right y hy
    exact ⟨x, hgrow hxy⟩
  -- A marked node had a twin before, which is still its only one.
  by_cases hmx : m.mark? x = none
  · by_cases hmy : m'.mark? y = none
    · rw [hmx, hmy]
      exact .none
    · obtain ⟨x', hxy'⟩ := h.right y hmy
      obtain rfl := Twins.leftUnique hgt' hxy (hgrow hxy')
      exact hmarks hxy'
  · obtain ⟨y', hxy'⟩ := h.left x hmx
    obtain rfl := Twins.rightUnique hgt' hxy (hgrow hxy')
    exact hmarks hxy'

/-- Twins are marked alike. -/
theorem update (h : Memo.Matches V W g t m m') (hgt : Facing V W g t) (hxy : Twins V W g t x y)
    {o o' : Option Mark} (ho : Option.Rel (Mark.Twins V W g t) o o')
    (hn : ∀ i, n.mark? i = if x = i then o else m.mark? i)
    (hn' : ∀ i, n'.mark? i = if y = i then o' else m'.mark? i) : Memo.Matches V W g t n n' := by
  refine ⟨fun i hi => ?_, fun i hi => ?_, fun i j hij => ?_⟩
  · by_cases he : x = i
    · exact ⟨y, he ▸ hxy⟩
    · rw [hn, if_neg he] at hi
      exact h.left i hi
  · by_cases he : y = i
    · exact ⟨x, he ▸ hxy⟩
    · rw [hn', if_neg he] at hi
      exact h.right i hi
  · have hiff := hxy.eq_iff hij hgt
    rw [hn, hn']
    by_cases he : x = i
    · rw [if_pos he, if_pos (hiff.1 he)]
      exact ho
    · rw [if_neg he, if_neg (hiff.not.1 he)]
      exact h.marks i j hij

theorem enter (h : Memo.Matches V W g t m m') (hgt : Facing V W g t) (hxy : Twins V W g t x y) :
    Memo.Matches V W g t (m.enter x) (m'.enter y) :=
  h.update hgt hxy (.some .inProgress) (m.mark?_enter x) (m'.mark?_enter y)

theorem store (h : Memo.Matches V W g t m m') (hgt : Facing V W g t) (hxy : Twins V W g t x y)
    (hxy' : Twins V W g t x' y') : Memo.Matches V W g t (m.store x x') (m'.store y y') :=
  h.update hgt hxy (.some (.finished hxy')) (m.mark?_store x x') (m'.mark?_store y y')

end Memo.Matches

/-! ### Runs -/

/-- Two runs, from `g` and from `t`, have ended in the same way, unless one of them has failed as
`E` says. -/
inductive Run.Mirrored (E : Error → Graph → Prop) (V W : Vocabulary) (g t : Graph)
    (Q : α → β → Graph → Graph → Prop) :
    EStateM.Result Error (Run τ) α → EStateM.Result Error (Run τ') β → Prop
  | fails {e : Error} {run : Run τ} {r : EStateM.Result Error (Run τ') β}
      (h : E e run.pass.graph) : Run.Mirrored E V W g t Q (.error e run) r
  | fails' {r : EStateM.Result Error (Run τ) α} {e : Error} {run : Run τ'}
      (h : E e run.pass.graph) : Run.Mirrored E V W g t Q r (.error e run)
  | error {e : Error} {run : Run τ} {run' : Run τ'} :
      Run.Mirrored E V W g t Q (.error e run) (.error e run')
  | ok {a : α} {b : β} {run : Run τ} {run' : Run τ'}
      (h : Facing V W run.pass.graph run'.pass.graph) (hx : g.Extends run.pass.graph)
      (hy : t.Extends run'.pass.graph)
      (hm : Memo.Matches V W run.pass.graph run'.pass.graph run.memo run'.memo)
      (hQ : Q a b run.pass.graph run'.pass.graph) :
      Run.Mirrored E V W g t Q (.ok a run) (.ok b run')

variable {E : Error → Graph → Prop}

theorem Run.Mirrored.frame {r : EStateM.Result Error (Run τ) α}
    {r' : EStateM.Result Error (Run τ') β} (h : Run.Mirrored E V W g' t' Q r r')
    (hx : g.Extends g') (hy : t.Extends t') : Run.Mirrored E V W g t Q r r' := by
  cases h with
  | fails h => exact .fails h
  | fails' h => exact .fails' h
  | error => exact .error
  | ok h hx' hy' hm hQ => exact .ok h (hx.trans hx') (hy.trans hy') hm hQ

/-- Answers to twins that were there from `g₀` and `t₀` on are given side by side. -/
def Mirroring (E : Error → Graph → Prop) (V W : Vocabulary) (g₀ t₀ : Graph)
    (answer : NodeId → EStateM Error (Run τ) NodeId)
    (answer' : NodeId → EStateM Error (Run τ') NodeId) : Prop :=
  ∀ ⦃x y g t m m'⦄ log log', Facing V W g t → g₀.Extends g → t₀.Extends t →
    Memo.Matches V W g t m m' → Twins V W g t x y →
    Run.Mirrored E V W g t (fun x y g t => Twins V W g t x y) (answer x ⟨m, ⟨g, log⟩⟩)
      (answer' y ⟨m', ⟨t, log'⟩⟩)

theorem Step.Mirrors.run {p : Step (Pass τ) α} {q : Step (Pass τ') β} {m m' : Memo}
    {answer : NodeId → EStateM Error (Run τ) NodeId}
    {answer' : NodeId → EStateM Error (Run τ') NodeId} (h : Step.Mirrors V W Q g t p q)
    (hE : ∀ e g, Overflow e g → E e g) (ha : Mirroring E V W g₀ t₀ answer answer')
    (hgt : Facing V W g t) (hg₀ : g₀.Extends g) (ht₀ : t₀.Extends t)
    (hm : Memo.Matches V W g t m m') :
    Run.Mirrored E V W g t Q (p.run answer m) (q.run answer' m') := by
  induction h generalizing m m' with
  | full h => exact .fails (hE _ _ ⟨rfl, h⟩)
  | full' h => exact .fails' (hE _ _ ⟨rfl, h⟩)
  | error => exact .error
  | ok h hx hy hQ => exact .ok h hx hy (hm.grow hgt h hx hy) hQ
  | @ask g t x y p q resume resume' h hx hy hxy hr ih =>
    have hans := ha p.log q.log h (hg₀.trans hx) (ht₀.trans hy) (hm.grow hgt h hx hy) hxy
    simp only [Step.run]
    generalize answer x ⟨m, p⟩ = r at hans
    generalize answer' y ⟨m', q⟩ = r' at hans
    cases hans with
    | fails h => exact .fails h
    | fails' h =>
      cases r with
      | ok a run => exact .fails' h
      | error e run => exact .fails' h
    | error => exact .error
    | @ok x' y' run run' h' hx' hy' hm' hxy' =>
      have hrest := ih x' y' run.pass run'.pass h' hx' hy' hxy' h' ((hg₀.trans hx).trans hx')
        ((ht₀.trans hy).trans hy') hm'
      exact hrest.frame (hx.trans hx') (hy.trans hy')

theorem Run.Mirrored.settle {r : EStateM.Result Error (Run τ) (Option NodeId)}
    {r' : EStateM.Result Error (Run τ') (Option NodeId)}
    (h : Run.Mirrored E V W g t (fun o o' g' t' => Option.Rel (Twins V W g' t') o o') r r')
    (hgt : Facing V W g t) (hxy : Twins V W g t x y) :
    Run.Mirrored E V W g t (fun x y g t => Twins V W g t x y) (settle x r) (settle y r') := by
  cases h with
  | @fails e run r h =>
    have hrun : E e (Run.mk (run.memo.release x) run.pass).pass.graph := h
    exact .fails hrun
  | @fails' r e run h =>
    have hrun : E e (Run.mk (run.memo.release y) run.pass).pass.graph := h
    exact .fails' hrun
  | error => exact .error
  | @ok o o' run run' h hx hy hm ho =>
    cases ho with
    | none => exact .error
    | @some z w hzw =>
      have hz : run.pass.graph.contains z = true := decide_eq_true hzw.left.lt_size
      have hw : run'.pass.graph.contains w = true := decide_eq_true hzw.right.lt_size
      rw [ExactAlgebra.settle, ExactAlgebra.settle, if_pos hz, if_pos hw]
      exact .ok h hx hy (hm.store h (hxy.grow hgt h hx hy) hzw) hzw

/-- Rules that mirror one another lead to runs that do, with equal depths or where it does not count
when the depth is exhausted. -/
theorem Rules.mirroring {rules : Rules τ} {rules' : Rules τ'}
    (hcycle : ∀ x, rules.onCycle x = pure x) (hcycle' : ∀ x, rules'.onCycle x = pure x)
    (hE : ∀ e g, Overflow e g → E e g)
    (hrules : ∀ x y g t, Facing V W g t → g₀.Extends g → t₀.Extends t → Twins V W g t x y →
      Dialogue.Mirrors V W (rules.transform x) (rules'.transform y) g t fun o o' g' t' =>
        Option.Rel (Twins V W g' t') o o')
    (hdepth : depth = depth' ∨ ∀ g, E .depthExhausted g) :
    Mirroring E V W g₀ t₀ (rules.apply depth) (rules'.apply depth') := by
  induction depth generalizing depth' with
  | zero =>
    intro x y g t m m' _ _ hgt hg₀ ht₀ hm hxy
    rcases hdepth with rfl | hE'
    · exact .error
    · exact .fails (hE' g)
  | succ depth ih =>
    intro x y g t m m' log log' hgt hg₀ ht₀ hm hxy
    cases depth' with
    | zero =>
      rcases hdepth with h | hE'
      · cases h
      · exact .fails' (hE' t)
    | succ depth' =>
      have hx : g.contains x = true := decide_eq_true hxy.left.lt_size
      have hy : t.contains y = true := decide_eq_true hxy.right.lt_size
      simp only [Rules.apply, hx, hy, Bool.not_true, Bool.false_eq_true, if_false]
      have hmarks := hm.marks x y hxy
      generalize m.mark? x = o at hmarks
      generalize m'.mark? y = o' at hmarks
      cases hmarks with
      | none =>
        have hstep := (hrules x y g t hgt hg₀ ht₀ hxy log log').run hE
          (ih (hdepth.imp_left Nat.succ.inj)) hgt hg₀ ht₀ (hm.enter hgt hxy)
        exact hstep.settle hgt hxy
      | some hmark =>
        cases hmark with
        | finished hxy' => exact .ok hgt (.refl g) (.refl t) hm hxy'
        | inProgress =>
          simp only [hcycle, hcycle']
          exact .ok hgt (.refl g) (.refl t) hm hxy

/-! ### Substitutions -/

namespace Substitution

variable {s s' : Substitution}

/-- The pairs of two substitutions are twins. -/
def Matches (V W : Vocabulary) (g t : Graph) (s s' : Substitution) : Prop :=
  List.Forall₂ (fun p q => Twins V W g t p.1 q.1 ∧ Twins V W g t p.2 q.2) s s'

theorem Matches.grow (h : s.Matches V W g t s') (hgt : Facing V W g t) (hgt' : Facing V W g' t')
    (hx : g.Extends g') (hy : t.Extends t') : s.Matches V W g' t' s' :=
  h.imp fun _ _ h => ⟨h.1.grow hgt hgt' hx hy, h.2.grow hgt hgt' hx hy⟩

theorem Matches.right (h : s.Matches V W g t s') : s'.Elementary W t := by
  intro q hq
  obtain ⟨p, -, hpq⟩ := Graph.exists_of_forall₂ h hq
  exact hpq.2.right

theorem Matches.left (h : s.Matches V W g t s') : s.Elementary V g := by
  intro p hp
  obtain ⟨q, -, hpq⟩ := Graph.exists_of_forall₂ h.flip hp
  exact hpq.2.left

theorem Matches.value? (h : s.Matches V W g t s') (hgt : Facing V W g t)
    (hxy : Twins V W g t x y) : Option.Rel (Twins V W g t) (s.value? x) (s'.value? y) := by
  have hlookup : ∀ {ps qs : Substitution}, ps.Matches V W g t qs →
      Option.Rel (Twins V W g t) (ps.lookup x) (qs.lookup y) := by
    intro ps qs h
    induction h with
    | nil => exact .none
    | @cons p q _ _ hpq _ ih =>
      have hiff := hxy.eq_iff hpq.1 hgt
      rw [List.lookup_cons, List.lookup_cons]
      by_cases he : x = p.1
      · rw [beq_iff_eq.2 he, beq_iff_eq.2 (hiff.1 he)]
        exact .some hpq.2
      · rw [beq_eq_false_iff_ne.2 he, beq_eq_false_iff_ne.2 (hiff.not.1 he)]
        exact ih
  exact hlookup (List.rel_reverse h)

theorem transform_mirrors (hgt : Facing V W g t) (hs : s.Matches V W g t s')
    (hxy : Twins V W g t x y) :
    Dialogue.Mirrors V W (s.rules.transform x) (s'.rules.transform y) g t fun o o' g' t' =>
      Option.Rel (Twins V W g' t') o o' := by
  have hoperands : Dialogue.Mirrors V W
      (do return some (← Dialogue.operands x) : Dialogue (Pass Unit) (Option NodeId))
      (do return some (← Dialogue.operands y) : Dialogue (Pass Unit) (Option NodeId)) g t
      fun o o' g' t' => Option.Rel (Twins V W g' t') o o' :=
    (Dialogue.Mirrors.operands hgt hxy).bind fun _ _ _ _ h _ _ hxy' => .pure h (.some hxy')
  simp only [rules]
  have hvalue := hs.value? hgt hxy
  generalize s.value? x = o at hvalue
  generalize s'.value? y = o' at hvalue
  cases hvalue with
  | some h => exact .pure hgt (.some h)
  | none =>
    apply Dialogue.Mirrors.graph
    rw [hxy.shape_eq hgt]
    cases t.shape y with
    | constant | symbol => exact .pure hgt (.some hxy)
    | _ => exact hoperands

end Substitution

namespace Graph

variable {s s' : Substitution}

/-- How deep substitutions may go in two graphs does not show in their results. -/
theorem substitute_mirrors (hgt : Facing V W g t) (hs : s.Matches V W g t s')
    (hxy : Twins V W g t x y) : MirrorsNodes V W (substitute s x) (substitute s' y) g t := by
  have hroom := substitute_elementary hgt.left.wellFormed hs.left hxy.left
  have hroom' := substitute_elementary hgt.right.wellFormed hs.right hxy.right
  have hanswers : Mirroring (fun e g => Overflow e g ∨ e = .depthExhausted) V W g t
      (s.rules.apply g.substitutionDepth) (s'.rules.apply t.substitutionDepth) :=
    Rules.mirroring (fun _ => rfl) (fun _ => rfl) (fun _ _ => .inl)
      (fun _ _ _ _ h hx hy hxy => Substitution.transform_mirrors h (hs.grow hgt h hx hy) hxy)
      (.inr fun _ => .inr rfl)
  have hrun := hanswers () () hgt (.refl g) (.refl t) (.empty V W g t) hxy
  by_cases hnil : s.isEmpty
  · obtain rfl := List.isEmpty_iff.1 hnil
    cases hs
    exact .pure hgt hxy
  have hnil' : ¬ s'.isEmpty := by
    rw [List.isEmpty_iff_length_eq_zero, ← hs.length_eq, ← List.isEmpty_iff_length_eq_zero]
    exact hnil
  unfold Meets at hroom hroom'
  unfold MirrorsNodes Mirrors
  rw [substitute, if_neg hnil] at hroom ⊢
  rw [substitute, if_neg hnil'] at hroom' ⊢
  generalize s.rules.apply g.substitutionDepth x ⟨{}, ⟨g, ()⟩⟩ = r at hrun hroom ⊢
  generalize s'.rules.apply t.substitutionDepth y ⟨{}, ⟨t, ()⟩⟩ = r' at hrun hroom' ⊢
  cases hrun with
  | @fails e run r' h =>
    obtain ⟨-, -, rfl, hfull⟩ := hroom
    exact .full hfull
  | @fails' r e run h =>
    obtain ⟨-, -, rfl, hfull⟩ := hroom'
    exact .full' hfull
  | error => exact .error
  | ok h hx hy _ hxy => exact .ok h hx hy hxy

theorem arrowPair_mirrors (hgt : Facing V W g t) (hxy : Twins V W g t x y) :
    Mirrors V W (arrowPair x) (arrowPair y) g t fun p q g' t' =>
      Twins V W g' t' p.1 q.1 ∧ Twins V W g' t' p.2 q.2 := by
  have hops := hxy.operands hgt
  apply Mirrors.get
  rw [hxy.shape_eq hgt]
  generalize g.operands x = xs at hops
  generalize t.operands y = ys at hops
  cases t.shape y with
  | arrow =>
    cases hops with
    | nil => exact .throw _
    | cons h hops =>
      cases hops with
      | nil => exact .throw _
      | cons h' hops =>
        cases hops with
        | nil => exact .pure hgt ⟨h, h'⟩
        | cons _ _ => exact .throw _
  | _ => exact .throw _

theorem arrowPairs_mirrors (hgt : Facing V W g t) (hxy : Twins V W g t x y) :
    Mirrors V W (arrowPairs x) (arrowPairs y) g t fun s s' g' t' =>
      Substitution.Matches V W g' t' s s' := by
  have hpair : Persistent V W fun (p q : NodeId × NodeId) g t =>
      Twins V W g t p.1 q.1 ∧ Twins V W g t p.2 q.2 :=
    fun _ _ _ _ _ _ h h' hx hy hpq => ⟨hpq.1.grow h h' hx hy, hpq.2.grow h h' hx hy⟩
  have hsingle : Mirrors V W (do return [← arrowPair x]) (do return [← arrowPair y]) g t
      fun s s' g' t' => Substitution.Matches V W g' t' s s' :=
    (arrowPair_mirrors hgt hxy).bind fun _ _ _ _ h _ _ hpq => .pure h (.cons hpq .nil)
  apply Mirrors.get
  rw [hxy.shape_eq hgt]
  cases t.shape y with
  | set =>
    exact Mirrors.mapM (persistent_twins V W) hpair
      (fun h hxy => arrowPair_mirrors h hxy) hgt (hxy.operands hgt)
  | _ => exact hsingle

end Graph

end ExactAlgebra
