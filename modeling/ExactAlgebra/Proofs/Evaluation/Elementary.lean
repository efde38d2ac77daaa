import ExactAlgebra.Proofs.Collection.Replay
import ExactAlgebra.Proofs.Evaluation.Power
import ExactAlgebra.Proofs.Transform.Replay

/-!
The rules of evaluation on elementary expressions whose calls go to functions of rationals: two runs
of a rule go through the same questions, and what they build is elementary again.
-/

namespace ExactAlgebra

open ExactAlgebra.Graph (Vocabulary Replays)

/-- A function of rationals. -/
def Library.IsReal (library : Library) (f : Callee) : Prop :=
  ∃ arity apply, library f = .real arity apply

namespace Evaluation

variable {library : Library} {V : Vocabulary} {t? : Option Graph} {g : Graph} {x y l r : NodeId}
variable {xs : List NodeId} {f : Callee}

/-! ### Constructions -/

theorem arrowPair_replays (hg : g.WellFormed) (hx : g.Elementary V x) :
    Replays V (Graph.arrowPair x) g fun p g' => g'.Elementary V p.1 ∧ g'.Elementary V p.2 := by
  apply Replays.get
  · intro t _ hr
    rw [(hr.agree hg).shape_eq hx, (hr.agree hg).operands_eq hx]
  · split
    · next hops =>
      have hops' := hx.operands
      rw [hops] at hops'
      exact .pure hg ⟨hops' _ (by simp), hops' _ (by simp)⟩
    · exact .throw hg
    · exact .throw hg

theorem arrowPairs_replays (hg : g.WellFormed) (hx : g.Elementary V x) :
    Replays V (Graph.arrowPairs x) g fun s g' => s.Elementary V g' := by
  apply Replays.get
  · intro t _ hr
    rw [(hr.agree hg).shape_eq hx, (hr.agree hg).operands_eq hx]
  · split
    · exact Replays.mapM (P := Graph.Elementary V) (I := fun g p => g.Elementary V p.2)
        Graph.Extends.elementary Graph.Extends.elementary
        (fun hg hy => (arrowPair_replays hg hy).mono fun _ _ _ _ h => h.2) hg hx.operands
    · apply (arrowPair_replays hg hx).bind
      intro p g' hg' _ hp
      apply Replays.pure hg'
      intro q hq
      exact List.mem_singleton.1 hq ▸ hp.2

theorem foldPower_replays (hg : g.WellFormed) (hl : g.Elementary V l) (hr : g.Elementary V r) :
    Replays V (foldPower l r) g fun y g' => g'.Elementary V y := by
  rw [foldPower_eq]
  apply Replays.get
  · intro t _ ht
    rw [(ht.agree hg).value?_eq hl, (ht.agree hg).value?_eq hr]
  apply Replays.ite (fun _ => .pure hg hg.elementary_zero)
  intro _
  apply Replays.ite (fun _ => .pure hg hg.elementary_one)
  intro _
  apply Replays.ite (fun _ => .pure hg hg.elementary_one)
  intro _
  apply Replays.ite (fun _ => .pure hg hl)
  intro _
  cases foldedPower? (g.value? l) (g.value? r) with
  | some q => exact Graph.constant_replays V hg q
  | none => exact Graph.power_replays hg hl hr

theorem powerOfProduct_replays (hg : g.WellFormed) (hxs : ∀ x ∈ xs, g.Elementary V x)
    (hy : g.Elementary V y) :
    Replays V (powerOfProduct xs y) g fun z g' => g'.Elementary V z := by
  have hmap : Replays V (xs.mapM (Graph.power · y)) g fun zs g' => ∀ z ∈ zs, g'.Elementary V z :=
    Replays.mapM (P := fun g x => g.Elementary V x ∧ g.Elementary V y) (I := Graph.Elementary V)
      (fun hx h => ⟨hx.elementary h.1, hx.elementary h.2⟩) Graph.Extends.elementary
      (fun hg h => Graph.power_replays hg h.1 h.2) hg fun x hx => ⟨hxs x hx, hy⟩
  exact hmap.bind fun _ _ hg' _ hzs => Graph.product_replays hg' hzs

/-! ### Rules -/

theorem binary_follows (hg : g.WellFormed) {op : Operator} (hop : V.operators op)
    (hx : g.Elementary V x) (hy : g.Elementary V y) :
    (binary op x y).Follows V t? g fun z g' => g'.Elementary V z := by
  apply (Dialogue.Follows.ask hg hx).bind
  intro l g₁ hg₁ hr₁ hl
  apply (Dialogue.Follows.ask hg₁ (hr₁.elementary hy)).bind
  intro r g₂ hg₂ hr₂ hr
  have hl₂ := hr₂.elementary hl
  apply Dialogue.Follows.ite
  · intro _
    apply (Dialogue.Follows.build (arrowPairs_replays hg₂ hr)).bind
    intro s g₃ hg₃ hr₃ hs
    apply (Dialogue.Follows.build (Graph.substitute_replays hg₃ hs (hr₃.elementary hl₂))).bind
    intro z g₄ hg₄ _ hz
    exact .ask hg₄ hz
  · intro _
    apply Dialogue.Follows.graph
    · intro t _ ht
      rw [(ht.agree hg₂).value?_eq hl₂, (ht.agree hg₂).value?_eq hr]
    cases binaryOutcome? op l r (g₂.value? l) (g₂.value? r) with
    | some b =>
      apply Dialogue.Follows.pure hg₂
      cases b
      · exact hg₂.elementary_zero
      · exact hg₂.elementary_one
    | none => exact .build (Graph.binary_replays hg₂ hop hl₂ hr)

theorem unary_follows (hg : g.WellFormed) (op : Operator) (hx : g.Elementary V x) :
    (unary op x).Follows V t? g fun z g' => g'.Elementary V z := by
  apply (Dialogue.Follows.ask hg hx).bind
  intro y g' hg' _ hy
  apply Dialogue.Follows.graph
  · intro t _ ht
    rw [(ht.agree hg').value?_eq hy]
  apply Dialogue.Follows.ite
  · intro _
    apply Dialogue.Follows.pure hg'
    rw [Graph.boolean]
    split
    · exact hg'.elementary_one
    · exact hg'.elementary_zero
  · exact fun _ => .build (Graph.unary_replays hg' op hy)

theorem power_follows (hg : g.WellFormed) (hx : g.Elementary V x) (hy : g.Elementary V y) :
    (power x y).Follows V t? g fun z g' => g'.Elementary V z := by
  apply (Dialogue.Follows.ask hg hx).bind
  intro l g₁ hg₁ hr₁ hl
  have hy₁ := hr₁.elementary hy
  apply Dialogue.Follows.graph
  · intro t _ ht
    rw [ht.node_eq_of_elementary hl, (ht.agree hg₁).operands_eq hl]
  apply Dialogue.Follows.ite
  · intro _
    apply (Dialogue.Follows.build (powerOfProduct_replays hg₁ hl.operands hy₁)).bind
    intro q g₂ hg₂ _ hq
    exact .ask hg₂ hq
  intro _
  apply (Dialogue.Follows.ask hg₁ hy₁).bind
  intro r g₂ hg₂ hr₂ hr
  split
  · next l' r' _ hops =>
    have hl' := hl.operands
    rw [hops] at hl'
    have hbase : g₂.Elementary V l' := hr₂.elementary (hl' l' (by simp))
    have hexp : g₂.Elementary V r' := hr₂.elementary (hl' r' (by simp))
    apply (Dialogue.Follows.build (Graph.product_replays hg₂ (by simp [hr, hexp]))).bind
    intro e g₃ hg₃ hr₃ he
    apply (Dialogue.Follows.ask hg₃ he).bind
    intro e' g₄ hg₄ hr₄ he'
    exact .build (foldPower_replays hg₄ (hr₄.elementary (hr₃.elementary hbase)) he')
  · exact .fail hg₂
  · exact .build (foldPower_replays hg₂ (hr₂.elementary hl) hr)

/-- The outcomes of a call to a function of rationals. -/
def Reply.Elementary (V : Vocabulary) (g : Graph) : Reply → Prop
  | .value x => g.Elementary V x
  | .elsewhere _ _ => False
  | .declined | .fault _ => True

theorem ofReal_replays (hg : g.WellFormed) (o : Except Error (Option Rat)) :
    Replays V (Reply.ofReal o) g fun reply g' => Reply.Elementary V g' reply := by
  rcases o with e | _ | q
  · exact .pure hg trivial
  · exact .pure hg trivial
  · exact (Graph.constant_replays V hg q).bind fun x g' hg' _ hx => .pure hg' hx

theorem values?_eq {t : Graph} (hr : g.Retains V t) (hg : g.WellFormed)
    (hxs : ∀ x ∈ xs, g.Elementary V x) : values? t xs = values? g xs :=
  Graph.mapM_congr fun x hx => (hr.agree hg).value?_eq (hxs x hx)

theorem invoke_follows (hg : g.WellFormed) (hf : library.IsReal f)
    (hxs : ∀ x ∈ xs, g.Elementary V x) :
    (invoke f (library f) xs).Follows V t? g fun reply g' => Reply.Elementary V g' reply := by
  obtain ⟨arity, apply, hf⟩ := hf
  rw [hf]
  apply Dialogue.Follows.graph
  · intro t _ hr
    rw [values?_eq hr hg hxs]
  · simp only
    split
    · apply Dialogue.Follows.ite
      · exact fun _ => .updateLog (.build (ofReal_replays hg _))
      · exact fun _ => .pure hg trivial
    · exact .pure hg trivial

theorem call_follows (hV : ∀ f, V.callees f → library.IsReal f) (hg : g.WellFormed)
    (hf : V.callees f) (hxs : ∀ x ∈ xs, g.Elementary V x) :
    (call library f xs).Follows V t? g fun z g' => g'.Elementary V z := by
  apply (Dialogue.Follows.askAll hg hxs).bind
  intro ys g₁ hg₁ hr₁ hys
  apply (Dialogue.Follows.build (Graph.call_replays hg₁ hf hys)).bind
  intro u g₂ hg₂ hr₂ hu
  apply (invoke_follows hg₂ (hV f hf) fun y hy => hr₂.elementary (hys y hy)).bind
  intro reply g₃ hg₃ hr₃ hreply
  cases reply with
  | value x => exact .pure hg₃ hreply
  | elsewhere g x => exact hreply.elim
  | declined => exact .pure hg₃ (hr₃.elementary hu)
  | fault message => exact .updateLog (.pure hg₃ (hr₃.elementary hu))

theorem byShape_follows (hV : ∀ f, V.callees f → library.IsReal f) (hg : g.WellFormed)
    (hx : g.Elementary V x) :
    (byShape library x).Follows V t? g fun z g' => g'.Elementary V z := by
  have hops := hx.operands
  have hcov := hx.covers
  apply Dialogue.Follows.graph
  · intro t _ hr
    rw [(hr.agree hg).shape_eq hx, (hr.agree hg).operands_eq hx]
  split
  · exact .pure hg hx
  · exact .pure hg hx
  · exact (Dialogue.Follows.askAll hg hops).bind fun _ _ hg' _ hys =>
      .build (Graph.combineTerms_replays hg' hys)
  · exact (Dialogue.Follows.askAll hg hops).bind fun _ _ hg' _ hys =>
      .build (Graph.combineFactors_replays hg' hys)
  · next he =>
    rw [he] at hops
    exact power_follows hg (hops _ (by simp)) (hops _ (by simp))
  · next hs he =>
    rw [hs] at hcov
    rw [he] at hops
    exact binary_follows hg hcov (hops _ (by simp)) (hops _ (by simp))
  · next he =>
    rw [he] at hops
    exact unary_follows hg _ (hops _ (by simp))
  · next f hs =>
    rw [hs] at hcov
    exact call_follows hV hg hcov hops
  · exact .operands hg hx
  · exact .operands hg hx
  · exact .fail hg

theorem transform_follows (hV : ∀ f, V.callees f → library.IsReal f) (hg : g.WellFormed)
    (hx : g.Elementary V x) :
    ((rules library).transform x).Follows V t? g fun o g' =>
      ∃ y, o = some y ∧ g'.Elementary V y := by
  apply Dialogue.Follows.graph
  · intro t _ hr
    rw [(hr.agree hg).isLoop_eq hx]
  rw [hx.isLoop_eq, if_neg Bool.false_ne_true]
  exact (byShape_follows hV hg hx).bind fun y _ hg' _ hy => .pure hg' ⟨y, rfl, hy⟩

end Evaluation

end ExactAlgebra
