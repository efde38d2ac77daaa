import ExactAlgebra.Proofs.Evaluation.Failures

/-!
Self-referential nodes in evaluation. Their labels are there when a body is closed over a
placeholder, the placeholder is still open then, and the canonical form that is recorded for a node
is made of what the node is made of. So evaluation keeps what is recorded reliable, and fails on
self-referential nodes as it fails on others.
-/

namespace ExactAlgebra.Evaluation

open ExactAlgebra.Graph (Changes Continues Meets Overflow Vocabulary)

variable {library : Library} {V P : Vocabulary} {C : Callee → Prop} {g g' : Graph} {depth : Nat}
variable {x y body : NodeId} {name : String} {p : Prop}

/-- The placeholder of a loop and the content it will be closed over. -/
def openContent (name : String) (x body : NodeId) : Build (NodeId × NodeId) := do
  let slot ← Graph.openLoop name
  let content ← Graph.substitute [(x, slot)] body
  return (slot, content)

theorem openContent_meets (hg : g.WellFormed) (name : String) (x : NodeId)
    (hbody : p → g.MadeOf P body) :
    Meets (fun e g' => p → Overflow e g') (openContent name x body) g fun loop g' =>
      g.size ≤ loop.1 ∧ loop.1 < g'.size ∧ g'.node loop.1 = { shape := .symbol name } ∧
        (p → g'.MadeOf (P.insert loop.1) loop.2) := by
  apply ((Graph.openLoop_meets hg name).mono_error fun e g' he _ => he).bind
  rintro slot g₁ hg₁ hext₁ ⟨rfl, hlt, hnode⟩
  have hcontent : Meets (fun e g' => p → Overflow e g') (Graph.substitute [(x, g.size)] body) g₁
      fun c g' => p → g'.MadeOf (P.insert g.size) c := by
    by_cases hp : p
    · have hslot : g₁.MadeOf (P.insert g.size) g.size :=
        .of_node hlt hnode (.inr rfl) fun _ hy => absurd hy List.not_mem_nil
      have hs : Substitution.MadeOf (P.insert g.size) g₁ [(x, g.size)] := by
        intro q hq
        rwa [List.mem_singleton.1 hq]
      have hmade : g₁.MadeOf (P.insert g.size) body := (hext₁.madeOf (hbody hp)).mono
        fun z s _ h => Vocabulary.covers_insert_iff.2 (.inl h)
      exact ((Graph.substitute_made hg₁ hs hmade).mono fun _ _ _ _ h _ => h).mono_error
        fun _ _ he _ => he
    · exact ((Graph.substitute_grows _ body hg₁).mono fun _ _ _ _ _ h => absurd h hp).mono_error
        fun _ _ _ h => absurd h hp
  apply hcontent.bind
  intro content g₂ hg₂ hext₂ hc
  exact .pure hg₂ ⟨Nat.le_refl _, hext₂.lt_size hlt, (hext₂.node_eq _ hlt).trans hnode, hc⟩

/-- A new node is closed: what was there before stays as it was. -/
theorem continues_close {slot content : NodeId} (hg : g'.WellFormed) (hext : g.GrowsTo g')
    (hnew : g.size ≤ slot) (hslot : slot < g'.size)
    (hn : g'.node slot = { shape := .symbol name }) :
    g.Continues C (g'.close slot content name) := by
  have hs : (g'.shape slot).IsSymbol := by
    rw [Graph.shape, hn]
    trivial
  have hl : g'.isLoop slot = false := by rw [Graph.isLoop, hn]
  refine ⟨⟨?_, fun x hx => ?_, hext.callees_prefix⟩, fun hc => ?_⟩
  · rw [Graph.size_close]
    exact hext.size_le
  · rw [Graph.node_close_ne (Nat.ne_of_lt (hx.trans_le hnew)), hext.node_eq x hx]
  · exact (hc.growsTo hg hext).close hg hslot hs hl content name

theorem closeContent_changes {loop : NodeId × NodeId} (hg : g'.WellFormed) (hext : g.GrowsTo g')
    (hnew : g.size ≤ loop.1) (hslot : loop.1 < g'.size)
    (hn : g'.node loop.1 = { shape := .symbol name })
    (hc : p → g'.MadeOf (P.insert loop.1) loop.2) :
    Changes (fun _ g'' => g.Continues C g'') (fun e g'' => p → Overflow e g'')
      (do Graph.closeLoop loop.1 loop.2; return loop.1) g' fun y g'' => p → g''.MadeOf P y := by
  have hs : (g'.shape loop.1).IsSymbol := by
    rw [Graph.shape, hn]
    trivial
  simp only [Changes, Bind.bind, EStateM.bind]
  rcases Graph.closeLoop_cases loop.1 loop.2 g' with ⟨e, he⟩ | ⟨label, -, hlabel, -, he⟩
  · rw [he]
    refine ⟨hg, hext.continues hg, fun hp => ?_⟩
    rw [Graph.closeLoop_eq hslot (hc hp).lt_size hn] at he
    cases he
  · obtain rfl : name = label := by
      rw [Graph.shape, hn] at hlabel
      exact Shape.symbol.inj hlabel
    rw [he]
    refine ⟨hg.close hslot hs loop.2 name, continues_close hg hext hnew hslot hn, fun hp => ?_⟩
    have hopen : g'.MadeOf (P.insert loop.1) loop.1 :=
      .of_node hslot hn (.inr rfl) fun _ hy => absurd hy List.not_mem_nil
    exact Graph.MadeOf.close hslot (hc hp) hopen name

theorem closeOver_changes (hg : g.WellFormed) (hc : g.Consistent C) (hl : g.isLoop x = true)
    (hbody : p → g.MadeOf P body) :
    Changes (Continues C) (fun e g' => p → Overflow e g') (closeOver x body) g fun y g' =>
      p → g'.MadeOf P y := by
  obtain ⟨name, hname⟩ := Option.ne_none_iff_exists'.1 (hc.labelled x hl)
  have heq : closeOver x body g =
      (openContent name x body >>= fun loop => do
        Graph.closeLoop loop.1 loop.2
        return loop.1) g := by
    simp only [closeOver, openContent, Graph.get_bind, hname, bind_assoc, pure_bind]
  rw [Changes, heq]
  apply (openContent_meets hg name x hbody).bind_changes (fun g' hg' h => h.continues hg')
    fun _ _ he => he
  rintro loop g' hg' hext ⟨hnew, hslot, hn, hcontent⟩
  exact closeContent_changes hg' hext hnew hslot hn hcontent

theorem canonicalLoop_changes (hg : g.WellFormed) (hc : g.Consistent C) (hl : g.isLoop x = true)
    (hx : p → g.MadeOf P x) (hbody : p → g.MadeOf P body) :
    Changes (Continues C) (fun e g' => p → Overflow e g') (canonicalLoop x body) g fun y g' =>
      p → g'.MadeOf P y := by
  apply Changes.get
  apply Changes.ite fun _ => .pure hg (.refl C g) hx
  intro _
  exact .ite (fun _ => closeOver_changes hg hc hl hbody) fun _ => .pure hg (.refl C g) hbody

theorem recordForm_changes {E : Error → Graph → Prop} (hg : g.WellFormed) (hx : x < g.size)
    (hd : g.Derives C x y) :
    Changes (Continues C) E (Graph.recordForm x y) g fun _ g' => g.Extends g' :=
  have hext : g.Extends { g with forms := g.forms.insert x y } :=
    ⟨Nat.le_refl _, fun _ _ => rfl, List.prefix_rfl⟩
  ⟨hg.recordForm x y, ⟨hext, fun hc => hc.recordForm hx hd⟩, hext⟩

/-! ### The rules for all nodes -/

/-- Evaluation by shape leads to what is made of nothing else, unless other functions than those of
rationals may be called. -/
theorem byShape_made (hlib : library.Changing (Continues library.IsReal)) (hg : g.WellFormed)
    (hc : g.Consistent library.IsReal) (hlt : x < g.size)
    (hx : library.Computes V → g.MadeOf V x) :
    (byShape library x).Meets (guarded library V) depth x g fun y g' =>
      library.Computes (g.palette x) → g'.MadeOf (g.palette x) y := by
  by_cases hP : library.Computes (g.palette x)
  · have hguards : Guards library V (g.palette x) := ⟨hP, fun hV _ _ => (hx hV).palette_covers⟩
    exact (byShape_guarded hguards hg hc (Graph.madeOf_palette hg hlt)).mono fun _ _ _ _ h _ => h
  · have hV : ¬ library.Computes V := fun hV =>
      hP fun f hf => hV f ((hx hV).palette_covers (z := x) (s := .call f) hf)
    exact (byShape_wanders (F := unguarded hV) hlib x hg hlt hc).mono fun _ _ _ _ _ h =>
      absurd h hP

theorem selfReferential_guarded (hlib : library.Changing (Continues library.IsReal))
    (hg : g.WellFormed) (hc : g.Consistent library.IsReal) (hl : g.isLoop x = true)
    (hx : library.Computes V → g.MadeOf V x) :
    (selfReferential library x).Meets (guarded library V) depth x g fun y g' =>
      g'.Derives library.IsReal x y := by
  have hlt := Graph.lt_size_of_isLoop hl
  have hpalette : library.Computes V → library.Computes (g.palette x) := fun hV f hf =>
    hV f ((hx hV).palette_covers (z := x) (s := .call f) hf)
  apply Dialogue.Meets.graph
  cases hform : g.form? x with
  | some form => exact .pure hg (hc.derives x form hform).2
  | none =>
    apply (byShape_made hlib hg hc hlt hx).bind
    intro body g₁ hg₁ hf₁ hbody
    have hc₁ := hf₁.consistent hc
    have hl₁ : g₁.isLoop x = true := (hf₁.isLoop_eq hlt).trans hl
    have hmade₁ := hf₁.madeOf (Graph.madeOf_palette hg hlt)
    have hcanonical : (Dialogue.build (canonicalLoop x body) : Evaluating NodeId).Meets
        (guarded library V) depth x g₁ fun y g' =>
          library.Computes (g.palette x) → g'.MadeOf (g.palette x) y := by
      apply Dialogue.Meets.change
      apply (canonicalLoop_changes hg₁ hc₁ hl₁ (fun _ => hmade₁) hbody).mono_error
      exact fun _ _ he hV => .of_overflow (he (hpalette hV))
    apply hcanonical.bind
    intro form g₂ hg₂ hf₂ hmade₂
    have hd : g₂.Derives library.IsReal x form :=
      Graph.derives_of_palette hg (hf₁.toExtends.trans hf₂.toExtends) hlt hmade₂
    have hlt₂ := hf₂.lt_size (hf₁.lt_size hlt)
    apply (Dialogue.Meets.change (recordForm_changes hg₂ hlt₂ hd)).bind
    intro _ g₃ hg₃ _ hext₃
    have hd₃ := hd.extends_graph hext₃ hg₂.operands_lt_size hlt₂
    apply Dialogue.Meets.graph
    apply Dialogue.Meets.ite
    · intro hlf
      have hlt₃ := Graph.lt_size_of_isLoop hlf
      apply (Dialogue.Meets.change (recordForm_changes hg₃ hlt₃ (.refl _ _ form))).bind
      intro _ g₄ hg₄ _ hext₄
      exact .pure hg₄ (hd₃.extends_graph hext₄ hg₃.operands_lt_size (hext₃.lt_size hlt₂))
    · exact fun _ => .pure hg₃ hd₃

theorem settles_of_derives (hx : library.Computes V → g.MadeOf V x)
    (hd : g.Derives library.IsReal x y) : (guarded library V).Settles x (some y) g := by
  constructor
  · rintro _ ⟨⟩ _
    exact hd
  · intro hn hV
    exact absurd (hd V hV (hx hV)).lt_size (hn y rfl)

theorem rules_guarded (hlib : library.Changing (Continues library.IsReal)) (hg : g.WellFormed)
    (hx : (guarded library V).Asks (depth + 1) g x) (hlt : x < g.size) :
    ((rules library).transform x).Meets (guarded library V) depth x g
      ((guarded library V).Settles x) := by
  obtain ⟨hc, hmade⟩ := hx
  apply Dialogue.Meets.graph
  apply Dialogue.Meets.ite
  · intro hl
    apply (selfReferential_guarded hlib hg hc hl hmade).bind
    intro y g' hg' hf hd
    exact .pure hg' (settles_of_derives (fun hV => hf.madeOf (hmade hV)) hd)
  · intro _
    apply (byShape_made hlib hg hc hlt hmade).bind
    intro y g' hg' hf hy
    have hd := Graph.derives_of_palette hg hf.toExtends hlt hy
    exact .pure hg' (settles_of_derives (fun hV => hf.madeOf (hmade hV)) hd)

theorem evaluateIn_guarded (hlib : library.Changing (Continues library.IsReal)) (V : Vocabulary)
    (depth : Nat) : Replies (guarded library V) depth (evaluateIn library depth) :=
  Rules.replies (rules library) (fun _ => rfl)
    (fun _ _ _ hg hx hlt => rules_guarded hlib hg hx hlt) depth

end ExactAlgebra.Evaluation
