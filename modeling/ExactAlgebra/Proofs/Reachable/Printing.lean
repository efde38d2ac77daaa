import Mathlib
import ExactAlgebra.Proofs.Reachable.Basic
import ExactAlgebra.Proofs.Tree.Text

/-!
Writing out the nodes of a graph, without trees. A node is written by reading it in the graph, and
every reading may fail: there may be no such node, no operand at a position, no name for what refers
to itself, or no end. In the graphs that programs reach nothing of this happens, and what is written
is the written form of the tree.
-/

namespace ExactAlgebra.Graph

variable {g g' g₀ g₁ : Graph} {x y z : NodeId} {around : List NodeId} {depth depth' : Nat}
variable {label : String}

/-! ### Writing -/

def isLooseFactor (g : Graph) (x : NodeId) : Bool :=
  match g.shape x with
  | .sum | .binary _ => true
  | _ => false

def isBinary (g : Graph) (x : NodeId) : Bool :=
  match g.shape x with
  | .binary _ => true
  | _ => false

def standsAlone (g : Graph) (x : NodeId) : Bool :=
  if g.isLoop x then false
  else match g.shape x with
    | .symbol _ | .call _ | .set => true
    | .constant q => q.den = 1 && 0 ≤ q
    | _ => false

/-- Writes a node, in parentheses if it passes a test. -/
def writeGrouped (test : NodeId → Bool) (write : NodeId → Except Error String) (x : NodeId) :
    Except Error String := do
  return Tree.enclose (test x) (← write x)

/-- Writes a node by its kind; `write` is for the operands. -/
def writeNode (g : Graph) (write : NodeId → Except Error String) (x : NodeId) :
    Except Error String := do
  match g.shape x with
  | .constant _ => return Rational.text (← g.value x)
  | .symbol _ => g.spelling x
  | .sum => return " + ".intercalate (← (g.operands x).mapM write)
  | .product => return "*".intercalate (← (g.operands x).mapM (writeGrouped g.isLooseFactor write))
  | .power =>
    let base ← writeGrouped (!g.standsAlone ·) write (← g.operand x 0)
    let exponent ← writeGrouped (!g.standsAlone ·) write (← g.operand x 1)
    return base ++ "^" ++ exponent
  | .binary op =>
    let l ← writeGrouped g.isBinary write (← g.operand x 0)
    let r ← writeGrouped g.isBinary write (← g.operand x 1)
    return l ++ op.text ++ r
  | .unary op => return op.text ++ (← writeGrouped (!g.standsAlone ·) write (← g.operand x 0))
  | .call _ =>
    let f ← g.callee x
    return f.name ++ "(" ++ ", ".intercalate (← (g.operands x).mapM write) ++ ")"
  | .set => return "\x7b" ++ ", ".intercalate (← (g.operands x).mapM write) ++ "\x7d"
  | .arrow =>
    let l ← write (← g.operand x 0)
    let r ← write (← g.operand x 1)
    return l ++ " -> " ++ r

/-- Writes a node, down to a depth; `around` lists the self-referential nodes that are being
written. -/
def write (g : Graph) : Nat → List NodeId → NodeId → Except Error String
  | 0, _, _ => .error .depthExhausted
  | depth + 1, around, x =>
    if !g.contains x then .error .badHandle
    else if g.isLoop x then
      if around.contains x then g.loopName x
      else g.writeNode (g.write depth (x :: around)) x
    else g.writeNode (g.write depth around) x

/-! ### Trees -/

theorem shape_unfoldWithin (g : Graph) (depth : Nat) (around : List NodeId) (x : NodeId) :
    (g.unfoldWithin depth around x).shape = g.shape x := by
  cases depth with
  | zero => rfl
  | succ depth =>
    simp only [unfoldWithin]
    split
    · split <;> rfl
    · rfl

theorem isLooseFactor_unfoldWithin (g : Graph) (depth : Nat) (around : List NodeId) (x : NodeId) :
    (g.unfoldWithin depth around x).isLooseFactor = g.isLooseFactor x := by
  rw [Tree.isLooseFactor, shape_unfoldWithin]
  rfl

theorem isBinary_unfoldWithin (g : Graph) (depth : Nat) (around : List NodeId) (x : NodeId) :
    (g.unfoldWithin depth around x).isBinary = g.isBinary x := by
  rw [Tree.isBinary, shape_unfoldWithin]
  rfl

theorem standsAlone_unfoldWithin (g : Graph) (depth : Nat) (around : List NodeId) (x : NodeId) :
    (g.unfoldWithin (depth + 1) around x).standsAlone = g.standsAlone x := by
  simp only [unfoldWithin, standsAlone]
  cases g.isLoop x with
  | true =>
    simp only [if_true]
    split <;> rfl
  | false =>
    simp only [Bool.false_eq_true, if_false]
    cases g.shape x <;> rfl

/-- A tree stands for a node in the text around it: it has the text of the node, and is put in
parentheses where the node is. -/
structure Stands (g : Graph) (write : NodeId → Except Error String) (y : NodeId) (t : Tree) :
    Prop where
  write_eq : write y = .ok t.render
  isLooseFactor_eq : t.isLooseFactor = g.isLooseFactor y
  isBinary_eq : t.isBinary = g.isBinary y
  standsAlone_eq : t.standsAlone = g.standsAlone y

namespace Stands

variable {write : NodeId → Except Error String} {t : Tree}

theorem grouped (h : g.Stands write y t) {test : NodeId → Bool} (check : Tree → Bool)
    (hcheck : check t = test y) :
    writeGrouped test write y = .ok (Tree.enclose (check t) t.render) := by
  rw [writeGrouped, h.write_eq, hcheck]
  rfl

theorem factor (h : g.Stands write y t) : writeGrouped g.isLooseFactor write y =
    .ok (Tree.enclose t.isLooseFactor t.render) :=
  h.grouped Tree.isLooseFactor h.isLooseFactor_eq

theorem side (h : g.Stands write y t) : writeGrouped g.isBinary write y =
    .ok (Tree.enclose t.isBinary t.render) :=
  h.grouped Tree.isBinary h.isBinary_eq

theorem argument (h : g.Stands write y t) : writeGrouped (!g.standsAlone ·) write y =
    .ok (Tree.enclose (!t.standsAlone) t.render) :=
  h.grouped (fun t => !t.standsAlone) (congrArg _ h.standsAlone_eq)

end Stands

theorem mapM_eq_ok {α β : Type} {f : α → Except Error β} {h : α → β} {as : List α}
    (hf : ∀ a ∈ as, f a = .ok (h a)) : as.mapM f = .ok (as.map h) := by
  induction as with
  | nil => rfl
  | cons a as ih =>
    rw [List.mapM_cons, hf a (List.mem_cons_self ..),
      ih fun b hb => hf b (List.mem_cons_of_mem _ hb)]
    rfl

theorem renderAll_map (t : NodeId → Tree) (xs : List NodeId) :
    Tree.renderAll (xs.map t) = xs.map fun y => (t y).render := by
  rw [Tree.renderAll_eq_map, List.map_map]
  rfl

theorem operand_eq {xs : List NodeId} (hx : g.operands x = xs) {i : Nat} (hi : xs[i]? = some y) :
    g.operand x i = .ok y := by
  rw [operand, hx, hi]

/-- What is written of a node is put together from what is written of its operands. -/
theorem WellFormed.writeNode_eq (hg : g.WellFormed) {write : NodeId → Except Error String}
    {t : NodeId → Tree} (h : ∀ y ∈ g.operands x, g.Stands write y (t y)) :
    g.writeNode write x = .ok (Tree.assemble (g.shape x) ((g.operands x).map t)
      (Tree.renderAll ((g.operands x).map t))) := by
  have hall : (g.operands x).mapM write = .ok ((g.operands x).map fun y => (t y).render) :=
    mapM_eq_ok fun y hy => (h y hy).write_eq
  have hpair : (∀ n, (g.shape x).Allows n → n = 2) → ∃ l r, g.operands x = [l, r] ∧
      g.operand x 0 = .ok l ∧ g.operand x 1 = .ok r ∧
      g.Stands write l (t l) ∧ g.Stands write r (t r) := by
    intro htwo
    obtain ⟨l, r, hops⟩ := hg.exists_operands_pair rfl htwo
    exact ⟨l, r, hops, operand_eq hops rfl, operand_eq hops rfl, h l (by simp [hops]),
      h r (by simp [hops])⟩
  simp only [writeNode, Tree.assemble, renderAll_map]
  cases hs : g.shape x with
  | constant q =>
    simp only [value, value?, hs]
    rfl
  | symbol name => simp only [spelling, hs]
  | sum | set =>
    simp only [hall]
    rfl
  | product =>
    have hfactors : (g.operands x).mapM (writeGrouped g.isLooseFactor write) =
        .ok ((g.operands x).map fun y => Tree.enclose (t y).isLooseFactor (t y).render) :=
      mapM_eq_ok fun y hy => (h y hy).factor
    simp only [hfactors, List.zipWith_map, List.zipWith_self]
    rfl
  | call f =>
    simp only [callee, hs, hall]
    rfl
  | power =>
    rw [hs] at hpair
    obtain ⟨l, r, hops, hl, hr, hl', hr'⟩ := hpair fun _ h => h
    simp only [hops, hl, hr, bind, Except.bind, hl'.argument, hr'.argument]
    rfl
  | binary op =>
    rw [hs] at hpair
    obtain ⟨l, r, hops, hl, hr, hl', hr'⟩ := hpair fun _ h => h
    simp only [hops, hl, hr, bind, Except.bind, hl'.side, hr'.side]
    rfl
  | unary op =>
    obtain ⟨y, hops⟩ := hg.exists_operand hs
    have hy := h y (by simp [hops])
    simp only [hops, operand_eq hops (i := 0) rfl, bind, Except.bind, hy.argument]
    rfl
  | arrow =>
    rw [hs] at hpair
    obtain ⟨l, r, hops, hl, hr, hl', hr'⟩ := hpair fun _ h => h
    simp only [hops, hl, hr, bind, Except.bind, hl'.write_eq, hr'.write_eq]
    rfl

/-! ### Depth -/

/-- How many self-referential nodes are not being written. -/
def unwritten (g : Graph) (around : List NodeId) : Nat :=
  ((Finset.range g.size).filter fun i => g.isLoop i ∧ i ∉ around).card

theorem unwritten_le (g : Graph) (around : List NodeId) : g.unwritten around ≤ g.size :=
  (Finset.card_filter_le _ _).trans_eq (Finset.card_range g.size)

theorem unwritten_cons_lt (hx : x < g.size) (hl : g.isLoop x = true) (ha : x ∉ around) :
    g.unwritten (x :: around) < g.unwritten around := by
  apply Finset.card_lt_card
  refine ⟨fun i hi => ?_, fun h => ?_⟩
  · simp only [Finset.mem_filter, List.mem_cons, not_or] at hi ⊢
    exact ⟨hi.1, hi.2.1, hi.2.2.2⟩
  · have hx' := h (Finset.mem_filter.2 ⟨Finset.mem_range.2 hx, hl, ha⟩)
    exact (Finset.mem_filter.1 hx').2.2 (List.mem_cons_self ..)

/-- How deep a node goes at most: to enter a self-referential node uses one of those that are left,
and between two of them the numbers fall. -/
def reach (g : Graph) (around : List NodeId) (x : NodeId) : Nat :=
  g.unwritten around * (g.size + 1) + x + 1

theorem reach_le_unfoldDepth (hx : x < g.size) (around : List NodeId) :
    g.reach around x ≤ g.unfoldDepth := by
  have hle := Nat.mul_le_mul_right (g.size + 1) (g.unwritten_le around)
  rw [reach, unfoldDepth, Nat.succ_mul, Nat.add_assoc]
  exact Nat.add_le_add hle (Nat.succ_le_succ (Nat.le_of_lt hx))

theorem reach_operand_lt (hg : g.WellFormed) (hl : g.isLoop x = false) (hy : y ∈ g.operands x)
    (around : List NodeId) : g.reach around y < g.reach around x :=
  Nat.succ_lt_succ (Nat.add_lt_add_left (hg.operands_lt x hl y hy) _)

theorem reach_body_lt (hg : g.WellFormed) (hl : g.isLoop x = true) (ha : x ∉ around)
    (hy : y ∈ g.operands x) : g.reach (x :: around) y < g.reach around x := by
  have hfewer := unwritten_cons_lt (lt_size_of_isLoop hl) hl ha
  calc g.unwritten (x :: around) * (g.size + 1) + y + 1
      < g.unwritten (x :: around) * (g.size + 1) + g.size + 1 :=
        Nat.succ_lt_succ (Nat.add_lt_add_left (hg.operands_lt_size x y hy) _)
    _ = (g.unwritten (x :: around) + 1) * (g.size + 1) := by rw [Nat.succ_mul, Nat.add_assoc]
    _ ≤ g.unwritten around * (g.size + 1) := Nat.mul_le_mul_right _ hfewer
    _ ≤ g.unwritten around * (g.size + 1) + (x + 1) := Nat.le_add_right ..

/-- All that refers to itself has a name. -/
def Labelled (g : Graph) : Prop := ∀ x, g.isLoop x = true → ∃ name, g.label? x = some name

/-- With enough depth a node is written as its tree is, of whatever depth beyond that. -/
theorem WellFormed.write_eq (hg : g.WellFormed) (hn : g.Labelled) (hx : x < g.size)
    (hdepth : g.reach around x ≤ depth) (hdepth' : g.reach around x ≤ depth') :
    g.write depth around x = .ok (g.unfoldWithin depth' around x).render := by
  induction depth generalizing depth' around x with
  | zero => exact absurd hdepth (Nat.not_succ_le_zero _)
  | succ depth ih =>
    obtain ⟨depth', rfl⟩ := Nat.exists_eq_succ_of_ne_zero
      (Nat.ne_of_gt ((Nat.succ_pos _).trans_le hdepth'))
    -- An operand stands in the text as its tree does, be it among the same nodes or one more.
    have hstands : ∀ {around'}, (∀ y ∈ g.operands x, g.reach around' y < g.reach around x) →
        ∀ y ∈ g.operands x,
          g.Stands (g.write depth around') y (g.unfoldWithin depth' around' y) := by
      intro around' hlt y hy
      have hd := Nat.le_of_lt_succ ((hlt y hy).trans_le hdepth)
      have hd' := Nat.le_of_lt_succ ((hlt y hy).trans_le hdepth')
      obtain ⟨k, rfl⟩ := Nat.exists_eq_succ_of_ne_zero
        (Nat.ne_of_gt ((Nat.succ_pos _).trans_le hd'))
      exact ⟨ih (hg.operands_lt_size x y hy) hd hd', isLooseFactor_unfoldWithin ..,
        isBinary_unfoldWithin .., standsAlone_unfoldWithin ..⟩
    have hin : g.contains x = true := decide_eq_true hx
    rw [write, unfoldWithin]
    simp only [hin, Bool.not_true, Bool.false_eq_true, if_false]
    cases hl : g.isLoop x with
    | false => exact hg.writeNode_eq (hstands fun y hy => reach_operand_lt hg hl hy around)
    | true =>
      by_cases ha : x ∈ around
      · obtain ⟨name, hname⟩ := hn x hl
        simp only [if_true, List.contains_iff_mem.2 ha, loopName, nameOf, hname]
        rfl
      · have ha' : around.contains x = false := by simpa using ha
        simp only [if_true, ha', Bool.false_eq_true, if_false]
        exact hg.writeNode_eq (hstands fun y hy => reach_body_lt hg hl ha hy)

/-! ### Names -/

/-- What refers to itself after an action did so before, under the same name, or it was a symbol,
and has its name from that. -/
theorem Action.labelled (a : Action) (hg : g.WellFormed) (hl : (a.after g).isLoop x = true) :
    (g.isLoop x = true ∧ (a.after g).label? x = g.label? x) ∨
      ∃ name, g.shape x = .symbol name ∧ g.isLoop x = false ∧
        (a.after g).label? x = some name := by
  have hgrown : ∀ {m : Build NodeId}, Grows m → (final (m g)).isLoop x = true →
      g.isLoop x = true ∧ (final (m g)).label? x = g.label? x := by
    intro m hm hl
    obtain ⟨-, hgrows⟩ := hm.changing.final hg
    rw [label?, label?, hgrows.labels_eq, ← hgrows.isLoop_eq (hgrows.lt_of_isLoop x hl)]
    exact ⟨hl, rfl⟩
  cases a with
  | construct c => exact .inl (hgrown (c.build_holds growing.builders) hl)
  | openLoop label => exact .inl (hgrown (openLoop_grows label) hl)
  | recordForm y form => exact .inl ⟨hl, rfl⟩
  | closeLoop y body =>
    rcases closeLoop_cases y body g with ⟨e, he⟩ | ⟨name, hlt, hs, hopen, he⟩
    · rw [Action.after, he] at hl ⊢
      exact .inl ⟨hl, rfl⟩
    · rw [Action.after, he] at hl ⊢
      by_cases hx : y = x
      · subst hx
        exact .inr ⟨name, hs, hopen, by simp [final, label?, close]⟩
      · have hsame : g.isLoop x = true := by
          rwa [final, isLoop, node_close_ne (Ne.symm hx)] at hl
        refine .inl ⟨hsame, ?_⟩
        simp [final, label?, close, Std.HashMap.getElem?_insert, hx]

theorem Becomes.labelled (h : g.Becomes g') (hg : g.WellFormed) (hn : g.Labelled) :
    g'.Labelled := by
  induction h with
  | refl => exact hn
  | act h a ih =>
    intro x hl
    rcases a.labelled (h.develops hg).1 hl with ⟨hl', hlabel⟩ | ⟨name, -, -, hlabel⟩
    · exact hlabel ▸ ih x hl'
    · exact ⟨name, hlabel⟩

theorem Reachable.labelled (hg : g.Reachable) : g.Labelled :=
  hg.becomes.labelled empty_wellFormed fun x hl => by
    match x with
    | 0 | 1 => cases hl
    | x + 2 =>
      rw [isLoop, node_of_size_le (Nat.le_add_left 2 x)] at hl
      cases hl

/-- A placeholder that is still open, or was closed, under a name. -/
def Reserved (g : Graph) (x : NodeId) (name : String) : Prop :=
  x < g.size ∧ g.shape x = .symbol name ∧ g.isLoop x = false ∨
    g.isLoop x = true ∧ g.label? x = some name

theorem Action.reserved (a : Action) (hg : g.WellFormed) (h : g.Reserved x label) :
    (a.after g).Reserved x label := by
  obtain ⟨-, hd⟩ := a.after_develops hg
  have hsame : (a.after g).isLoop x = true → (a.after g).label? x = some label := by
    intro hl
    rcases h with ⟨-, hs, hopen⟩ | ⟨hclosed, hlabel⟩
    · rcases a.labelled hg hl with ⟨hl', -⟩ | ⟨name, hs', -, hlabel⟩
      · rw [hopen] at hl'
        cases hl'
      · rw [hs] at hs'
        cases hs'
        exact hlabel
    · rcases a.labelled hg hl with ⟨-, hlabel'⟩ | ⟨name, -, hopen, -⟩
      · exact hlabel'.trans hlabel
      · rw [hclosed] at hopen
        cases hopen
  have hlt : x < g.size := h.elim And.left fun h => lt_size_of_isLoop h.1
  rcases hd.node_eq x hlt with he | ⟨-, hl⟩
  · rcases h with ⟨-, hs, hopen⟩ | ⟨hclosed, -⟩
    · exact .inl ⟨hd.lt_size hlt, (congrArg Node.shape he).trans hs,
        (congrArg Node.isLoop he).trans hopen⟩
    · have hl : (a.after g).isLoop x = true := (congrArg Node.isLoop he).trans hclosed
      exact .inr ⟨hl, hsame hl⟩
  · exact .inr ⟨hl, hsame hl⟩

theorem Becomes.reserved (h : g.Becomes g') (hg : g.WellFormed) (hx : g.Reserved x label) :
    g'.Reserved x label := by
  induction h with
  | refl => exact hx
  | act h a ih => exact a.reserved (h.develops hg).1 ih

theorem WellFormed.openLoop_reserved (hg : g.WellFormed) (h : openLoop label g = .ok x g') :
    g'.WellFormed ∧ g'.Reserved x label := by
  have hm := openLoop_meets hg label
  rw [Meets, h] at hm
  obtain ⟨hg', -, -, hlt, hn⟩ := hm
  exact ⟨hg', .inl ⟨hlt, congrArg Node.shape hn, congrArg Node.isLoop hn⟩⟩

/-- Every node of a graph that programs reach is written, without fail and as its tree is. Within
itself a self-referential node is written as the name for which its placeholder was opened. -/
theorem Reachable.write_total (hg : g.Reachable) :
    (∀ x, x < g.size → ∀ depth, g.unfoldDepth ≤ depth → g.write depth [] x = .ok (g.render x)) ∧
    ∀ g₀ g₁ label x, g₀.Reachable → openLoop label g₀ = .ok x g₁ → g₁.Becomes g →
      g.isLoop x = true → ∀ depth around, x ∈ around → g.write (depth + 1) around x = .ok label := by
  constructor
  · intro x hx depth hdepth
    have hreach := reach_le_unfoldDepth hx []
    exact hg.regular.toWellFormed.write_eq hg.labelled hx (hreach.trans hdepth) hreach
  · intro g₀ g₁ label x hg₀ hopen hbecomes hl depth around hx
    obtain ⟨hg₁, hreserved⟩ := hg₀.regular.toWellFormed.openLoop_reserved hopen
    rcases hbecomes.reserved hg₁ hreserved with ⟨-, -, hl'⟩ | ⟨-, hlabel⟩
    · rw [hl] at hl'
      cases hl'
    · have hin : g.contains x = true := decide_eq_true (lt_size_of_isLoop hl)
      simp only [write, hin, hl, List.contains_iff_mem.2 hx, loopName, hlabel, Bool.not_true,
        Bool.false_eq_true, if_false, if_true]

theorem Reachable.write_total_entwined :
    entwined.write 64 [] 2 = .ok "\x7b\x7bs\x7d, a\x7d" ∧ entwined.write 1 [3, 2] 2 = .ok "s" := by
  obtain ⟨htotal, hname⟩ := entwined_reachable.write_total
  have hbecomes : ((Action.openLoop "s").after Graph.empty).Becomes entwined :=
    (((((Becomes.refl.act (.openLoop "t")).act (.construct (.symbol "a"))).act
      (.construct (.set [3, 4]))).act (.construct (.set [2]))).act (.closeLoop 2 5)).act
      (.closeLoop 3 6)
  have htext : entwined.render 2 = "\x7b\x7bs\x7d, a\x7d" := by cbv
  constructor
  · rw [htotal 2 (by cbv) 64 (by cbv), htext]
  · exact hname Graph.empty _ "s" 2 .empty rfl hbecomes (by cbv) 0 [3, 2] (by simp)

end ExactAlgebra.Graph
