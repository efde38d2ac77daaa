import ExactAlgebra.Proofs.Graph.Storage
import ExactAlgebra.Proofs.Reachable.Basic

/-!
When the index of a graph can be relied on. An entry of it may only go wrong when a symbol that is
found by its name is closed as if it were a placeholder, and it does go wrong then. Programs that
close nothing but what they have opened, as evaluation does, keep the index right.
-/

namespace ExactAlgebra

namespace Graph

variable {g g' g'' : Graph} {s : Shape} {xs : List NodeId} {x y : NodeId} {name : String}

/-- Every node that the index has for a shape and a list of operands is a node of that shape over
those operands, and no loop. -/
def Faithful (g : Graph) : Prop :=
  ∀ (k : Shape × List NodeId) x, g.index[k]? = some x →
    g.nodes[x]? = some { shape := k.1, operands := k.2 }

/-- The node is found by its shape and operands. -/
def Listed (g : Graph) (x : NodeId) : Prop := ∃ k : Shape × List NodeId, g.index[k]? = some x

/-- The action closes a symbol that is found by its name. -/
def Action.Usurps (g : Graph) : Action → Prop
  | closeLoop x y => g.Listed x ∧ (g.shape x).IsSymbol ∧ y < g.size
  | _ => False

theorem Intact.listed_iff {S : NodeId → Prop} (h : g.Intact S g') (hx : x < g.size) :
    g'.Listed x ↔ g.Listed x :=
  exists_congr fun k => h.index_iff k x hx

namespace Faithful

theorem node_eq (h : g.Faithful) (hi : g.index[(s, xs)]? = some x) :
    g.node x = { shape := s, operands := xs } :=
  node_of_getElem? (h _ x hi)

theorem push (h : g.Faithful) (n : Node) : (g.push n).Faithful := fun k x hk =>
  getElem?_push_of_some (h k x hk)

theorem extend (h : g.Faithful) (s : Shape) (xs : List NodeId) : (g.extend s xs).Faithful := by
  intro k x hk
  rw [index_extend] at hk
  split at hk
  case isTrue heq =>
    cases hk
    subst heq
    exact Array.getElem?_push_size
  case isFalse => exact h.push _ k x hk

end Faithful

theorem empty_faithful : empty.Faithful := by
  intro k x hk
  simp only [empty, Std.HashMap.getElem?_insert, Std.HashMap.getElem?_emptyWithCapacity,
    beq_iff_eq] at hk
  split at hk
  case isTrue heq =>
    cases hk
    subst heq
    rfl
  case isFalse =>
    split at hk
    case isTrue heq =>
      cases hk
      subst heq
      rfl
    case isFalse => cases hk

/-! ### Constructions -/

/-- What is added is found, and what was there is found as before. -/
structure Enlists (g g' : Graph) : Prop where
  intact : g.Intact (fun _ => False) g'
  faithful : g.Faithful → g'.Faithful
  listed : ∀ x, g.size ≤ x → x < g'.size → g'.Listed x

namespace Enlists

theorem refl (g : Graph) : g.Enlists g :=
  ⟨.refl _ g, id, fun _ hle hlt => absurd hlt (Nat.not_lt.2 hle)⟩

theorem trans (h : g.Enlists g') (h' : g'.Enlists g'') : g.Enlists g'' where
  intact := h.intact.trans h'.intact
  faithful hg := h'.faithful (h.faithful hg)
  listed x hle hlt := by
    by_cases hx : x < g'.size
    · exact (h'.intact.listed_iff hx).2 (h.listed x hle hx)
    · exact h'.listed x (Nat.le_of_not_lt hx) hlt

theorem extend (hnew : g.index[(s, xs)]? = none) : g.Enlists (g.extend s xs) where
  intact := intact_extend _ hnew
  faithful hg := hg.extend s xs
  listed x hle hlt := by
    rw [size_extend] at hlt
    obtain rfl := Nat.le_antisymm (Nat.le_of_lt_succ hlt) hle
    refine ⟨(s, xs), ?_⟩
    rw [index_extend, if_pos rfl]

theorem intern (s : Shape) (xs : List NodeId) (g : Graph) :
    g.Enlists (final (Graph.intern s xs g)) := by
  rw [intern_eq]
  cases hi : g.index[(s, xs)]? with
  | some x => exact .refl g
  | none =>
    dsimp only
    split_ifs
    · exact .refl g
    · exact extend hi
    · exact .refl g

theorem register (f : Callee) (g : Graph) : g.Enlists (final (Graph.register f g)) where
  intact := register_intact _ f g
  faithful hg := by
    change Faithful (if g.callees.contains f then g else { g with callees := g.callees.push f })
    split
    · exact hg
    · exact hg
  listed x hle hlt := by
    have hsize : (final (Graph.register f g)).size = g.size := by
      change size (if g.callees.contains f then g else { g with callees := g.callees.push f }) = _
      split <;> rfl
    exact absurd (hsize ▸ hlt) (Nat.not_lt.2 hle)

end Enlists

/-- The constructions after which all that was added is found. -/
def enlisting : Constructions where
  toClosure := .along Enlists .refl .trans
  throw _ := .refl
  get := .refl
  intern _ _ := .intern _ _
  call f xs := (Closure.along Enlists .refl .trans).bind (.register f) fun _ => .intern _ xs
  callAgain {x xs} k hcall hother := by
    intro g
    change g.Enlists (final (k g g))
    by_cases hs : ∃ f, g.shape x = .call f
    · obtain ⟨f, hf⟩ := hs
      rw [hcall g f hf]
      exact .intern _ xs g
    · exact hother g (fun f hf => hs ⟨f, hf⟩) g

/-! ### Closing -/

/-- What becomes a loop must not be found by its shape. -/
theorem faithful_close_iff (h : g.Faithful) (hx : x < g.size) (y : NodeId) (label : String) :
    (g.close x y label).Faithful ↔ ¬ g.Listed x := by
  constructor
  · rintro hc ⟨⟨s, xs⟩, hk⟩
    have hnode : (g.close x y label).node x = { shape := s, operands := xs } := hc.node_eq hk
    rw [node_close_self hx] at hnode
    cases congrArg Node.isLoop hnode
  · intro hx k z hk
    have hz : z ≠ x := by
      rintro rfl
      exact hx ⟨k, hk⟩
    rw [getElem?_close_of_ne hz]
    exact h k z hk

/-- Nothing is closed over a node that is not there. -/
theorem closeLoop_of_size_le (hy : g.size ≤ y) (x : NodeId) :
    closeLoop x y g = .error .closingUnknownNode g := by
  have hc : (g.contains x && g.contains y) = false := by
    rw [contains, contains, decide_eq_false (Nat.not_lt.2 hy), Bool.and_false]
  rw [closeLoop, get_bind, hc]
  rfl

/-- A symbol that is found at all is found by its name. -/
theorem Faithful.index_symbol (h : g.Faithful) (hg : g.WellFormed) (hx : g.Listed x)
    (hs : g.shape x = .symbol name) :
    g.index[(Shape.symbol name, ([] : List NodeId))]? = some x := by
  obtain ⟨⟨s, xs⟩, hk⟩ := hx
  have hn := h.node_eq hk
  have harity := hg.arity x
  rw [shape, operands, hn] at harity
  rw [shape, hn] at hs
  obtain rfl : s = .symbol name := hs
  obtain rfl : xs = [] := List.eq_nil_of_length_eq_zero harity
  exact hk

/-- A symbol that is found by its name is closed as a placeholder would be. -/
theorem Faithful.closeLoop_eq (h : g.Faithful) (hg : g.WellFormed) (hx : g.Listed x)
    (hs : (g.shape x).IsSymbol) (hy : y < g.size) :
    ∃ name, closeLoop x y g = .ok () (g.close x y name) := by
  obtain ⟨name, hs⟩ : ∃ name, g.shape x = .symbol name := by
    cases he : g.shape x with
    | symbol name => exact ⟨name, rfl⟩
    | _ =>
      rw [he] at hs
      exact hs.elim
  have hk := h.index_symbol hg hx hs
  exact ⟨name, Graph.closeLoop_eq (hg.index_lt_size _ x hk) hy (h.node_eq hk)⟩

/-- Exactly the closing of symbols that are found by their names makes the index unreliable. -/
theorem Action.after_faithful_iff (a : Action) (hg : g.WellFormed) (h : g.Faithful) :
    (a.after g).Faithful ↔ ¬ a.Usurps g := by
  cases a with
  | construct c => exact iff_of_true ((c.build_holds enlisting.builders g).faithful h) id
  | openLoop label =>
    refine iff_of_true ?_ id
    rw [after, Graph.openLoop, append_eq]
    split_ifs
    · exact h
    · exact h.push _
    · exact h
  | recordForm x form => exact iff_of_true h id
  | closeLoop x y =>
    rw [after]
    rcases closeLoop_cases x y g with ⟨e, he⟩ | ⟨label, hx, hs, -, he⟩
    · refine iff_of_true (by rwa [he]) ?_
      rintro ⟨hlisted, hs, hy⟩
      obtain ⟨name, hok⟩ := h.closeLoop_eq hg hlisted hs hy
      rw [he] at hok
      cases hok
    · have hy : y < g.size := by
        by_contra hy
        rw [closeLoop_of_size_le (Nat.le_of_not_lt hy)] at he
        cases he
      have hs' : (g.shape x).IsSymbol := by
        rw [hs]
        trivial
      rw [he, final, faithful_close_iff h hx]
      exact not_congr ⟨fun hl => ⟨hl, hs', hy⟩, fun hu => hu.1⟩

/-- A symbol that was closed is still what is found by its name. -/
example :
    let g := (Action.closeLoop 2 0).after ((Action.construct (.symbol "x")).after .empty)
    (g.index[(Shape.symbol "x", ([] : List NodeId))]?.map g.isLoop) = some true := by
  cbv

/-- Where the index can be relied on, what is asked for is what is given. -/
theorem Faithful.intern_node (h : g.Faithful) (hi : Graph.intern s xs g = .ok x g') :
    g'.node x = { shape := s, operands := xs } := by
  rw [intern_eq] at hi
  cases hk : g.index[(s, xs)]? with
  | some y =>
    rw [hk] at hi
    cases hi
    exact h.node_eq hk
  | none =>
    simp only [hk] at hi
    split_ifs at hi
    cases hi
    exact node_extend_self g s xs

/-! ### Runs -/

theorem Action.after_intact (a : Action) (g : Graph) :
    g.Intact (fun _ => True) (a.after g) := by
  cases a with
  | construct c => exact c.build_holds (intact _).builders g
  | openLoop label => exact openLoop_intact _ label g
  | closeLoop x y => exact closeLoop_intact trivial y g
  | recordForm x form => exact recordForm_intact _ x form g

/-- What an index has lost it does not find again. -/
theorem Action.faithful_of_after (a : Action) (hg : g.WellFormed) (h : (a.after g).Faithful) :
    g.Faithful := by
  intro k x hk
  have hx := hg.index_lt_size k x hk
  have hi := a.after_intact g
  have hn := node_of_getElem? (h k x ((hi.index_iff k x hx).2 hk))
  rcases hi.node_eq x hx with ⟨he, -⟩ | ⟨-, -, -, hl⟩
  · rw [← hn, he, node, Array.getElem?_eq_getElem hx, Option.getD_some]
  · rw [isLoop, hn] at hl
    cases hl

/-- None of the actions, one after another, closes a symbol that is found by its name. -/
def Spared : Graph → List Action → Prop
  | _, [] => True
  | g, a :: as => ¬ a.Usurps g ∧ Spared (a.after g) as

theorem faithful_of_foldl (hg : g.WellFormed) {as : List Action}
    (h : (as.foldl (fun g a => a.after g) g).Faithful) : g.Faithful := by
  induction as generalizing g with
  | nil => exact h
  | cons a as ih => exact a.faithful_of_after hg (ih (a.after_develops hg).1 h)

/-- The index can be relied on after a run exactly if no symbol was closed that it had. -/
theorem faithful_iff_spared (hg : g.WellFormed) (h : g.Faithful) (as : List Action) :
    (as.foldl (fun g a => a.after g) g).Faithful ↔ Spared g as := by
  induction as generalizing g with
  | nil => exact iff_of_true h trivial
  | cons a as ih =>
    have hg' := (a.after_develops hg).1
    rw [List.foldl_cons, Spared, ← a.after_faithful_iff hg h]
    constructor
    · intro hrun
      have h' := faithful_of_foldl hg' hrun
      exact ⟨h', (ih hg' h').1 hrun⟩
    · exact fun hs => (ih hg' hs.1).2 hs.2

/-! ### Tidy programs -/

/-- The placeholder that the action opens. -/
def Action.slots (g : Graph) : Action → List NodeId
  | openLoop label =>
    match Graph.openLoop label g with
    | .ok x _ => [x]
    | .error _ _ => []
  | _ => []

/-- The action closes nothing else than one of the given nodes. -/
def Action.ClosesIn (slots : List NodeId) : Action → Prop
  | closeLoop x _ => x ∈ slots
  | _ => True

/-- What is opened is the next node. -/
theorem Action.eq_of_mem_slots (a : Action) (hx : x ∈ a.slots g) :
    x = g.size ∧ x < (a.after g).size := by
  cases a with
  | openLoop label =>
    rw [slots, Graph.openLoop, append_eq] at hx
    rw [after, Graph.openLoop, append_eq]
    split_ifs at hx ⊢
    · cases hx
    · obtain rfl := List.mem_singleton.1 hx
      exact ⟨rfl, by rw [final, size_push]; exact Nat.lt_succ_self _⟩
    · cases hx
  | _ => cases hx

/-- Exactly what is opened is not found. -/
theorem Action.listed_iff (a : Action) (hg : g.WellFormed) (hle : g.size ≤ x)
    (hlt : x < (a.after g).size) : (a.after g).Listed x ↔ x ∉ a.slots g := by
  cases a with
  | construct c =>
    exact iff_of_true ((c.build_holds enlisting.builders g).listed x hle hlt) List.not_mem_nil
  | openLoop label =>
    rw [after, Graph.openLoop, append_eq] at hlt ⊢
    rw [slots, Graph.openLoop, append_eq]
    split_ifs at hlt ⊢
    · exact absurd hlt (Nat.not_lt.2 hle)
    · rw [final, size_push] at hlt
      obtain rfl := Nat.le_antisymm (Nat.le_of_lt_succ hlt) hle
      refine iff_of_false ?_ fun h => h (List.mem_singleton_self _)
      rintro ⟨k, hk⟩
      exact Nat.lt_irrefl _ (hg.index_lt_size k _ hk)
    · exact absurd hlt (Nat.not_lt.2 hle)
  | closeLoop y z =>
    have hsize : ((closeLoop y z).after g).size = g.size := by
      rw [after]
      rcases closeLoop_cases y z g with ⟨e, he⟩ | ⟨label, -, -, -, he⟩
      · rw [he, final]
      · rw [he, final, size_close]
    exact absurd (hsize ▸ hlt) (Nat.not_lt.2 hle)
  | recordForm y form => exact absurd hlt (Nat.not_lt.2 hle)

/-- `g'` is what actions make of `g` that close only what was opened among them, and `slots` is what
was opened. -/
inductive TidilyBecomes (g : Graph) : Graph → List NodeId → Prop
  | refl : TidilyBecomes g g []
  | act {g' : Graph} {slots : List NodeId} (h : g.TidilyBecomes g' slots) (a : Action)
      (ha : a.ClosesIn slots) : g.TidilyBecomes (a.after g') (a.slots g' ++ slots)

namespace TidilyBecomes

variable {slots slots' : List NodeId}

theorem becomes (h : g.TidilyBecomes g' slots) : g.Becomes g' := by
  induction h with
  | refl => exact .refl
  | act _ a _ ih => exact ih.act a

theorem trans (h : g.TidilyBecomes g' slots) (h' : g'.TidilyBecomes g'' slots') :
    g.TidilyBecomes g'' (slots' ++ slots) := by
  induction h' with
  | refl => exact h
  | @act g₁ slots₁ _ a ha ih =>
    rw [List.append_assoc]
    refine ih.act a ?_
    cases a with
    | closeLoop x y => exact List.mem_append_left slots ha
    | _ => trivial

theorem slots_bounds (h : g.TidilyBecomes g' slots) (hg : g.WellFormed) (hx : x ∈ slots) :
    g.size ≤ x ∧ x < g'.size := by
  induction h with
  | refl => cases hx
  | @act g₁ slots₁ h a _ ih =>
    have hle := (h.becomes.develops hg).2.size_le
    rcases List.mem_append.1 hx with hx | hx
    · obtain ⟨rfl, hlt⟩ := a.eq_of_mem_slots hx
      exact ⟨hle, hlt⟩
    · obtain ⟨hle, hlt⟩ := ih hx
      exact ⟨hle, (a.after_intact g₁).lt_size hlt⟩

/-- Of the nodes that are new, exactly those are not found that were opened. -/
theorem listed_iff (h : g.TidilyBecomes g' slots) (hg : g.WellFormed) (hle : g.size ≤ x)
    (hlt : x < g'.size) : g'.Listed x ↔ x ∉ slots := by
  induction h with
  | refl => exact absurd hlt (Nat.not_lt.2 hle)
  | @act g₁ slots₁ h a _ ih =>
    have hg₁ := (h.becomes.develops hg).1
    rw [List.mem_append, not_or]
    by_cases hx : x < g₁.size
    · have hnew : x ∉ a.slots g₁ := fun hmem =>
        Nat.ne_of_lt hx (a.eq_of_mem_slots hmem).1
      rw [(a.after_intact g₁).listed_iff hx, ih hx, and_iff_right hnew]
    · have hold : x ∉ slots₁ := fun hmem => hx (h.slots_bounds hg hmem).2
      rw [a.listed_iff hg₁ (Nat.le_of_not_lt hx) hlt, and_iff_left hold]

/-- Programs that close what they have opened, and nothing else, keep the index right. -/
theorem faithful (h : g.TidilyBecomes g' slots) (hg : g.WellFormed) (hf : g.Faithful) :
    g'.Faithful := by
  induction h with
  | refl => exact hf
  | @act g₁ slots₁ h a ha ih =>
    rw [a.after_faithful_iff (h.becomes.develops hg).1 ih]
    cases a with
    | closeLoop x y =>
      rintro ⟨hlisted, -, -⟩
      obtain ⟨hle, hlt⟩ := h.slots_bounds hg ha
      exact (h.listed_iff hg hle hlt).1 hlisted ha
    | _ => exact id

/-- What is neither an open slot nor a symbol that is found by its name is refused, and nothing
changes. -/
theorem closeLoop_cases (h : empty.TidilyBecomes g slots) (x y : NodeId) :
    (∃ e, closeLoop x y g = .error e g) ∨ (x ∈ slots ∧ g.isLoop x = false) ∨
      ∃ name, g.index[(Shape.symbol name, ([] : List NodeId))]? = some x := by
  rcases Graph.closeLoop_cases x y g with he | ⟨label, hx, hs, hl, -⟩
  · exact .inl he
  right
  by_cases hmem : x ∈ slots
  · exact .inl ⟨hmem, hl⟩
  right
  have hg := (h.becomes.develops empty_wellFormed).1
  have hlisted : g.Listed x := by
    apply (h.listed_iff empty_wellFormed _ hx).2 hmem
    by_contra hlt
    -- The constants that are there from the start are no symbols.
    match x, Nat.lt_of_not_le hlt with
    | 0, _ => cases (congrArg Node.shape hg.node_zero).symm.trans hs
    | 1, _ => cases (congrArg Node.shape hg.node_one).symm.trans hs
  exact ⟨label, (h.faithful empty_wellFormed empty_faithful).index_symbol hg hlisted hs⟩

/-- Every node is read back from memory with the operands for which it is found, as long as the
operands of all nodes together are fewer than `2 ^ 32`. -/
theorem stored (h : empty.TidilyBecomes g slots) (hsmall : g.placedOperands.length < Storage.words) :
    ∃ m, Stores g m ∧ ∀ (k : Shape × List NodeId) x, g.index[k]? = some x →
      m.node x = { shape := k.1, operands := k.2 } := by
  obtain ⟨m, hm, hnode⟩ := h.becomes.stored
  refine ⟨m, hm, fun k x hk => ?_⟩
  rw [hnode hsmall x]
  exact (h.faithful empty_wellFormed empty_faithful).node_eq hk

end TidilyBecomes

/-- The course of programs that close what they open. -/
def tidy : Course where
  Leads g g' := ∃ slots, g.TidilyBecomes g' slots
  refl _ := ⟨[], .refl⟩
  trans := fun ⟨_, h⟩ ⟨_, h'⟩ => ⟨_, h.trans h'⟩
  construct c _ := ⟨_, TidilyBecomes.refl.act (.construct c) trivial⟩

/-- What was opened may be closed over whatever is built. -/
theorem TidilyBecomes.closing {slots : List NodeId} (h : g.TidilyBecomes g' slots) (hx : x ∈ slots)
    {m : Build NodeId} (hm : tidy.builders.Holds m) :
    tidy.Leads g (final ((do
      let content ← m
      closeLoop x content
      return x) g')) := by
  obtain ⟨slots', hcontent⟩ := hm g'
  simp only [bind, EStateM.bind]
  cases hb : m g' with
  | error e g'' =>
    rw [hb] at hcontent
    exact ⟨_, h.trans hcontent⟩
  | ok content g'' =>
    rw [hb] at hcontent
    have hclose : g.TidilyBecomes (final (closeLoop x content g'')) _ :=
      (h.trans hcontent).act (.closeLoop x content) (List.mem_append_right slots' hx)
    simp only
    cases hc : closeLoop x content g'' <;> rw [hc] at hclose <;> exact ⟨_, hclose⟩

theorem loop_tidy (label : String) {body : NodeId → Build NodeId}
    (hbody : ∀ slot, tidy.builders.Holds (body slot)) :
    tidy.builders.Holds (do
      let slot ← openLoop label
      let content ← body slot
      closeLoop slot content
      return slot) := by
  intro g
  have hopen : g.TidilyBecomes _ _ := TidilyBecomes.refl.act (.openLoop label) trivial
  rw [Action.after, Action.slots] at hopen
  change tidy.Leads g (final (EStateM.bind (openLoop label) _ g))
  rw [EStateM.bind]
  cases he : openLoop label g with
  | error e g' =>
    rw [he] at hopen
    exact ⟨_, hopen⟩
  | ok slot g' =>
    rw [he] at hopen
    have hslot : g.TidilyBecomes g' ([slot] ++ []) := hopen
    exact hslot.closing (List.mem_singleton_self slot) (hbody slot)

end Graph

open ExactAlgebra.Graph (tidy)

/-- A library whose functions of expressions close what they open, and nothing else. -/
def Library.Tidy (library : Library) : Prop :=
  ∀ f accepts run, library f = .direct accepts run → ∀ xs, tidy.builders.Holds (run xs)

namespace Evaluation

theorem canonicalLoop_tidy (x body : NodeId) : tidy.builders.Holds (canonicalLoop x body) :=
  canonicalLoop_holds tidy.builders (fun name x body =>
    Graph.loop_tidy name fun slot => Graph.substitute_leads tidy [(x, slot)] body) x body

end Evaluation

/-- Evaluation is tidy, and so keeps the index right. -/
theorem Library.Tidy.evaluates {library : Library} (hlib : library.Tidy) :
    tidy.Evaluates library where
  direct hf := hlib _ _ _ hf
  canonicalLoop := Evaluation.canonicalLoop_tidy
  recordForm x form _ := ⟨_, Graph.TidilyBecomes.refl.act (.recordForm x form) trivial⟩

theorem Library.Tidy.evaluateIn_faithful {library : Library} (hlib : library.Tidy) (depth : Nat)
    (x : NodeId) {run : Run Journal} (hg : run.pass.graph.WellFormed)
    (hf : run.pass.graph.Faithful) :
    (final (evaluateIn library depth x run)).pass.graph.Faithful := by
  obtain ⟨slots, h⟩ := hlib.evaluates.evaluateIn_leads depth x run
  exact h.faithful hg hf

end ExactAlgebra
