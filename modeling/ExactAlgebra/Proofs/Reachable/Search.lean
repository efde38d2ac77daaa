import ExactAlgebra.Proofs.Reachable.Basic

/-!
The search for a node is exact: it ends, and it finds the node if and only if a path through
operands leads there on which no node before the last is self-referential. Every round keeps whether
the node can still be reached from those that wait, through nodes that are still to be entered.
-/

namespace ExactAlgebra

variable {g : Graph} {avoided avoided' : NodeId → Prop} {x y target : NodeId} {s s' : Search}
variable {pending ys : List NodeId} {found : Bool} {rounds : Nat}

namespace Graph

/-- A path through operands to `target`, on which no node before the last is one to be avoided. -/
inductive Path (g : Graph) (avoided : NodeId → Prop) (target : NodeId) : NodeId → Prop
  | here : Path g avoided target target
  | step {x y : NodeId} (hx : ¬ avoided x) (hy : y ∈ g.operands x) (h : Path g avoided target y) :
    Path g avoided target x

/-- `target` is `x` or occurs in it, with no self-referential node entered on the way. -/
def OpenPath (g : Graph) (x target : NodeId) : Prop :=
  g.Path (fun y => g.isLoop y = true) target x

namespace Path

theorem mono (h : g.Path avoided target x) (hle : ∀ y, avoided' y → avoided y) :
    g.Path avoided' target x := by
  induction h with
  | here => exact .here
  | step hx hy _ ih => exact .step (fun hx' => hx (hle _ hx')) hy ih

theorem eq_of_avoided (h : g.Path avoided target x) (hx : avoided x) : x = target := by
  cases h with
  | here => rfl
  | step hx' => exact absurd hx hx'

/-- If one more node `y` is to be avoided, a path does so already, or there is one that does from an
operand of `y`. -/
theorem detour (h : g.Path avoided target x) (hle : ∀ z, avoided' z → avoided z ∨ z = y) :
    g.Path avoided' target x ∨ ∃ z ∈ g.operands y, g.Path avoided' target z := by
  -- The induction comes from the end of the path, and so meets the last visit of `y` first.
  induction h with
  | here => exact .inl .here
  | @step x z hx hz _ ih =>
    cases ih with
    | inr hfrom => exact .inr hfrom
    | inl hrest =>
      by_cases hxy : x = y
      · exact .inr ⟨z, hxy ▸ hz, hrest⟩
      · have hx' : ¬ avoided' x := fun h => (hle x h).elim hx hxy
        exact .inl (.step hx' hz hrest)

end Path

end Graph

namespace Search

/-- The target can be reached from a node that waits, through nodes that are still to be entered. -/
def Hopeful (g : Graph) (target : NodeId) (s : Search) : Prop :=
  ∃ x ∈ s.pending, g.Path (s.Shuts g) target x

/-- The search goes on for so many rounds, and then has its answer. -/
inductive Ends (g : Graph) (target : NodeId) : Nat → Search → Bool → Prop
  | answer {s : Search} {found : Bool} (h : s.advance g target = .inl found) :
    Ends g target 0 s found
  | round {s s' : Search} {found : Bool} {rounds : Nat} (h : s.advance g target = .inr s')
    (hs' : Ends g target rounds s' found) : Ends g target (rounds + 1) s found

/-! ### One round -/

/-- A search is over when no node waits, or the target is in front. -/
theorem advance_answers (h : s.advance g target = .inl found) :
    (s.pending = [] ∧ found = false) ∨
      (∃ pending, s.pending = target :: pending ∧ found = true) := by
  rw [advance] at h
  cases hp : s.pending with
  | nil =>
    simp only [hp, Sum.inl.injEq] at h
    exact .inl ⟨rfl, h.symm⟩
  | cons x pending =>
    simp only [hp] at h
    split at h
    · rename_i hx
      exact .inr ⟨pending, hx ▸ rfl, (Sum.inl.inj h).symm⟩
    · split at h <;> cases h

theorem hopeful_iff_of_answer (h : s.advance g target = .inl found) :
    s.Hopeful g target ↔ found = true := by
  obtain ⟨hp, rfl⟩ | ⟨pending, hp, rfl⟩ := advance_answers h
  · simp [Hopeful, hp]
  · have hhopeful : s.Hopeful g target := ⟨target, by simp [hp], .here⟩
    exact iff_of_true hhopeful rfl

/-- From a node that is passed over no path goes on. -/
theorem hopeful_pass (hp : s.pending = x :: pending) (hx : x ≠ target) (hshut : s.Shuts g x) :
    (⟨s.seen, pending⟩ : Search).Hopeful g target ↔ s.Hopeful g target := by
  constructor
  · intro ⟨y, hy, h⟩
    exact ⟨y, hp ▸ List.mem_cons_of_mem x hy, h⟩
  · intro ⟨y, hy, h⟩
    rw [hp] at hy
    cases hy with
    | head => exact absurd (h.eq_of_avoided hshut) hx
    | tail _ hy => exact ⟨y, hy, h⟩

theorem shuts_enter : (⟨x :: s.seen, ys⟩ : Search).Shuts g y ↔ s.Shuts g y ∨ y = x := by
  rw [Shuts, Shuts, List.mem_cons, or_comm (a := y = x), or_assoc]

/-- A path through the node that is entered goes on from one of its operands, which now wait. -/
theorem hopeful_enter (hp : s.pending = x :: pending) (hx : x ≠ target) (hshut : ¬ s.Shuts g x) :
    (⟨x :: s.seen, (g.operands x).reverse ++ pending⟩ : Search).Hopeful g target ↔
      s.Hopeful g target := by
  constructor
  · intro ⟨y, hy, h⟩
    have hold : g.Path (s.Shuts g) target y := h.mono fun z hz => shuts_enter.2 (.inl hz)
    cases List.mem_append.1 hy with
    | inl hy => exact ⟨x, by simp [hp], .step hshut (List.mem_reverse.1 hy) hold⟩
    | inr hy => exact ⟨y, hp ▸ List.mem_cons_of_mem x hy, hold⟩
  · intro ⟨y, hy, h⟩
    cases h.detour fun z => shuts_enter.1 with
    | inr hfrom =>
      obtain ⟨z, hz, hpath⟩ := hfrom
      exact ⟨z, List.mem_append_left _ (List.mem_reverse.2 hz), hpath⟩
    | inl hpath =>
      rw [hp] at hy
      cases hy with
      | head => exact absurd (hpath.eq_of_avoided (shuts_enter.2 (.inr rfl))) hx
      | tail _ hy => exact ⟨y, List.mem_append_right _ hy, hpath⟩

theorem hopeful_iff_of_advance (h : s.advance g target = .inr s') :
    s'.Hopeful g target ↔ s.Hopeful g target := by
  obtain ⟨x, pending, hp, hx, ⟨hshut, rfl⟩ | ⟨hshut, rfl⟩⟩ := advance_cases h
  · exact hopeful_pass hp hx hshut
  · exact hopeful_enter hp hx hshut

/-! ### All rounds -/

theorem Ends.hopeful_iff (h : Ends g target rounds s found) :
    s.Hopeful g target ↔ found = true := by
  induction h with
  | answer h => exact hopeful_iff_of_answer h
  | round h _ ih => exact (hopeful_iff_of_advance h).symm.trans ih

theorem exists_ends (g : Graph) (target : NodeId) (s : Search) :
    ∃ rounds ≤ s.remaining g, Ends g target rounds s (s.run g target) := by
  induction s using run.induct g target with
  | case1 s found h =>
    rw [run, h]
    exact ⟨0, Nat.zero_le _, .answer h⟩
  | case2 s s' h ih =>
    obtain ⟨rounds, hle, hends⟩ := ih
    have hlt := remaining_lt h
    rw [run, h]
    exact ⟨rounds + 1, by omega, .round h hends⟩

theorem hopeful_start : (start x).Hopeful g target ↔ g.OpenPath x target := by
  have hshuts : (start x).Shuts g = fun y => g.isLoop y = true := by
    funext y
    simp [Shuts, start]
  rw [Hopeful, hshuts]
  simp [Graph.OpenPath, start]

end Search

namespace Graph

/-- How many operands the nodes of a graph have. -/
def operandCount (g : Graph) : Nat := ((List.range g.size).map fun x => (g.operands x).length).sum

theorem unexplored_nil (g : Graph) (xs : List NodeId) :
    Search.unexplored g [] xs = (xs.map fun x => (g.operands x).length).sum := by
  induction xs with
  | nil => rfl
  | cons x xs ih => simp [Search.unexplored, Search.load, ih]

theorem remaining_start : (Search.start x).remaining g = g.operandCount + 1 := by
  rw [Search.remaining, Search.start, unexplored_nil, operandCount, List.length_singleton]

/--
In every graph, whatever its cycles, the search for a node ends: it goes on for at most one round
more than there are operands. It finds the node if and only if a path through operands leads there on
which no node before the last is self-referential.
-/
theorem occurs_exact (g : Graph) (x target : NodeId) :
    (∃ rounds ≤ g.operandCount + 1,
      Search.Ends g target rounds (Search.start x) (g.occurs target x)) ∧
    (g.occurs target x = true ↔ g.OpenPath x target) := by
  obtain ⟨rounds, hle, hends⟩ := Search.exists_ends g target (.start x)
  rw [remaining_start] at hle
  have hfound : g.occurs target x = true ↔ g.OpenPath x target :=
    hends.hopeful_iff.symm.trans Search.hopeful_start
  exact ⟨⟨rounds, hle, hends⟩, hfound⟩

-- The set of `t` and `a` has `s` in it only through `t`, which is not entered.
example : entwined.occurs 2 5 = false := by cbv

end Graph

end ExactAlgebra
