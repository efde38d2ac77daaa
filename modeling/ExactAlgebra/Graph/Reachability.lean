import ExactAlgebra.Graph.Basic

/-!
Whether a node occurs in another one, self-referential nodes not being entered. The node met last is
looked at next, and no node is entered twice.
-/

namespace ExactAlgebra

/-- A search under way: the nodes that were entered, and those that wait, the next one in front. -/
structure Search where
  seen : List NodeId
  pending : List NodeId

namespace Search

def start (x : NodeId) : Search := ⟨[], [x]⟩

/-- One round of a search: its answer, or the search as it goes on. -/
def advance (g : Graph) (target : NodeId) (s : Search) : Bool ⊕ Search :=
  match s.pending with
  | [] => .inl false
  | x :: pending =>
    if x = target then .inl true
    else if g.isLoop x || s.seen.contains x then .inr ⟨s.seen, pending⟩
    else .inr ⟨x :: s.seen, (g.operands x).reverse ++ pending⟩

/-- A node that is passed over when its turn comes. -/
def Shuts (g : Graph) (s : Search) (x : NodeId) : Prop := g.isLoop x = true ∨ x ∈ s.seen

variable {g : Graph} {target x : NodeId} {s s' : Search} {seen xs : List NodeId}

/-- A search goes on by passing over the node in front, or by entering it. -/
theorem advance_cases (h : s.advance g target = .inr s') :
    ∃ x pending, s.pending = x :: pending ∧ x ≠ target ∧
      ((s.Shuts g x ∧ s' = ⟨s.seen, pending⟩) ∨
        (¬ s.Shuts g x ∧ s' = ⟨x :: s.seen, (g.operands x).reverse ++ pending⟩)) := by
  rw [advance] at h
  cases hp : s.pending with
  | nil => simp [hp] at h
  | cons x pending =>
    simp only [hp] at h
    split at h
    · cases h
    · rename_i hx
      have hshuts : s.Shuts g x ↔ (g.isLoop x || s.seen.contains x) = true := by
        rw [Shuts, Bool.or_eq_true, List.contains_iff_mem]
      refine ⟨x, pending, rfl, hx, ?_⟩
      split at h <;> rename_i hc <;> cases h
      · exact .inl ⟨hshuts.2 hc, rfl⟩
      · exact .inr ⟨fun h => hc (hshuts.1 h), rfl⟩

/-! ### Every search comes to an end -/

/-- How many nodes come to wait if a node is entered. -/
def load (g : Graph) (seen : List NodeId) (x : NodeId) : Nat :=
  if x ∈ seen then 0 else (g.operands x).length

/-- How many nodes come to wait if all in a list are entered. -/
def unexplored (g : Graph) (seen : List NodeId) : List NodeId → Nat
  | [] => 0
  | x :: xs => load g seen x + unexplored g seen xs

/-- A bound for how many nodes are still to be looked at. -/
def remaining (g : Graph) (s : Search) : Nat :=
  unexplored g s.seen (List.range g.size) + s.pending.length

theorem load_cons_self : load g (x :: seen) x = 0 := if_pos List.mem_cons_self

theorem load_cons_le (g : Graph) (seen : List NodeId) (x y : NodeId) :
    load g (x :: seen) y ≤ load g seen y := by
  unfold load
  by_cases hy : y ∈ seen
  · simp [hy]
  · rw [if_neg hy]
    split
    · exact Nat.zero_le _
    · exact Nat.le_refl _

theorem unexplored_cons_le (g : Graph) (seen : List NodeId) (x : NodeId) (xs : List NodeId) :
    unexplored g (x :: seen) xs ≤ unexplored g seen xs := by
  induction xs with
  | nil => exact Nat.le_refl _
  | cons y ys ih => exact Nat.add_le_add (load_cons_le g seen x y) ih

theorem unexplored_cons_add_le (hx : x ∈ xs) (hs : x ∉ seen) :
    unexplored g (x :: seen) xs + (g.operands x).length ≤ unexplored g seen xs := by
  induction hx with
  | head ys =>
    have hrest := unexplored_cons_le g seen x ys
    have hown : load g seen x = (g.operands x).length := if_neg hs
    rw [unexplored, unexplored, load_cons_self, hown]
    omega
  | tail y _ ih =>
    have hown := load_cons_le g seen x y
    rw [unexplored, unexplored]
    omega

/-- A node that is entered uses its operands up; one that is not in the graph has none. -/
theorem unexplored_enter (hs : x ∉ seen) :
    unexplored g (x :: seen) (List.range g.size) + (g.operands x).length ≤
      unexplored g seen (List.range g.size) := by
  by_cases hx : x < g.size
  · exact unexplored_cons_add_le (List.mem_range.2 hx) hs
  · have hops : g.operands x = [] := by
      rw [Graph.operands, Graph.node, Array.getElem?_eq_none (Nat.le_of_not_lt hx)]
      rfl
    rw [hops]
    exact unexplored_cons_le g seen x _

theorem remaining_lt (h : s.advance g target = .inr s') : s'.remaining g < s.remaining g := by
  obtain ⟨x, pending, hp, -, ⟨-, rfl⟩ | ⟨hx, rfl⟩⟩ := advance_cases h
  · simp [remaining, hp]
  · have hle := unexplored_enter (g := g) fun hs => hx (.inr hs)
    simp only [remaining, hp, List.length_append, List.length_reverse, List.length_cons]
    omega

/-- Round after round, until there is an answer. -/
def run (g : Graph) (target : NodeId) (s : Search) : Bool :=
  match _h : s.advance g target with
  | .inl found => found
  | .inr next => next.run g target
termination_by s.remaining g
decreasing_by exact remaining_lt _h

end Search

namespace Graph

/-- Whether `target` is `x` or occurs in it. -/
def occurs (g : Graph) (target x : NodeId) : Bool := (Search.start x).run g target

/-- Whether two nodes have one shape and the same operands, in any order for sums and products. -/
def sameStructure (g : Graph) (a b : NodeId) : Bool :=
  g.shape a == g.shape b &&
    match g.shape a with
    | .sum | .product => (g.operands a).mergeSort == (g.operands b).mergeSort
    | _ => g.operands a == g.operands b

end Graph

end ExactAlgebra
