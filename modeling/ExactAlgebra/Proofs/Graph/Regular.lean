import ExactAlgebra.Proofs.Graph.Course
import ExactAlgebra.Proofs.Graph.Elementary
import ExactAlgebra.Proofs.Graph.Gathering

/-!
The shape in which graphs keep sums, products and powers, whatever is done with them. No sum is an
operand of a sum, no product one of a product, and neither are neutral constants. What refers to
itself is left out of account, since the structure of a placeholder is not known until it is closed.
-/

namespace ExactAlgebra.Graph

variable {V : Vocabulary} {g g' : Graph} {s : Shape} {xs ys : List NodeId} {x y : NodeId}

/-- No node refers to itself. -/
def LoopFree (g : Graph) : Prop := ∀ x, g.isLoop x = false

/-- The operands over which nodes of a shape are kept. -/
structure Admits (g : Graph) (s : Shape) (xs : List NodeId) : Prop where
  two_le : ∀ k : Gathering, s = k.shape → 2 ≤ xs.length
  gathered : ∀ k : Gathering, s = k.shape → ∀ x ∈ xs,
    x ≠ zero ∧ x ≠ k.unit ∧ k.opens (g.node x) = false
  exponent : s = .power → ∀ x, xs ≠ [x, one]

/-- A graph in which all nodes that are no loops have the operands that they should have. Canonical
order is lost when placeholders are closed, except in expressions without any loop. -/
structure Regular (g : Graph) : Prop extends WellFormed g where
  admits : ∀ x, g.isLoop x = false → g.Admits (g.shape x) (g.operands x)
  sorted : ∀ {V : Vocabulary} {x}, g.Elementary V x → g.Sorted (g.operands x) (g.shape x)

namespace Admits

theorem of_verbatim (hs : s.IsVerbatim) : g.Admits s xs where
  two_le _ hk := absurd (hk ▸ hs) Gathering.not_isVerbatim
  gathered _ hk := absurd (hk ▸ hs) Gathering.not_isVerbatim
  exponent hk := by
    rw [hk] at hs
    exact hs.elim

theorem of_call (f : Callee) : g.Admits (.call f) xs where
  two_le _ hk := absurd hk.symm (Gathering.shape_ne_call f)
  gathered _ hk := absurd hk.symm (Gathering.shape_ne_call f)
  exponent := Shape.noConfusion

theorem of_power (hy : y ≠ one) : g.Admits .power [x, y] where
  two_le _ hk := absurd hk.symm Gathering.shape_ne_power
  gathered _ hk := absurd hk.symm Gathering.shape_ne_power
  exponent _ z hz := by
    injection hz with _ hz
    injection hz with hz
    exact hy hz

theorem of_gathering {k : Gathering} (hlen : 2 ≤ xs.length)
    (hxs : ∀ x ∈ xs, x ≠ zero ∧ x ≠ k.unit ∧ k.opens (g.node x) = false) :
    g.Admits k.shape xs where
  two_le _ _ := hlen
  gathered _ hk := Gathering.shape_injective hk ▸ hxs
  exponent hk := absurd hk Gathering.shape_ne_power

/-- What becomes self-referential is left out of account. -/
theorem evolve (h : g.Admits s xs) (hx : g.Evolves g') (hxs : ∀ x ∈ xs, x < g.size) :
    g'.Admits s xs where
  two_le := h.two_le
  gathered k hk x hmem := by
    obtain ⟨hzero, hunit, hopens⟩ := h.gathered k hk x hmem
    refine ⟨hzero, hunit, ?_⟩
    rcases hx.node_eq x (hxs x hmem) with he | ⟨-, hl⟩
    · rw [he, hopens]
    · rw [Bool.eq_false_iff]
      intro ho
      rw [(Gathering.opens_iff.1 ho).2] at hl
      cases hl
  exponent := h.exponent

end Admits

theorem empty_regular : empty.Regular := by
  have hverbatim : ∀ x, (empty.shape x).IsVerbatim := by
    intro x
    match x with
    | 0 | 1 => trivial
    | x + 2 =>
      rw [shape, node_of_size_le (Nat.le_add_left 2 x)]
      trivial
  exact ⟨empty_wellFormed, fun x _ => .of_verbatim (hverbatim x),
    fun {_ x} _ => .of_verbatim (hverbatim x)⟩

namespace Regular

/-- An expression without any loop was such an expression before, and so was in order. -/
theorem sorted_develops (hg : g.Regular) (hd : g.Develops g') (hx : g'.Elementary V x)
    (hlt : x < g.size) : g'.Sorted (g'.operands x) (g'.shape x) := by
  have hagree := (hd.retains_openIn V).agree hg.toWellFormed
  have hx' := hd.elementary_of hg.toWellFormed hx.openIn hlt
  rw [hagree.shape_eq hx', hagree.operands_eq hx']
  exact hagree.sorted hx'.operands (hg.sorted hx')

/-- Nothing but new nodes has to be looked at when a graph develops. -/
theorem develop (hg : g.Regular) (hd : g.Develops g') (hg' : g'.WellFormed)
    (hnew : ∀ x, g.size ≤ x → x < g'.size →
      g'.Admits (g'.shape x) (g'.operands x) ∧ g'.Sorted (g'.operands x) (g'.shape x)) :
    g'.Regular where
  toWellFormed := hg'
  admits x hl := by
    by_cases hlt : x < g.size
    · have he := hd.node_eq_of_not_isLoop hlt hl
      rw [isLoop, he] at hl
      have hold := hg.admits x hl
      rw [shape, operands, he]
      exact hold.evolve hd.toEvolves (hg.operands_lt_size x)
    · by_cases hlt' : x < g'.size
      · exact (hnew x (Nat.le_of_not_lt hlt) hlt').1
      · rw [shape, node_of_size_le (Nat.le_of_not_lt hlt')]
        exact .of_verbatim trivial
  sorted {V x} hx := by
    by_cases hlt : x < g.size
    · exact hg.sorted_develops hd hx hlt
    · exact (hnew x (Nat.le_of_not_lt hlt) hx.lt_size).2

theorem extend_same (hg : g.Regular) (hx : g.Extends g') (hg' : g'.WellFormed)
    (hsize : g'.size = g.size) : g'.Regular :=
  hg.develop hx.develops hg' fun _ hle hlt => absurd hlt (Nat.not_lt.2 (hsize ▸ hle))

/-- A node that was not there before joins the others. -/
theorem add (hg : g.Regular) (hx : g.Extends g') (hg' : g'.WellFormed)
    (hsize : g'.size = g.size + 1) (hnode : g'.node g.size = { shape := s, operands := xs })
    (hxs : ∀ y ∈ xs, y < g.size) (hadmits : g.Admits s xs) (hsorted : g.Sorted xs s) :
    g'.Regular := by
  apply hg.develop hx.develops hg'
  intro x hle hlt
  rw [hsize] at hlt
  obtain rfl := Nat.le_antisymm (Nat.le_of_lt_succ hlt) hle
  rw [shape, operands, hnode]
  exact ⟨hadmits.evolve hx.evolves hxs, hx.sorted hg.toWellFormed hxs hsorted⟩

theorem intern (hg : g.Regular) (hcall : ∀ f, s = .call f → f ∈ g.callees)
    (harity : s.Allows xs.length) (hadmits : g.Admits s xs) (hsorted : g.Sorted xs s) :
    (final (intern s xs g)).Regular := by
  rw [intern_eq]
  cases hi : g.index[(s, xs)]? with
  | some x => exact hg
  | none =>
    dsimp only
    by_cases hc : capacity ≤ g.size
    · rw [if_pos hc]
      exact hg
    rw [if_neg hc]
    by_cases hall : xs.all (· < g.size)
    · rw [if_pos hall]
      have hxs : ∀ y ∈ xs, y < g.size := fun y hy =>
        of_decide_eq_true (List.all_eq_true.1 hall y hy)
      exact hg.add (growsTo_extend g s xs).toExtends
        (hg.toWellFormed.extend ⟨hxs, hcall, harity⟩ hi) (size_extend g s xs)
        (node_extend_self g s xs) hxs hadmits hsorted
    · rw [if_neg hall]
      exact hg

/-- What is kept of operands may be operands. -/
theorem flatten (hg : g.Regular) (k : Gathering) (xs : List NodeId) :
    ∀ y ∈ k.flatten g xs, y ≠ k.unit ∧ k.opens (g.node y) = false := by
  intro y hy
  obtain ⟨⟨x, -, hy⟩, hvalue⟩ := Gathering.mem_flatten.1 hy
  constructor
  · rintro rfl
    rw [Gathering.hasValue_unit hg.toWellFormed] at hvalue
    cases hvalue
  · cases ho : k.opens (g.node x) with
    | true =>
      obtain ⟨hs, hl⟩ := Gathering.opens_iff.1 ho
      rw [Gathering.parts_of_opens ho] at hy
      exact ((hg.admits x hl).gathered k hs y hy).2.2
    | false =>
      rw [Gathering.parts_of_not_opens ho, List.mem_singleton] at hy
      exact hy ▸ ho

theorem build (hg : g.Regular) (k : Gathering) (xs : List NodeId) :
    (final (k.build xs g)).Regular := by
  have hmem := hg.flatten k xs
  rw [Gathering.build_eq]
  split_ifs with hany
  · exact hg
  have hzero : ∀ y ∈ k.flatten g xs, y ≠ zero := by
    rintro y hy rfl
    exact hany (List.any_eq_true.2 ⟨zero, hy, Gathering.hasValue_unit hg.toWellFormed .sum⟩)
  match hxs : k.flatten g xs with
  | [] => exact hg
  | [x] => exact hg
  | x :: y :: ys =>
    rw [hxs] at hmem hzero
    have hperm := List.mergeSort_perm (x :: y :: ys) (k.le g)
    apply hg.intern (fun f hf => absurd hf (Gathering.shape_ne_call f)) (Gathering.allows _)
    · apply Admits.of_gathering
      · rw [hperm.length_eq]
        exact Nat.le_add_left 2 _
      · intro z hz
        have hz := hperm.mem_iff.1 hz
        exact ⟨hzero z hz, hmem z hz⟩
    · exact Gathering.sorted_shape_iff.2 (Gathering.pairwise_mergeSort hg.toWellFormed _)

theorem power (hg : g.Regular) (x y : NodeId) : (final (power x y g)).Regular := by
  rw [Graph.power, get_bind]
  split_ifs with hone
  · exact hg
  · refine hg.intern (fun _ => Shape.noConfusion) (by exact rfl) (.of_power ?_) trivial
    rintro rfl
    exact hone (Gathering.hasValue_unit hg.toWellFormed .product)

theorem call (hg : g.Regular) (f : Callee) (xs : List NodeId) :
    (final (call f xs g)).Regular := by
  have heq : Graph.call f xs g = Graph.intern (.call f) xs
      (if g.callees.contains f then g else { g with callees := g.callees.push f }) := rfl
  rw [heq]
  split_ifs with hf
  · refine hg.intern ?_ trivial (.of_call f) trivial
    rintro f' ⟨⟩
    simpa using hf
  · have hpush : { g with callees := g.callees.push f }.Regular :=
      hg.extend_same (growsTo_callees_push g f).toExtends (hg.toWellFormed.callees_push f) rfl
    refine hpush.intern ?_ trivial (.of_call f) trivial
    rintro f' ⟨⟩
    exact Array.mem_push_self

theorem close (hg : g.Regular) (hx : x < g.size) (hs : (g.shape x).IsSymbol) (y : NodeId)
    (label : String) : (g.close x y label).Regular := by
  apply hg.develop (develops_close hx hs y label) (hg.toWellFormed.close hx hs y label)
  intro z hle hlt
  rw [size_close] at hlt
  exact absurd hlt (Nat.not_lt.2 hle)

end Regular

/-! ### Actions -/

/-- The constructions that keep graphs regular. -/
def regularizing : Builders where
  toClosure := .along (fun g g' => g.Regular → g'.Regular) (fun _ => id) fun h h' => h' ∘ h
  throw _ _ := id
  get _ := id
  intern hs harity _ hg :=
    hg.intern (fun _ hf => by rw [hf] at hs; exact hs.elim) harity (.of_verbatim hs)
      (.of_verbatim hs)
  sum ts _ hg := hg.build .sum ts
  product fs _ hg := hg.build .product fs
  power x y _ hg := hg.power x y
  call f xs _ hg := hg.call f xs
  callAgain {x xs k} hcall hother g hg := by
    change (final (k g g)).Regular
    by_cases hs : ∃ f, g.shape x = .call f
    · obtain ⟨f, hf⟩ := hs
      rw [hcall g f hf]
      refine hg.intern ?_ trivial (.of_call f) trivial
      rintro f' ⟨⟩
      exact hg.callee_mem x f hf
    · exact hother g (fun f hf => hs ⟨f, hf⟩) g hg

theorem Action.after_regular (a : Action) (hg : g.Regular) : (a.after g).Regular := by
  have hwf := (a.after_develops hg.toWellFormed).1
  cases a with
  | construct c => exact c.build_holds regularizing g hg
  | openLoop label =>
    rw [Action.after, Graph.openLoop, append_eq] at hwf ⊢
    split_ifs at hwf ⊢
    · exact hg
    · have hx := growsTo_push g (n := { shape := .symbol label }) rfl
      exact hg.add hx.toExtends hwf (size_push g _) (node_push_self g _)
        (fun _ hy => absurd hy List.not_mem_nil) (.of_verbatim trivial) trivial
    · exact hg
  | closeLoop x y =>
    rw [Action.after]
    rcases closeLoop_cases x y g with ⟨e, he⟩ | ⟨label, hx, hs, -, he⟩
    · rw [he]
      exact hg
    · rw [he]
      refine hg.close hx ?_ y label
      rw [hs]
      trivial
  | recordForm x y =>
    exact hg.extend_same ⟨Nat.le_refl _, fun _ _ => rfl, List.prefix_rfl⟩ hwf rfl

theorem Becomes.regular (h : g.Becomes g') (hg : g.Regular) : g'.Regular := by
  induction h with
  | refl => exact hg
  | act _ a ih => exact a.after_regular ih

end ExactAlgebra.Graph
