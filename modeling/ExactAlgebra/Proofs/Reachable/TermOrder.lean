import Mathlib
import ExactAlgebra.Proofs.Collection.Totals
import ExactAlgebra.Proofs.Reachable.Repetition

/-!
Like terms are combined in any order. The coefficients of a bare term add up to the same whenever
they are met, and what is left of the order in which bare terms were first met is lost when the sum
is put in canonical order.
-/

namespace ExactAlgebra.Graph

variable {α β γ : Type} {g g' : Graph} {x : NodeId} {xs ys : List NodeId} {ts ts' : Terms}
variable {ss ss' : List (Share NodeId)}

theorem WellFormed.terms_lt (hg : g.WellFormed) (h : x < g.size) : ∀ y ∈ g.terms x, y < g.size :=
  ((Extends.refl g).agree hg).of_mem_terms h

theorem WellFormed.factors_lt (hg : g.WellFormed) (h : x < g.size) :
    ∀ y ∈ g.factors x, y < g.size :=
  ((Extends.refl g).agree hg).of_mem_factors h

/-! ### Weights of nodes -/

/-- A share whose key, if any, is a node of the graph. -/
def Holds (g : Graph) (s : Share NodeId) : Prop := ∀ r, s.entry? = some r → r.1 < g.size

theorem Holds.constant (g : Graph) (q : Rat) : g.Holds (.constant q) := fun _ h => nomatch h

theorem Holds.weight (hx : x < g.size) (q : Rat) : g.Holds (.weight x q) := by
  rintro _ ⟨⟩
  exact hx

theorem Holds.extend {s : Share NodeId} (hx : g.Extends g') (h : g.Holds s) : g'.Holds s :=
  fun r hr => hx.lt_size (h r hr)

/-- The same weights of the same nodes, met in whatever order. -/
structure SameWeights (g : Graph) (w w' : Weights NodeId) : Prop extends Weights.Reorders w w' where
  keys_lt : ∀ x ∈ w.keys, x < g.size

namespace SameWeights

variable {w w' : Weights NodeId}

theorem of_shares (hp : ss.Perm ss') (hss : ∀ s ∈ ss, g.Holds s) :
    SameWeights g (Weights.empty.addAll (Share.entries ss))
      (Weights.empty.addAll (Share.entries ss')) := by
  have hempty : (Weights.empty : Weights NodeId).Distinct := List.nodup_nil
  refine ⟨hempty.addAll_reorders (Share.entries_perm hp), fun x hx => ?_⟩
  rcases (Weights.mem_keys_addAll _ _ x).1 hx with hx | hx
  · exact absurd hx List.not_mem_nil
  · obtain ⟨r, hr, rfl⟩ := List.mem_map.1 hx
    obtain ⟨s, hs, he⟩ := List.mem_filterMap.1 hr
    exact hss s hs r he

theorem extend (h : SameWeights g w w') (hx : g.Extends g') : SameWeights g' w w' :=
  ⟨h.toReorders, fun x hmem => hx.lt_size (h.keys_lt x hmem)⟩

theorem add (h : SameWeights g w w') (hx : x < g.size) (q : Rat) :
    SameWeights g (w.add x q) (w'.add x q) := by
  refine ⟨h.toReorders.add x q, fun y hy => ?_⟩
  rcases (w.mem_keys_add x q y).1 hy with rfl | hy
  · exact hx
  · exact h.keys_lt y hy

theorem erase (h : SameWeights g w w') (x : NodeId) : SameWeights g (w.erase x) (w'.erase x) :=
  ⟨h.toReorders.erase x, fun y hy => h.keys_lt y (w.keys_erase_subset x hy)⟩

theorem filter (h : SameWeights g w w') (p : NodeId × Rat → Bool) :
    SameWeights g ⟨w.entries.filter p⟩ ⟨w'.entries.filter p⟩ where
  distinct := h.distinct.of_sublist List.filter_sublist
  distinct' := h.distinct'.of_sublist List.filter_sublist
  perm := h.perm.filter p
  keys_lt x hx := h.keys_lt x ((List.filter_sublist.map Prod.fst).subset hx)

theorem entries_lt (h : SameWeights g w w') : ∀ r ∈ w.entries, r.1 < g.size :=
  fun r hr => h.keys_lt r.1 (List.mem_map_of_mem hr)

end SameWeights

/-! ### Coefficients -/

theorem extractCoefficient_repeatable (hg : g.WellFormed) (hx : x < g.size) :
    Repeatable (extractCoefficient x) g fun g' r => r.2 < g'.size := by
  apply Repeatable.get
  · intro t hxt
    rw [(hxt.agree hg).factors_eq hx, (hxt.agree hg).splitFactors_eq (hg.factors_lt hx)]
  cases hs : g.splitFactors (g.factors x) with
  | none => exact .pure hg hx
  | some r =>
    have hrest : ∀ y ∈ r.2, y < g.size := fun y hy => hg.factors_lt hx y (splitFactors_subset hs hy)
    apply (build_repeatable hg .product hrest).bind
    intro y g' hg' _ hy
    exact .pure hg' hy

/-! ### Reading terms -/

/-- What a term adds to the constant or to a bare term. -/
def termShare (term : NodeId) : Build (Share NodeId) := do
  match (← get).value? term with
  | some q => return .constant q
  | none =>
    let (q, bare) ← extractCoefficient term
    return .weight bare q

/-- What an addend adds, which may be a sum. -/
def addendShares (x : NodeId) : Build (List (Share NodeId)) := do
  ((← get).terms x).mapM termShare

namespace Terms

def take (ts : Terms) : Share NodeId → Terms
  | .constant q => { ts with constant := ts.constant + q }
  | .weight x q => { ts with bare := ts.bare.add x q }

theorem foldl_take (ts : Terms) (ss : List (Share NodeId)) :
    ss.foldl take ts =
      ⟨ts.bare.addAll (Share.entries ss), ts.constant + (Share.constants ss).sum⟩ := by
  induction ss generalizing ts with
  | nil => simp [Weights.addAll]
  | cons s ss ih =>
    rw [List.foldl_cons, ih]
    cases s with
    | constant q => simp [take, add_assoc]
    | weight x q => simp [take, Weights.addAll_cons]

/-- Reading takes in the share of a term. -/
theorem read_eq (ts : Terms) (x : NodeId) : ts.read x = (do return ts.take (← termShare x)) := by
  funext g
  simp only [read, termShare, bind_assoc, get_bind]
  cases g.value? x with
  | some q => rfl
  | none => simp only [bind_assoc, pure_bind, take]

end Terms

theorem foldlM_eq {f : β → α → Build β} {h : β → γ → β} {m : α → Build γ}
    (hf : ∀ b a, f b a = (do return h b (← m a))) (as : List α) (b : β) :
    as.foldlM f b = (do return (← as.mapM m).foldl h b) := by
  induction as generalizing b with
  | nil => rfl
  | cons a as ih =>
    simp only [List.foldlM_cons, List.mapM_cons, hf, ih, bind_assoc, pure_bind, List.foldl_cons]

theorem combineTerms_eq (xs : List NodeId) :
    combineTerms xs = (do ((← xs.mapM addendShares).flatten.foldl Terms.take {}).emit) := by
  have hread : ∀ (ts : Terms) (x : NodeId),
      ts.readAddend x = (do return (← addendShares x).foldl Terms.take ts) := by
    intro ts x
    simp only [Terms.readAddend, addendShares, bind_assoc, foldlM_eq Terms.read_eq]
  simp only [combineTerms, foldlM_eq hread, bind_assoc, pure_bind, List.foldl_flatten]

theorem termShare_repeatable (hg : g.WellFormed) (hx : x < g.size) :
    Repeatable (termShare x) g Holds := by
  apply Repeatable.get
  · intro t hxt
    rw [hxt.value?_eq hx]
  cases g.value? x with
  | some q => exact .pure hg (.constant g q)
  | none =>
    apply (extractCoefficient_repeatable hg hx).bind
    intro r g' hg' _ hr
    exact .pure hg' (.weight hr r.1)

theorem addendShares_repeatable (hg : g.WellFormed) (hx : x < g.size) :
    Repeatable (addendShares x) g fun g' ss => ∀ s ∈ ss, g'.Holds s := by
  apply Repeatable.get
  · intro t hxt
    rw [(hxt.agree hg).terms_eq hx]
  · exact .mapM (P := fun g x => x < g.size) Extends.lt_size Holds.extend
      (fun hg hx => termShare_repeatable hg hx) hg (hg.terms_lt hx)

/-! ### Building the sum -/

/-- The same terms, met in whatever order. -/
structure Terms.Reorders (g : Graph) (ts ts' : Terms) : Prop where
  bare : SameWeights g ts.bare ts'.bare
  constant : ts'.constant = ts.constant

theorem Terms.Reorders.of_perm (hp : ss.Perm ss') (hss : ∀ s ∈ ss, g.Holds s) :
    Terms.Reorders g (ss.foldl take {}) (ss'.foldl take {}) := by
  rw [foldl_take, foldl_take]
  refine ⟨.of_shares hp hss, ?_⟩
  rw [(Share.constants_perm hp).sum_eq]

theorem weightedTerm?_repeatable {r : NodeId × Rat} (hg : g.WellFormed) (hr : r.1 < g.size) :
    Repeatable (weightedTerm? r) g fun g' o => ∀ x, o = some x → x < g'.size :=
  weighted_repeatable (f := fun x c => product [x, c])
    (fun hg hx hc => build_repeatable hg .product (by simp [hx, hc])) hg hr

theorem Terms.Reorders.emit (h : Terms.Reorders g ts ts') (hg : g.WellFormed) :
    Echoes ts.emit ts'.emit g SameNode := by
  have hrest : ∀ {w w' : Weights NodeId} {g' : Graph}, g'.WellFormed → SameWeights g' w w' →
      Echoes (do sum (← w.entries.filterMapM weightedTerm?))
        (do sum (← w'.entries.filterMapM weightedTerm?)) g' SameNode :=
    fun hg' hw => .gather_perm .sum (P := fun g r => r.1 < g.size) Extends.lt_size
      (fun hg hr => weightedTerm?_repeatable hg hr) hg' hw.entries_lt hw.perm
  unfold Terms.emit
  rw [h.constant]
  apply Echoes.ite
  · exact fun _ => hrest hg h.bare
  · intro _
    apply (constant_repeatable hg ts.constant).echoes_bind
    intro c g' hg' hx hc
    exact hrest hg' ((h.bare.extend hx).add hc 1)

theorem WellFormed.combineTerms_echoes (hg : g.WellFormed) (hxs : ∀ x ∈ xs, x < g.size)
    (hp : xs.Perm ys) : Echoes (combineTerms xs) (combineTerms ys) g SameNode := by
  rw [combineTerms_eq, combineTerms_eq]
  have hread := Echoes.mapM_perm (P := fun g x => x < g.size)
    (I := fun g ss => ∀ s ∈ ss, g.Holds s) Extends.lt_size
    (fun hx hss s hs => (hss s hs).extend hx) (fun hg hx => addendShares_repeatable hg hx) hg hxs hp
  apply hread.bind
  intro sss sss' g' hg' _ ⟨hperm, hss⟩
  apply (Terms.Reorders.of_perm hperm.flatten _).emit hg'
  intro s hs
  obtain ⟨ss, hmem, hs⟩ := List.mem_flatten.1 hs
  exact hss ss hmem s hs

/--
In every graph that programs reach, like terms are combined to the same node, in whatever order the
addends stand. Combining them once more in another order adds nothing. Only for lack of room may
there be no such node.
-/
theorem Reachable.combineTerms_perm (hg : g.Reachable) (hxs : ∀ x ∈ xs, x < g.size)
    (hp : xs.Perm ys) :
    Meets Overflow (Graph.combineTerms xs) g fun y g' => Graph.combineTerms ys g' = .ok y g' := by
  apply Meets.mono (hg.regular.toWellFormed.combineTerms_echoes hxs hp)
  rintro y g' hg' _ ⟨_, ⟨rfl, -⟩, hfound⟩
  exact hfound g' hg' (.refl g')

/-- The product of `2`, `3` and `x`, node `5`, and the loop `r = x + r`, node `6` over node `7`. -/
def rawTerms : Graph :=
  [Action.construct (.constant 2), .construct (.constant 3), .construct (.symbol "x"),
    .construct (.product [2, 3, 4]), .openLoop "r", .construct (.sum [4, 6]),
    .closeLoop 6 7].foldl (fun g a => a.after g) .empty

theorem rawTerms_reachable : rawTerms.Reachable := Reachable.empty.acts _

theorem rawTerms_combineTerms_perm :
    Meets Overflow (combineTerms [5, 6, 3, 4, 6]) rawTerms fun y g' =>
      combineTerms [6, 4, 6, 5, 3] g' = .ok y g' := by
  have hsize : rawTerms.size = 8 := by cbv
  apply rawTerms_reachable.combineTerms_perm
  · rw [hsize]
    decide
  · decide

end ExactAlgebra.Graph
