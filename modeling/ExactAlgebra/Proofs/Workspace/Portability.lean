import ExactAlgebra.Proofs.Evaluation.Mirror
import ExactAlgebra.Proofs.Workspace.Memoisation

/-!
What is done with expressions depends on their trees alone, and not on the graphs that hold them:
evaluation, substitution and the constructions lead from equal trees to equal trees, however the
nodes of the two graphs are numbered and whatever else is in them.
-/

namespace ExactAlgebra

open ExactAlgebra.Graph (Construction Facing Meets Mirrors MirrorsNodes Overflow Twins)

variable {g t : Graph} {x x' y y' : NodeId} {xs ys : List NodeId} {s s' : Substitution}
variable {name : String} {c c' : Construction}

namespace Graph

/-- Expressions with one tree in two graphs, without self-reference, calls and placeholders. -/
def SameTree (g t : Graph) (x y : NodeId) : Prop := Twins g.interned t.interned g t x y

/-- The symbol of a name was not closed, if there is one. -/
def Unclosed (g : Graph) (name : String) : Prop :=
  ∀ x, g.index[((.symbol name : Shape), ([] : List NodeId))]? = some x →
    g.node x = { shape := .symbol name }

theorem WellFormed.facing (hg : g.WellFormed) (ht : t.WellFormed) :
    Facing g.interned t.interned g t :=
  ⟨hg.named, ht.named⟩

theorem symbol_node (hg : g.WellFormed) (h : g.Unclosed name) :
    Meets Overflow (symbol name) g fun x g' =>
      x < g'.size ∧ g'.node x = { shape := .symbol name } := by
  have hlt := symbol_meets hg name
  unfold Meets at hlt ⊢
  rw [symbol, intern_eq] at hlt ⊢
  cases hi : g.index[((.symbol name : Shape), ([] : List NodeId))]? with
  | some x =>
    rw [hi] at hlt
    exact ⟨hlt.1, hlt.2.1, hlt.2.2, h x hi⟩
  | none =>
    rw [hi] at hlt
    by_cases hc : capacity ≤ g.size
    · simp only [if_pos hc] at hlt ⊢
      exact hlt
    · simp only [if_neg hc, List.all_nil, if_true] at hlt ⊢
      exact ⟨hlt.1, hlt.2.1, hlt.2.2, node_extend_self g _ _⟩

theorem tree_symbol (hg : g.WellFormed) (hx : x < g.size)
    (hn : g.node x = { shape := .symbol name }) : g.tree x = .node (.symbol name) [] := by
  let V : Vocabulary := ⟨fun z => z = x, fun _ => False, fun _ => True⟩
  have hsymbol : V.Covers x (.symbol name) := rfl
  have hxe : g.Elementary V x := .of_node hx hn hsymbol fun _ hy => absurd hy List.not_mem_nil
  rw [hxe.tree_eq hg, shape, operands, hn, List.map_nil]

/-- Constructions of one kind whose operands have the same trees, calls apart. -/
inductive Construction.SameTrees (g t : Graph) : Construction → Construction → Prop
  | constant (q : Rat) : SameTrees g t (.constant q) (.constant q)
  | symbol {name : String} (h : g.Unclosed name) (h' : t.Unclosed name) :
      SameTrees g t (.symbol name) (.symbol name)
  | binary (op : Operator) {x x' y y' : NodeId} (h : SameTree g t x y) (h' : SameTree g t x' y') :
      SameTrees g t (.binary op x x') (.binary op y y')
  | unary (op : Operator) {x y : NodeId} (h : SameTree g t x y) :
      SameTrees g t (.unary op x) (.unary op y)
  | set {xs ys : List NodeId} (h : List.Forall₂ (SameTree g t) xs ys) :
      SameTrees g t (.set xs) (.set ys)
  | arrow {x x' y y' : NodeId} (h : SameTree g t x y) (h' : SameTree g t x' y') :
      SameTrees g t (.arrow x x') (.arrow y y')
  | sum {xs ys : List NodeId} (h : List.Forall₂ (SameTree g t) xs ys) :
      SameTrees g t (.sum xs) (.sum ys)
  | product {xs ys : List NodeId} (h : List.Forall₂ (SameTree g t) xs ys) :
      SameTrees g t (.product xs) (.product ys)
  | power {x x' y y' : NodeId} (h : SameTree g t x y) (h' : SameTree g t x' y') :
      SameTrees g t (.power x x') (.power y y')
  | powerOf {x y : NodeId} (h : SameTree g t x y) (q : Rat) :
      SameTrees g t (.powerOf x q) (.powerOf y q)
  | negate {x y : NodeId} (h : SameTree g t x y) : SameTrees g t (.negate x) (.negate y)
  | subtract {x x' y y' : NodeId} (h : SameTree g t x y) (h' : SameTree g t x' y') :
      SameTrees g t (.subtract x x') (.subtract y y')
  | divide {x x' y y' : NodeId} (h : SameTree g t x y) (h' : SameTree g t x' y') :
      SameTrees g t (.divide x x') (.divide y y')
  | withOperands {x y : NodeId} {xs ys : List NodeId} (h : SameTree g t x y)
      (hs : List.Forall₂ (SameTree g t) xs ys) :
      SameTrees g t (.withOperands x xs) (.withOperands y ys)

/-- Two constructions lead to equal trees. -/
abbrev MirrorsTrees (m m' : Build NodeId) (g t : Graph) : Prop :=
  Mirrors g.interned t.interned m m' g t fun x y g' t' => g'.tree x = t'.tree y

theorem MirrorsNodes.trees {m m' : Build NodeId} (h : MirrorsNodes g.interned t.interned m m' g t) :
    MirrorsTrees m m' g t :=
  h.mono fun _ _ _ _ _ _ _ hxy => hxy.tree_eq

theorem symbol_mirrors (hg : g.WellFormed) (ht : t.WellFormed) (h : g.Unclosed name)
    (h' : t.Unclosed name) : MirrorsTrees (symbol name) (symbol name) g t := by
  apply Mirrors.of_meets (hg.facing ht) (symbol_node hg h) (symbol_node ht h')
  intro x y g' t' hgt _ _ hx hy
  rw [tree_symbol hgt.left.wellFormed hx.1 hx.2, tree_symbol hgt.right.wellFormed hy.1 hy.2]

theorem Construction.SameTrees.mirrors (h : Construction.SameTrees g t c c') (hg : g.WellFormed)
    (ht : t.WellFormed) : MirrorsTrees c.build c'.build g t := by
  have hgt := hg.facing ht
  cases h with
  | constant q => exact (constant_mirrors hgt q).trees
  | symbol h h' => exact symbol_mirrors hg ht h h'
  | binary op h h' => exact (binary_mirrors hgt trivial trivial h h').trees
  | unary op h => exact (unary_mirrors hgt op h).trees
  | set h => exact (set_mirrors hgt h).trees
  | arrow h h' => exact (arrow_mirrors hgt h h').trees
  | sum h => exact (sum_mirrors hgt h).trees
  | product h => exact (product_mirrors hgt h).trees
  | power h h' => exact (power_mirrors hgt h h').trees
  | powerOf h q => exact (powerOf_mirrors hgt h q).trees
  | negate h => exact (negate_mirrors hgt h).trees
  | subtract h h' => exact (subtract_mirrors hgt h h').trees
  | divide h h' => exact (divide_mirrors hgt h h').trees
  | withOperands h hs => exact (withOperands_mirrors hgt h hs).trees

end Graph

open ExactAlgebra.Graph (SameTree)

namespace Workspace

variable {ws ws' : Workspace} {k k' depth : Nat} {library library' : Library}

/-- What can be done with the expressions of a graph. -/
inductive Operation where
  | evaluate (library : Library) (depth : Nat) (x : NodeId)
  | substitute (s : Substitution) (x : NodeId)
  | construct (c : Construction)

namespace Operation

def perform (k : Nat) : Operation → Work Handle
  | evaluate library depth x => Workspace.evaluate library depth (.node k x)
  | substitute s x => Workspace.substitute (.node k x) (bindings k s)
  | construct c => make k c.build

/-- Operations of one kind on expressions with the same trees. -/
inductive SameTrees (g t : Graph) : Operation → Operation → Prop
  | evaluate (library library' : Library) (depth : Nat) {x y : NodeId} (h : SameTree g t x y) :
      SameTrees g t (.evaluate library depth x) (.evaluate library' depth y)
  | substitute {s s' : Substitution} {x y : NodeId}
      (hs : List.Forall₂ (fun p q => SameTree g t p.1 q.1 ∧ SameTree g t p.2 q.2) s s')
      (h : SameTree g t x y) : SameTrees g t (.substitute s x) (.substitute s' y)
  | construct {c c' : Construction} (h : c.SameTrees g t c') :
      SameTrees g t (.construct c) (.construct c')

end Operation

/-- An operation in graph `k` and one in graph `k'` lead to equal trees or to the same error, unless
one of the graphs was full. -/
inductive EndAlike (k k' : Nat) :
    EStateM.Result Error Workspace Handle → EStateM.Result Error Workspace Handle → Prop
  | full {ws : Workspace} {r : EStateM.Result Error Workspace Handle}
      (h : Graph.capacity ≤ (ws.graph k).size) : EndAlike k k' (.error .graphFull ws) r
  | full' {r : EStateM.Result Error Workspace Handle} {ws : Workspace}
      (h : Graph.capacity ≤ (ws.graph k').size) : EndAlike k k' r (.error .graphFull ws)
  | error {e : Error} {ws ws' : Workspace} : EndAlike k k' (.error e ws) (.error e ws')
  | ok {x y : NodeId} {ws ws' : Workspace} (h : (ws.graph k).tree x = (ws'.graph k').tree y) :
      EndAlike k k' (.ok (.node k x) ws) (.ok (.node k' y) ws')

theorem make_endAlike {m m' : Build NodeId} (hk : k < ws.graphs.size) (hk' : k' < ws'.graphs.size)
    (h : Graph.MirrorsTrees m m' (ws.graph k) (ws'.graph k')) :
    EndAlike k k' (make k m ws) (make k' m' ws') := by
  unfold Graph.MirrorsTrees Mirrors at h
  rw [make_eq, make_eq]
  generalize m (ws.graph k) = r at h ⊢
  generalize m' (ws'.graph k') = r' at h ⊢
  cases h with
  | full h => exact .full (by rwa [graph_setGraph hk])
  | full' h => exact .full' (by rwa [graph_setGraph hk'])
  | error => exact .error
  | ok _ _ _ h => exact .ok (by rwa [graph_setGraph hk, graph_setGraph hk'])

theorem substitute_endAlike (hk : k < ws.graphs.size) (hk' : k' < ws'.graphs.size)
    (hg : (ws.graph k).WellFormed) (hg' : (ws'.graph k').WellFormed)
    (hs : List.Forall₂ (fun p q => SameTree (ws.graph k) (ws'.graph k') p.1 q.1 ∧
      SameTree (ws.graph k) (ws'.graph k') p.2 q.2) s s')
    (h : SameTree (ws.graph k) (ws'.graph k') x y) :
    EndAlike k k' (substitute (.node k x) (bindings k s) ws)
      (substitute (.node k' y) (bindings k' s') ws') := by
  have hmake := make_endAlike hk hk' (Graph.substitute_mirrors (hg.facing hg') hs h).trees
  rw [make_eq, make_eq] at hmake
  rw [substitute_bindings, substitute_bindings]
  exact hmake

theorem evaluate_endAlike (hk : k < ws.graphs.size) (hk' : k' < ws'.graphs.size)
    (hg : (ws.graph k).WellFormed) (hg' : (ws'.graph k').WellFormed)
    (h : SameTree (ws.graph k) (ws'.graph k') x y) :
    EndAlike k k' (evaluate library depth (.node k x) ws)
      (evaluate library' depth (.node k' y) ws') := by
  have hanswers := Evaluation.evaluateIn_mirrors library library' (ws.graph k).interned
    (ws'.graph k').interned (ws.graph k) (ws'.graph k') depth
  have hstart : Run.Mirrored _ _ _ _ _ _ (evaluateIn library depth x (ws.startRun k))
      (evaluateIn library' depth y (ws'.startRun k')) :=
    hanswers (ws.startRun k).pass.log (ws'.startRun k').pass.log (hg.facing hg') (.refl _)
      (.refl _) (.empty _ _ _ _) h
  rw [evaluate_eq, evaluate_eq]
  generalize evaluateIn library depth x (ws.startRun k) = r at hstart ⊢
  generalize evaluateIn library' depth y (ws'.startRun k') = r' at hstart ⊢
  cases hstart with
  | @fails e run r' h =>
    obtain ⟨rfl, hfull⟩ := h
    exact .full (by rwa [graph_afterRun hk])
  | @fails' r e run h =>
    obtain ⟨rfl, hfull⟩ := h
    exact .full' (by rwa [graph_afterRun hk'])
  | error => exact .error
  | ok _ _ _ _ h => exact .ok (by rw [graph_afterRun hk, graph_afterRun hk', h.tree_eq])

/--
Operations on expressions with equal trees lead to equal trees, or to the same error, in whichever
graphs the expressions are: an evaluation with the same depth, a substitution of expressions with
equal trees, or a construction.
-/
theorem perform_endAlike (hk : k < ws.graphs.size) (hk' : k' < ws'.graphs.size)
    (hg : (ws.graph k).WellFormed) (hg' : (ws'.graph k').WellFormed) {o o' : Operation}
    (h : o.SameTrees (ws.graph k) (ws'.graph k') o') :
    EndAlike k k' (o.perform k ws) (o'.perform k' ws') := by
  cases h with
  | evaluate library library' depth h => exact evaluate_endAlike hk hk' hg hg' h
  | substitute hs h => exact substitute_endAlike hk hk' hg hg' hs h
  | construct h => exact make_endAlike hk hk' (h.mirrors hg hg')

end Workspace

/-- The graph of `y` and of `x + x`, which is its last node. -/
def Graph.shifted : Graph :=
  ((empty.extend (.symbol "y") []).extend (.symbol "x") []).extend .sum [3, 3]

theorem Graph.shifted_wellFormed : shifted.WellFormed := by
  have hy : (empty.extend (.symbol "y") []).WellFormed := by
    refine empty_wellFormed.extend ⟨by simp, fun _ => Shape.noConfusion, rfl⟩ ?_
    simp [empty]
  have hx : ((empty.extend (.symbol "y") []).extend (.symbol "x") []).WellFormed := by
    refine hy.extend ⟨by simp, fun _ => Shape.noConfusion, rfl⟩ ?_
    simp [Graph.extend, push, empty]
  refine hx.extend ⟨?_, fun _ => Shape.noConfusion, trivial⟩ ?_
  · intro y hy
    simp only [List.mem_cons, List.not_mem_nil, or_false, or_self] at hy
    rw [hy, size_extend, size_extend]
    decide
  · simp [Graph.extend, push, empty]

theorem Graph.doubled_shifted : SameTree doubled shifted 3 4 := by
  have hgt := doubled_wellFormed.facing shifted_wellFormed
  have hx : doubled.interned.symbols 2 := by
    refine ⟨"x", rfl, ?_⟩
    rw [doubled, index_extend, if_neg (by simp), index_extend, if_pos rfl]
    rfl
  have hx' : shifted.interned.symbols 3 := by
    refine ⟨"x", rfl, ?_⟩
    rw [shifted, index_extend, if_neg (by simp), index_extend, if_pos rfl]
    rfl
  have hsymbol : SameTree doubled shifted 2 3 :=
    .of_node hgt (by decide) (by decide) rfl rfl hx hx' .nil
  exact .of_node hgt (by decide) (by decide) rfl rfl trivial trivial
    (.cons hsymbol (.cons hsymbol .nil))

namespace Workspace

/-- The value of `x + x` has the same tree in a graph with another symbol, and other numbers. -/
theorem perform_doubled_shifted :
    EndAlike 0 0 (Operation.perform 0 (.evaluate .silent 9 3) { graphs := #[Graph.doubled] })
        (Operation.perform 0 (.evaluate .silent 9 4) { graphs := #[Graph.shifted] }) ∧
      (seen id (evaluate .silent 9 (.node 0 3) { graphs := #[Graph.doubled] })).1 =
        .ok (.node 0 5) ∧
      (seen id (evaluate .silent 9 (.node 0 4) { graphs := #[Graph.shifted] })).1 =
        .ok (.node 0 6) := by
  have hg : (Workspace.graph { graphs := #[Graph.doubled] } 0).WellFormed := Graph.doubled_wellFormed
  have hg' : (Workspace.graph { graphs := #[Graph.shifted] } 0).WellFormed :=
    Graph.shifted_wellFormed
  refine ⟨perform_endAlike (by decide) (by decide) hg hg' ?_, by cbv, by cbv⟩
  exact .evaluate .silent .silent 9 Graph.doubled_shifted

end Workspace

end ExactAlgebra
