import Mathlib
import ExactAlgebra.Proofs.Graph.Meaning
import ExactAlgebra.Proofs.Matrix.Frame

/-!
Expressions are immutable: whatever is done with a workspace, the nodes that it has stay what they
are, and stay where they are found. Only placeholders change, once, when they are closed.
-/

namespace ExactAlgebra.Workspace

variable {σ α : Type} {library : Library} {S : Handle → Prop} {view : σ → Workspace}

/--
The uses of a workspace, as part of a state, that close placeholders in `S` only: the operations on
expressions and on matrices, one after another, in whatever way they depend on each other and whatever
fails.
-/
inductive Uses (library : Library) (S : Handle → Prop) :
    {σ α : Type} → (σ → Workspace) → EStateM Error σ α → Prop
  | pure {σ α : Type} {view : σ → Workspace} (a : α) : Uses library S view (pure a)
  | throw {σ α : Type} {view : σ → Workspace} (e : Error) :
      Uses library S view (throw e : EStateM Error σ α)
  | bind {σ α β : Type} {view : σ → Workspace} {m : EStateM Error σ α} {f : α → EStateM Error σ β}
      (hm : Uses library S view m) (hf : ∀ a, Uses library S view (f a)) :
      Uses library S view (m >>= f)
  | tryCatch {σ α : Type} {view : σ → Workspace} {m : EStateM Error σ α}
      {handler : Error → EStateM Error σ α} (hm : Uses library S view m)
      (hf : ∀ e, Uses library S view (handler e)) : Uses library S view (tryCatch m handler)
  /- Graphs and scopes -/
  | newGraph : Uses library S id newGraph
  | enterScope (k : Nat) : Uses library S id (enterScope k)
  | leaveScope : Uses library S id leaveScope
  | currentGraph : Uses library S id currentGraph
  /- Reading -/
  | handle (k : Nat) (x : NodeId) : Uses library S id (handle k x)
  | inspect {α : Type} (read : Graph → NodeId → α) (h : Handle) : Uses library S id (inspect read h)
  | demand {α : Type} (read : Graph → NodeId → Except Error α) (h : Handle) :
      Uses library S id (demand read h)
  | operand (h : Handle) (position : Nat) : Uses library S id (operand h position)
  | terms (h : Handle) : Uses library S id (terms h)
  | factors (h : Handle) : Uses library S id (factors h)
  | order (l r : Handle) : Uses library S id (order l r)
  /- Building -/
  | construct (k : Nat) (c : Graph.Construction) : Uses library S id (make k c.build)
  | constant (k : Nat) (q : Rat) : Uses library S id (constant k q)
  | symbol (k : Nat) (name : String) : Uses library S id (symbol k name)
  | currentConstant (q : Rat) : Uses library S id (currentConstant q)
  | currentSymbol (name : String) : Uses library S id (currentSymbol name)
  | sum (k : Nat) (terms : List Handle) : Uses library S id (sum k terms)
  | product (k : Nat) (factors : List Handle) : Uses library S id (product k factors)
  | sumOf (terms : List Handle) : Uses library S id (sumOf terms)
  | productOf (factors : List Handle) : Uses library S id (productOf factors)
  | power (base exponent : Handle) : Uses library S id (power base exponent)
  | powerOf (base : Handle) (exponent : Rat) : Uses library S id (powerOf base exponent)
  | binary (op : Operator) (l r : Handle) : Uses library S id (binary op l r)
  | unary (op : Operator) (h : Handle) : Uses library S id (unary op h)
  | call (k : Nat) (f : Option Callee) (arguments : List Handle) :
      Uses library S id (call k f arguments)
  | callOf (f : Option Callee) (arguments : List Handle) : Uses library S id (callOf f arguments)
  | set (k : Nat) (members : List Handle) : Uses library S id (set k members)
  | arrow (l r : Handle) : Uses library S id (arrow l r)
  | add (l r : Handle) : Uses library S id (add l r)
  | multiply (l r : Handle) : Uses library S id (multiply l r)
  | negate (h : Handle) : Uses library S id (negate h)
  | subtract (l r : Handle) : Uses library S id (subtract l r)
  | divide (l r : Handle) : Uses library S id (divide l r)
  /- Self-reference -/
  | openLoop (k : Nat) (label : String) : Uses library S id (openLoop k label)
  | closeLoop {self : Handle} (hs : S self) (content : Handle) :
      Uses library S id (closeLoop self content)
  | loop (k : Nat) (label : String) {body : Handle → Work Handle}
      (hbody : ∀ self, Uses library S id (body self)) : Uses library S id (loop k label body)
  /- Collecting, substitution and evaluation -/
  | extractCoefficient (k : Nat) (h : Handle) : Uses library S id (extractCoefficient k h)
  | combineTerms (k : Nat) (addends : List Handle) : Uses library S id (combineTerms k addends)
  | combineFactors (k : Nat) (factors : List Handle) : Uses library S id (combineFactors k factors)
  | scaleSum (k : Nat) (c : Rat) (h : Handle) : Uses library S id (scaleSum k c h)
  | substitute (h : Handle) (pairs : List (Handle × Handle)) :
      Uses library S id (substitute h pairs)
  | arrowPairs (h : Handle) : Uses library S id (arrowPairs h)
  | evaluateFaults (depth : Nat) (h : Handle) : Uses library S id (evaluateFaults library depth h)
  | evaluate (depth : Nat) (h : Handle) : Uses library S id (evaluate library depth h)
  | evaluateBound (depth : Nat) (h : Handle) (pairs : List (Handle × Handle)) :
      Uses library S id (evaluateBound library depth h pairs)
  | evaluateAtArrows (depth : Nat) (h : Handle) (arrows : List Handle) :
      Uses library S id (evaluateAtArrows library depth h arrows)
  | evaluateAll (depth : Nat) (hs : List Handle) (pairs : List (Handle × Handle)) :
      Uses library S id (evaluateAll library depth hs pairs)
  | accepts (behaviour : Behaviour) (k : Nat) (arguments : List Handle) :
      Uses library S id (accepts behaviour k arguments)
  | invoke (f : Callee) (k : Nat) (arguments : List Handle) :
      Uses library S id (invoke library f k arguments)
  /- Transformers -/
  | work {τ α : Type} {m : Work α} (hm : Uses library S id m) :
      Uses library S Prod.fst (Transforming.work m : Transforming τ α)
  | transform {τ : Type} {rules : Rules τ} (hr : ∀ k, rules.Intact fun x => S (.node k x))
      (depth : Nat) (h : Handle) : Uses library S Prod.fst (Transforming.transform rules depth h)
  | evaluateNext (depth : Nat) (h : Handle) :
      Uses library S Prod.fst (Transforming.evaluate library depth h)
  | withFreshMemo {α : Type} (k : Nat) {m : Transforming (Array Fault) α}
      (hm : Uses library S Prod.fst m) : Uses library S id (withFreshMemo k m)
  /- Matrices -/
  | needGraph (k : Option Nat) : Uses library S id (Matrix.needGraph k)
  | zeroMatrix (k rows cols : Nat) : Uses library S id (Matrix.zero k rows cols)
  | identityMatrix (k n : Nat) : Uses library S id (Matrix.identity k n)
  | matrixOfRows (k : Nat) (rows : List (List Handle)) : Uses library S id (Matrix.ofRows k rows)
  | matrixOfConstants (k : Nat) (rows : List (List Rat)) :
      Uses library S id (Matrix.ofConstants k rows)
  | mapEntries {f : Handle → Work Handle} (hf : ∀ h, Uses library S id (f h)) (m : Matrix) :
      Uses library S id (m.mapEntries f)
  | addMatrices (l r : Matrix) : Uses library S id (l.add r)
  | subtractMatrices (l r : Matrix) : Uses library S id (l.subtract r)
  | negateMatrix (m : Matrix) : Uses library S id m.negate
  | multiplyMatrices (l r : Matrix) : Uses library S id (l.multiply r)
  | evaluateMatrix (depth : Nat) (pairs : List (Handle × Handle)) (m : Matrix) :
      Uses library S id (m.evaluate library depth pairs)
  | invertMatrix (depth : Nat) (m : Matrix) : Uses library S id (m.inverse library depth)
  | matrixPower (depth : Nat) (m : Matrix) (k : Int64) : Uses library S id (m.power library depth k)

theorem tryCatch_intact {m : EStateM Error σ α} {handler : Error → EStateM Error σ α}
    (hm : (intactIn view S).Holds m) (hf : ∀ e, (intactIn view S).Holds (handler e)) :
    (intactIn view S).Holds (tryCatch m handler) := by
  intro s
  have h := hm s
  change (view s).Intact S (view (final (EStateM.tryCatch m handler s)))
  cases he : m s with
  | ok a s' =>
    simp only [EStateM.tryCatch, he] at h ⊢
    exact h
  | error e s' =>
    simp only [EStateM.tryCatch, he] at h ⊢
    exact h.trans (hf e s')

/--
Whatever is done with a workspace, and whether or not it fails, every node of every graph keeps its
shape, its operands, its name, and its entry in the index. Only the placeholders that are passed to
be closed may change; evaluation closes none that was there before.
-/
theorem nodes_immutable (hlib : ∀ k, library.Intact fun x => S (.node k x))
    {m : EStateM Error σ α} (h : Uses library S view m) (s : σ) :
    (view s).Intact S (view (final (m s))) := by
  suffices (intactIn view S).Holds m from this s
  clear s
  induction h with
  | pure a => exact (intactIn _ S).pure a
  | throw e => exact fun s => .refl S _
  | bind _ _ ihm ihf => exact (intactIn _ S).bind ihm ihf
  | tryCatch _ _ ihm ihf => exact tryCatch_intact ihm ihf
  | newGraph => exact newGraph_intact S
  | enterScope k => exact fun _ => ⟨Nat.le_refl _, fun _ _ => .refl _ _⟩
  | leaveScope => exact leaveScope_intact S
  | currentGraph => exact currentGraph_intact S
  | handle k x => exact handle_intact S k x
  | inspect read h => exact inspect_intact S read h
  | demand read h => exact demand_intact S read h
  | operand h position => exact operand_intact S h position
  | terms h => exact terms_intact S h
  | factors h => exact factors_intact S h
  | order l r => exact order_intact S l r
  | construct k c => exact construct_intact S k c
  | constant k q => exact constant_intact S k q
  | symbol k name => exact symbol_intact S k name
  | currentConstant q =>
    exact (intact S).bind (currentGraph_intact S) fun k => constant_intact S k q
  | currentSymbol name =>
    exact (intact S).bind (currentGraph_intact S) fun k => symbol_intact S k name
  | sum k terms => exact sum_intact S k terms
  | product k factors => exact product_intact S k factors
  | sumOf terms => exact sumOf_intact S terms
  | productOf factors => exact productOf_intact S factors
  | power base exponent => exact power_intact S base exponent
  | powerOf base exponent => exact powerOf_intact S base exponent
  | binary op l r => exact binary_intact S op l r
  | unary op h => exact unary_intact S op h
  | call k f arguments => exact call_intact S k f arguments
  | callOf f arguments => exact callOf_intact S f arguments
  | set k members => exact set_intact S k members
  | arrow l r => exact arrow_intact S l r
  | add l r => exact add_intact S l r
  | multiply l r => exact multiply_intact S l r
  | negate h => exact negate_intact S h
  | subtract l r => exact subtract_intact S l r
  | divide l r => exact divide_intact S l r
  | openLoop k label => exact openLoop_intact S k label
  | closeLoop hs content => exact closeLoop_intact hs content
  | loop k label _ ih => exact loop_intact k label ih
  | extractCoefficient k h => exact extractCoefficient_intact S k h
  | combineTerms k addends => exact combineTerms_intact S k addends
  | combineFactors k factors => exact combineFactors_intact S k factors
  | scaleSum k c h => exact scaleSum_intact S k c h
  | substitute h pairs => exact substitute_intact S h pairs
  | arrowPairs h => exact arrowPairs_intact S h
  | evaluateFaults depth h => exact evaluateFaults_intact hlib depth h
  | evaluate depth h => exact evaluate_intact hlib depth h
  | evaluateBound depth h pairs => exact evaluateBound_intact hlib depth h pairs
  | evaluateAtArrows depth h arrows => exact evaluateAtArrows_intact hlib depth h arrows
  | evaluateAll depth hs pairs => exact evaluateAll_intact hlib depth hs pairs
  | accepts behaviour k arguments => exact accepts_intact S behaviour k arguments
  | invoke f k arguments => exact invoke_intact hlib f k arguments
  | work _ ih => exact Transforming.work_intact ih
  | transform hr depth h => exact Transforming.transform_intact hr depth h
  | evaluateNext depth h => exact Transforming.evaluate_intact hlib depth h
  | withFreshMemo k _ ih => exact withFreshMemo_intact ih k
  | needGraph k => exact Matrix.needGraph_intact S k
  | zeroMatrix k rows cols => exact Matrix.zero_intact S k rows cols
  | identityMatrix k n => exact Matrix.identity_intact S k n
  | matrixOfRows k rows => exact Matrix.ofRows_intact S k rows
  | matrixOfConstants k rows => exact Matrix.ofConstants_intact S k rows
  | mapEntries _ m ih => exact Matrix.mapEntries_intact ih m
  | addMatrices l r => exact Matrix.zipEntries_intact _ (add_intact S) l r
  | subtractMatrices l r => exact Matrix.zipEntries_intact _ (subtract_intact S) l r
  | negateMatrix m => exact Matrix.mapEntries_intact (negate_intact S) m
  | multiplyMatrices l r => exact Matrix.multiply_intact l r
  | evaluateMatrix depth pairs m => exact Matrix.evaluate_intact hlib depth pairs m
  | invertMatrix depth m => exact Matrix.inverse_intact hlib depth m
  | matrixPower depth m k => exact Matrix.power_intact hlib depth m k

end ExactAlgebra.Workspace

namespace ExactAlgebra

/-- The graph of `x + x` and of a placeholder, which is its last node. -/
def Graph.waiting : Graph := doubled.push { shape := .symbol "r" }

namespace Workspace

/-- Closes the placeholder over its sum with `x`, and evaluates it. -/
def closing : Work Handle := do
  closeLoop (.node 0 4) (← add (.node 0 4) (.node 0 2))
  evaluate .silent 9 (.node 0 4)

theorem closing_uses : Uses .silent (· = .node 0 4) id closing :=
  .bind (.add _ _) fun content => .bind (.closeLoop (by rfl) content) fun _ => .evaluate 9 _

/-- The placeholder is the only node that becomes another. -/
theorem nodes_immutable_closing :
    (∀ k, Library.silent.Intact fun x => Handle.node k x = .node 0 4) ∧
      Uses .silent (· = .node 0 4) id closing ∧
      Intact (· = .node 0 4) { graphs := #[Graph.waiting] }
        (final (closing { graphs := #[Graph.waiting] })) ∧
      Graph.waiting.isLoop 4 = false ∧
      ((final (closing { graphs := #[Graph.waiting] })).graph 0).isLoop 4 = true := by
  have hlib : ∀ k, Library.silent.Intact fun x => Handle.node k x = .node 0 4 :=
    fun _ => Library.silent_intact _
  exact ⟨hlib, closing_uses, nodes_immutable hlib closing_uses { graphs := #[Graph.waiting] },
    by rfl, by cbv⟩

end Workspace

end ExactAlgebra
