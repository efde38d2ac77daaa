import ExactAlgebra.Proofs.Graph.Gathering
import ExactAlgebra.Proofs.Workspace.Evaluate
import ExactAlgebra.Workspace.Build

/-!
Constructions that are refused. Whatever is wrong with the operands of a node, its graph is left as
it was, except that a function is numbered before its arguments are looked at. Operations on
expressions see to it that these belong together before they build anything.
-/

namespace ExactAlgebra

namespace Graph

variable {α β : Type} {R : Graph → Graph → Prop} {s : Shape} {xs : List NodeId}

/-- The errors of constructions. -/
inductive Refusal : Error → Prop
  | graphFull : Refusal .graphFull
  | operandOutsideGraph : Refusal .operandOutsideGraph
  | tooFewOperands (position count : Nat) : Refusal (.tooFewOperands position count)

/-- A construction that fails with a refusal only, and how it leaves the graph then. -/
def Refuses (R : Graph → Graph → Prop) (m : Build α) : Prop :=
  ∀ ⦃g : Graph⦄ ⦃e : Error⦄ ⦃g' : Graph⦄, m g = .error e g' → Refusal e ∧ R g g'

/-- The graph may be left with nodes that were built on the way. -/
def Unfinished (_ _ : Graph) : Prop := True

namespace Refuses

theorem mono {R' : Graph → Graph → Prop} {m : Build α} (h : Refuses R m)
    (hR : ∀ g g', R g g' → R' g g') : Refuses R' m := fun _ _ _ he =>
  (h he).imp_right (hR _ _)

theorem pure (a : α) : Refuses R (Pure.pure a : Build α) := nofun

theorem get {f : Graph → Build α} (hf : ∀ g, Refuses R (f g)) :
    Refuses R (MonadState.get >>= f) := fun g _ _ he => hf g he

theorem ite {c : Prop} [Decidable c] {m m' : Build α} (h : Refuses R m) (h' : Refuses R m') :
    Refuses R (if c then m else m') := by
  split
  · exact h
  · exact h'

theorem bind {m : Build α} {f : α → Build β} (hm : Refuses Unfinished m)
    (hf : ∀ a, Refuses Unfinished (f a)) : Refuses Unfinished (m >>= f) := by
  intro g e g' he
  simp only [Bind.bind, EStateM.bind] at he
  cases hr : m g with
  | ok a g₁ =>
    rw [hr] at he
    exact ⟨(hf a he).1, trivial⟩
  | error e₁ g₁ =>
    rw [hr] at he
    cases he
    exact ⟨(hm hr).1, trivial⟩

end Refuses

/-! ### Single nodes -/

theorem intern_refuses (s : Shape) (xs : List NodeId) : Refuses Eq (intern s xs) := by
  intro g e g' he
  rw [intern_eq] at he
  cases hi : g.index[(s, xs)]? with
  | some x =>
    rw [hi] at he
    cases he
  | none =>
    simp only [hi] at he
    split_ifs at he
    · cases he
      exact ⟨.graphFull, rfl⟩
    · cases he
      exact ⟨.operandOutsideGraph, rfl⟩

theorem gathering_refuses (k : Gathering) (xs : List NodeId) : Refuses Eq (k.build xs) := by
  intro g e g' he
  rw [Gathering.build_eq] at he
  split_ifs at he
  match hxs : k.flatten g xs with
  | [] =>
    rw [hxs] at he
    cases he
  | [x] =>
    rw [hxs] at he
    cases he
  | x :: y :: ys =>
    rw [hxs] at he
    exact intern_refuses _ _ he

theorem power_refuses (x y : NodeId) : Refuses Eq (power x y) :=
  .get fun _ => .ite (.pure x) (intern_refuses _ _)

theorem pick_refuses (xs : List NodeId) (position : Nat) : Refuses Eq (pick xs position) := by
  unfold pick
  split
  · exact .pure _
  · rintro g e g' ⟨⟩
    exact ⟨.tooFewOperands _ _, rfl⟩

/-- Looking up operands does not change the graph. -/
theorem pick_bind {f : NodeId → Build α} (position : Nat) (hf : ∀ x, Refuses Eq (f x)) :
    Refuses Eq (pick xs position >>= f) := by
  intro g e g' he
  unfold pick at he
  split at he
  · exact hf _ he
  · cases he
    exact ⟨.tooFewOperands _ _, rfl⟩

theorem pickPair_bind {f : NodeId × NodeId → Build α} (hf : ∀ p, Refuses Eq (f p)) :
    Refuses Eq (pickPair xs >>= f) := by
  have heq : (pickPair xs >>= f) =
      (pick xs 1 >>= fun r => pick xs 0 >>= fun l => f (l, r)) := by
    simp only [pickPair, bind_assoc, pure_bind]
  rw [heq]
  exact pick_bind 1 fun r => pick_bind 0 fun l => hf (l, r)

theorem withOperands_refuses (x : NodeId) (xs : List NodeId) : Refuses Eq (withOperands x xs) := by
  apply Refuses.get
  intro g
  cases g.shape x with
  | constant | symbol => exact .pure x
  | sum => exact gathering_refuses .sum xs
  | product => exact gathering_refuses .product xs
  | power => exact pickPair_bind fun p => power_refuses p.1 p.2
  | binary op => exact pickPair_bind fun p => intern_refuses _ _
  | unary op => exact pick_bind 0 fun y => intern_refuses _ _
  | call f => exact intern_refuses _ _
  | set => exact intern_refuses _ _
  | arrow => exact pickPair_bind fun p => intern_refuses _ _

/-- The function keeps its number, though the call is not there. -/
theorem call_refuses (f : Callee) (xs : List NodeId) :
    Refuses (fun g g' => final (register f g) = g') (call f xs) := by
  intro g e g' he
  have heq : call f xs g = intern (.call f) xs (final (register f g)) := rfl
  rw [heq] at he
  exact intern_refuses _ _ he

namespace Construction

/-- The constructions of one node, out of nodes that are there. -/
def IsSingle : Construction → Prop
  | powerOf _ _ | negate _ | subtract _ _ | divide _ _ => False
  | _ => True

variable {c : Construction}

theorem single_refuses (hc : c.IsSingle) :
    Refuses (fun g g' => g' = g ∨ ∃ f xs, c = .call f xs ∧ g' = final (register f g)) c.build := by
  have hsingle : ∀ {m : Build NodeId}, Refuses Eq m →
      Refuses (fun g g' => g' = g ∨ ∃ f xs, c = .call f xs ∧ g' = final (register f g)) m :=
    fun hm => hm.mono fun _ _ he => .inl he.symm
  cases c with
  | call f xs => exact (call_refuses f xs).mono fun _ _ he => .inr ⟨f, xs, rfl, he.symm⟩
  | sum xs => exact hsingle (gathering_refuses .sum xs)
  | product xs => exact hsingle (gathering_refuses .product xs)
  | power x y => exact hsingle (power_refuses x y)
  | withOperands x xs => exact hsingle (withOperands_refuses x xs)
  | powerOf | negate | subtract | divide => exact hc.elim
  | _ => exact hsingle (intern_refuses _ _)

/-- All constructions fail in the same ways. -/
theorem build_refuses (c : Construction) : Refuses Unfinished c.build := by
  have hfinish : ∀ {R : Graph → Graph → Prop} {m : Build NodeId}, Refuses R m →
      Refuses Unfinished m := fun hm => hm.mono fun _ _ _ => trivial
  have hconstant : ∀ q, Refuses Unfinished (Graph.constant q) := fun q =>
    hfinish (intern_refuses _ _)
  have hnegate : ∀ x, Refuses Unfinished (Graph.negate x) := fun x =>
    (hconstant (-1)).bind fun y => hfinish (gathering_refuses .product [y, x])
  have hpower : ∀ x q, Refuses Unfinished (Graph.powerOf x q) := fun x q =>
    (hconstant q).bind fun y => hfinish (power_refuses x y)
  cases c with
  | powerOf x q => exact hpower x q
  | negate x => exact hnegate x
  | subtract x y => exact (hnegate y).bind fun z => hfinish (gathering_refuses .sum [x, z])
  | divide x y => exact (hpower y (-1)).bind fun z => hfinish (gathering_refuses .product [x, z])
  | _ => exact hfinish (single_refuses trivial)

end Construction

end Graph

namespace Workspace

variable {α β : Type} {ws ws' : Workspace} {e : Error}

/-- The errors of operands that are missing, or do not belong together. -/
def Misplaced : Error → Prop
  | .emptyHandle | .differentGraphs | .noGraphFor _ | .missingCallee => True
  | _ => False

theorem not_misplaced_of_refusal (h : Graph.Refusal e) : ¬ Misplaced e := by
  cases h <;> exact id

/-- A computation that only looks at a workspace. -/
def Looks (m : Work α) : Prop := ∀ ws, final (m ws) = ws

/-- A computation that has done nothing when it fails because of its operands. -/
def Traceless (m : Work α) : Prop :=
  ∀ ⦃ws : Workspace⦄ ⦃e : Error⦄ ⦃ws' : Workspace⦄, m ws = .error e ws' → Misplaced e → ws' = ws

/-- A computation that does not fail because of its operands. -/
def Apt (m : Work α) : Prop :=
  ∀ ⦃ws : Workspace⦄ ⦃e : Error⦄ ⦃ws' : Workspace⦄, m ws = .error e ws' → ¬ Misplaced e

namespace Apt

theorem pure (a : α) : Apt (Pure.pure a : Work α) := nofun

theorem bind {m : Work α} {f : α → Work β} (hm : Apt m) (hf : ∀ a, Apt (f a)) :
    Apt (m >>= f) := by
  intro ws e ws' he
  simp only [Bind.bind, EStateM.bind] at he
  cases hr : m ws with
  | ok a ws₁ =>
    rw [hr] at he
    exact hf a he
  | error e₁ ws₁ =>
    rw [hr] at he
    cases he
    exact hm hr

theorem within {R : Graph → Graph → Prop} (k : Nat) {m : Build α} (hm : Graph.Refuses R m) :
    Apt (Workspace.within k m) := by
  intro ws e ws' he
  rw [within_eq] at he
  cases hr : m (ws.graph k) with
  | ok x g =>
    rw [hr] at he
    cases he
  | error e₁ g =>
    rw [hr] at he
    cases he
    exact not_misplaced_of_refusal (hm hr).1

theorem make {R : Graph → Graph → Prop} (k : Nat) {m : Build NodeId} (hm : Graph.Refuses R m) :
    Apt (Workspace.make k m) :=
  (within k hm).bind fun _ => pure _

end Apt

namespace Looks

theorem pure (a : α) : Looks (Pure.pure a : Work α) := fun _ => rfl

theorem throw (e : Error) : Looks (MonadExcept.throw e : Work α) := fun _ => rfl

theorem bind {m : Work α} {f : α → Work β} (hm : Looks m) (hf : ∀ a, Looks (f a)) :
    Looks (m >>= f) := by
  intro ws
  have h := hm ws
  simp only [Bind.bind, EStateM.bind]
  cases he : m ws with
  | ok a ws' =>
    rw [he] at h
    obtain rfl : ws' = ws := h
    exact hf a ws'
  | error e ws' =>
    rw [he] at h
    exact h

theorem resolve (h : Handle) : Looks (Workspace.resolve h) := by
  cases h with
  | empty => exact throw _
  | node k x => exact pure _

theorem together (l r : Handle) : Looks (Workspace.together l r) := by
  unfold Workspace.together
  split
  · split
    · exact pure _
    · exact throw _
  · exact throw _

theorem nodesIn (k : Nat) (hs : List Handle) : Looks (Workspace.nodesIn k hs) := by
  induction hs with
  | nil => exact pure []
  | cons h hs ih =>
    cases h with
    | empty => exact throw _
    | node k' x =>
      rw [Workspace.nodesIn]
      split
      · exact ih.bind fun xs => pure _
      · exact throw _

theorem graphOf (operation : String) (hs : List Handle) : Looks (Workspace.graphOf operation hs) := by
  unfold Workspace.graphOf
  split
  · exact pure _
  · exact throw _

end Looks

namespace Traceless

theorem throw (e : Error) : Traceless (MonadExcept.throw e : Work α) := by
  rintro ws _ _ ⟨⟩ -
  rfl

theorem bind {m : Work α} {f : α → Work β} (hm : Looks m) (hf : ∀ a, Traceless (f a)) :
    Traceless (m >>= f) := by
  intro ws e ws' he hmis
  have h := hm ws
  simp only [Bind.bind, EStateM.bind] at he
  cases hr : m ws with
  | ok a ws₁ =>
    rw [hr] at he h
    obtain rfl : ws₁ = ws := h
    exact hf a he hmis
  | error e₁ ws₁ =>
    rw [hr] at he h
    cases he
    exact h

theorem of_apt {m : Work α} (hm : Apt m) : Traceless m := fun _ _ _ he hmis =>
  absurd hmis (hm he)

/-- What is wrong with operands is found out before anything is built. -/
theorem construct (k : Nat) (c : Graph.Construction) : Traceless (make k c.build) :=
  of_apt (.make k c.build_refuses)

end Traceless

/-- The ways to build an expression from others. -/
inductive Assembly where
  | sum (k : Nat) (terms : List Handle)
  | product (k : Nat) (factors : List Handle)
  | sumOf (terms : List Handle)
  | productOf (factors : List Handle)
  | power (base exponent : Handle)
  | powerOf (base : Handle) (exponent : Rat)
  | binary (op : Operator) (l r : Handle)
  | unary (op : Operator) (h : Handle)
  | call (k : Nat) (f : Option Callee) (arguments : List Handle)
  | callOf (f : Option Callee) (arguments : List Handle)
  | set (k : Nat) (members : List Handle)
  | arrow (l r : Handle)
  | add (l r : Handle)
  | multiply (l r : Handle)
  | negate (h : Handle)
  | subtract (l r : Handle)
  | divide (l r : Handle)

namespace Assembly

def perform : Assembly → Work Handle
  | sum k hs => Workspace.sum k hs
  | product k hs => Workspace.product k hs
  | sumOf hs => Workspace.sumOf hs
  | productOf hs => Workspace.productOf hs
  | power l r => Workspace.power l r
  | powerOf h q => Workspace.powerOf h q
  | binary op l r => Workspace.binary op l r
  | unary op h => Workspace.unary op h
  | call k f hs => Workspace.call k f hs
  | callOf f hs => Workspace.callOf f hs
  | set k hs => Workspace.set k hs
  | arrow l r => Workspace.arrow l r
  | add l r => Workspace.add l r
  | multiply l r => Workspace.multiply l r
  | negate h => Workspace.negate h
  | subtract l r => Workspace.subtract l r
  | divide l r => Workspace.divide l r

end Assembly

theorem sum_traceless (k : Nat) (hs : List Handle) : Traceless (sum k hs) :=
  .bind (.nodesIn k hs) fun xs => .construct k (.sum xs)

theorem product_traceless (k : Nat) (hs : List Handle) : Traceless (product k hs) :=
  .bind (.nodesIn k hs) fun xs => .construct k (.product xs)

theorem call_traceless (k : Nat) (f : Option Callee) (hs : List Handle) :
    Traceless (call k f hs) := by
  apply Traceless.bind (.nodesIn k hs)
  intro xs
  cases f with
  | some f => exact .construct k (.call f xs)
  | none => exact .throw _

theorem power_traceless (l r : Handle) : Traceless (power l r) :=
  .bind (.together l r) fun p => .construct p.1 (.power p.2.1 p.2.2)

/-- The exponent is built before the base is looked at, but in the graph of the base. -/
theorem powerOf_traceless (h : Handle) (q : Rat) : Traceless (powerOf h q) := by
  cases h with
  | empty => exact Traceless.throw .emptyHandle
  | node k x =>
    have heq : powerOf (.node k x) q =
        within k (Graph.constant q) >>= fun z => make k (Graph.power x z) := by
      simp only [powerOf, constantNear, resolve, constant, make, power, together, pure_bind,
        bind_assoc, if_true]
    rw [heq]
    apply Traceless.of_apt
    apply (Apt.within k (Graph.Construction.build_refuses (.constant q))).bind
    exact fun z => .make k (Graph.power_refuses x z)

/-- An operation that fails because of its operands has changed nothing. -/
theorem Assembly.perform_traceless (a : Assembly) : Traceless a.perform := by
  cases a with
  | sum k hs => exact sum_traceless k hs
  | product k hs => exact product_traceless k hs
  | sumOf hs => exact .bind (.graphOf _ hs) fun k => sum_traceless k hs
  | productOf hs => exact .bind (.graphOf _ hs) fun k => product_traceless k hs
  | power l r => exact power_traceless l r
  | powerOf h q => exact powerOf_traceless h q
  | binary op l r => exact .bind (.together l r) fun p => .construct p.1 (.binary op p.2.1 p.2.2)
  | unary op h => exact .bind (.resolve h) fun p => .construct p.1 (.unary op p.2)
  | call k f hs => exact call_traceless k f hs
  | callOf f hs => exact .bind (.graphOf _ hs) fun k => call_traceless k f hs
  | set k hs => exact .bind (.nodesIn k hs) fun xs => .construct k (.set xs)
  | arrow l r => exact .bind (.together l r) fun p => .construct p.1 (.arrow p.2.1 p.2.2)
  | add l r => exact .bind (.together l r) fun p => .construct p.1 (.sum [p.2.1, p.2.2])
  | multiply l r => exact .bind (.together l r) fun p => .construct p.1 (.product [p.2.1, p.2.2])
  | negate h => exact .bind (.resolve h) fun p => .construct p.1 (.negate p.2)
  | subtract l r => exact .bind (.together l r) fun p => .construct p.1 (.subtract p.2.1 p.2.2)
  | divide l r => exact .bind (.together l r) fun p => .construct p.1 (.divide p.2.1 p.2.2)

end Workspace

end ExactAlgebra
