import ExactAlgebra.Proofs.Graph.WellFormed

/-!
Classes of computations that are closed under composition. What the elementary constructions have
in common is so shared by all constructions.
-/

namespace ExactAlgebra

/-- The state that is left, also by a failure. -/
def final {σ α : Type} : EStateM.Result Error σ α → σ
  | .ok _ s => s
  | .error _ s => s

/-- A class of computations that is closed under composition. -/
structure Closure (M : Type → Type) [Monad M] where
  Holds : {α : Type} → M α → Prop
  pure : ∀ {α : Type} (a : α), Holds (Pure.pure a : M α)
  bind : ∀ {α β : Type} {m : M α} {f : α → M β}, Holds m → (∀ a, Holds (f a)) → Holds (m >>= f)

namespace Closure

variable {M : Type → Type} [Monad M] {α β : Type}

theorem ite (P : Closure M) {c : Prop} [Decidable c] {m m' : M α} (h : c → P.Holds m)
    (h' : ¬ c → P.Holds m') : P.Holds (if c then m else m') := by
  split
  · exact h ‹_›
  · exact h' ‹_›

theorem forIn (P : Closure M) {f : α → β → M (ForInStep β)} (hf : ∀ a b, P.Holds (f a b))
    (as : List α) (b : β) : P.Holds (forIn as b f) := by
  induction as generalizing b with
  | nil => exact P.pure b
  | cons a as ih =>
    rw [List.forIn_cons]
    apply P.bind (hf a b)
    intro r
    cases r with
    | done b => exact P.pure b
    | yield b => exact ih b

theorem foldlM (P : Closure M) {f : β → α → M β} (hf : ∀ b a, P.Holds (f b a)) (as : List α)
    (b : β) : P.Holds (as.foldlM f b) := by
  induction as generalizing b with
  | nil => exact P.pure b
  | cons a as ih =>
    rw [List.foldlM_cons]
    exact P.bind (hf b a) ih

theorem forM (P : Closure M) {f : α → M PUnit} (hf : ∀ a, P.Holds (f a)) (as : List α) :
    P.Holds (as.forM f) := by
  induction as with
  | nil => exact P.pure _
  | cons a as ih => exact P.bind (hf a) fun _ => ih

variable [LawfulMonad M]

theorem mapM (P : Closure M) {f : α → M β} (hf : ∀ a, P.Holds (f a)) (as : List α) :
    P.Holds (as.mapM f) := by
  induction as with
  | nil => exact P.pure []
  | cons a as ih =>
    rw [List.mapM_cons]
    exact P.bind (hf a) fun b => P.bind ih fun bs => P.pure _

theorem filterMapM (P : Closure M) {f : α → M (Option β)} (hf : ∀ a, P.Holds (f a))
    (as : List α) : P.Holds (as.filterMapM f) := by
  induction as with
  | nil => exact P.pure []
  | cons a as ih =>
    rw [List.filterMapM_cons]
    apply P.bind (hf a)
    intro b
    cases b with
    | none => exact ih
    | some b => exact P.bind ih fun bs => P.pure _

/-- The computations that leave a state to which the one that they start from is related. -/
def along {σ : Type} (R : σ → σ → Prop) (hrefl : ∀ s, R s s)
    (htrans : ∀ {s s' s''}, R s s' → R s' s'' → R s s'') : Closure (EStateM Error σ) where
  Holds m := ∀ s, R s (final (m s))
  pure _ s := hrefl s
  bind {_ _ m f} hm hf s := by
    have h := hm s
    simp only [Bind.bind, EStateM.bind]
    cases he : m s with
    | ok a s' =>
      rw [he] at h
      exact htrans h (hf a s')
    | error e s' =>
      rw [he] at h
      exact h

end Closure

/-- The shapes whose nodes are built over any operands as they are given. -/
def Shape.IsVerbatim : Shape → Prop
  | .sum | .product | .power | .call _ => False
  | _ => True

namespace Graph

/-- A class of constructions that has the elementary ones and is closed under composition. -/
structure Constructions extends Closure Build where
  throw : ∀ {α : Type} (e : Error), Holds (MonadExcept.throw e : Build α)
  get : Holds (MonadState.get : Build Graph)
  intern : ∀ {s : Shape} {xs : List NodeId}, (∀ f, s ≠ .call f) → s.Allows xs.length →
    Holds (intern s xs)
  call : ∀ f xs, Holds (call f xs)
  /-- A function that a node of the graph calls can be called again. -/
  callAgain : ∀ {x : NodeId} {xs : List NodeId} {k : Graph → Build NodeId},
    (∀ g f, g.shape x = .call f → k g = Graph.intern (.call f) xs) →
    (∀ g, (∀ f, g.shape x ≠ .call f) → Holds (k g)) → Holds (MonadState.get >>= k)

/-- A class of constructions that has all the ways to build a node and is closed under composition.
Sums, products and powers need not be there in other than canonical shape. -/
structure Builders extends Closure Build where
  throw : ∀ {α : Type} (e : Error), Holds (MonadExcept.throw e : Build α)
  get : Holds (MonadState.get : Build Graph)
  intern : ∀ {s : Shape} {xs : List NodeId}, s.IsVerbatim → s.Allows xs.length → Holds (intern s xs)
  sum : ∀ ts, Holds (sum ts)
  product : ∀ fs, Holds (product fs)
  power : ∀ x y, Holds (power x y)
  call : ∀ f xs, Holds (call f xs)
  /-- A function that a node of the graph calls can be called again. -/
  callAgain : ∀ {x : NodeId} {xs : List NodeId} {k : Graph → Build NodeId},
    (∀ g f, g.shape x = .call f → k g = Graph.intern (.call f) xs) →
    (∀ g, (∀ f, g.shape x ≠ .call f) → Holds (k g)) → Holds (MonadState.get >>= k)

namespace Constructions

variable (P : Constructions)

theorem sum_holds (ts : List NodeId) : P.Holds (sum ts) := by
  apply P.bind P.get
  intro g
  match g.flattenSum ts with
  | [] => exact P.pure _
  | [x] => exact P.pure _
  | x :: y :: xs => exact P.intern (fun _ => Shape.noConfusion) trivial

theorem product_holds (fs : List NodeId) : P.Holds (product fs) := by
  apply P.bind P.get
  intro g
  apply P.ite (fun _ => P.pure _)
  intro _
  match g.flattenProduct fs with
  | [] => exact P.pure _
  | [x] => exact P.pure _
  | x :: y :: xs => exact P.intern (fun _ => Shape.noConfusion) (by trivial)

theorem power_holds (x y : NodeId) : P.Holds (power x y) := by
  apply P.bind P.get
  intro g
  exact P.ite (fun _ => P.pure _) fun _ => P.intern (fun _ => Shape.noConfusion) (by exact rfl)

/-- Where every node can be built, so can those of canonical shape. -/
def builders : Builders where
  toClosure := P.toClosure
  throw := P.throw
  get := P.get
  intern hs harity := P.intern (fun _ he => by rwa [he] at hs) harity
  sum := sum_holds P
  product := product_holds P
  power := power_holds P
  call := P.call
  callAgain := P.callAgain

end Constructions

variable {α β : Type} (P : Builders)

theorem ofExcept_holds : ∀ r : Except Error α, P.Holds (ofExcept r : Build α)
  | .ok a => P.pure a
  | .error e => P.throw e

theorem constant_holds (q : Rat) : P.Holds (constant q) :=
  P.intern trivial rfl

theorem symbol_holds (name : String) : P.Holds (symbol name) :=
  P.intern trivial (by exact rfl)

theorem binary_holds (op : Operator) (x y : NodeId) : P.Holds (binary op x y) :=
  P.intern trivial rfl

theorem unary_holds (op : Operator) (x : NodeId) : P.Holds (unary op x) :=
  P.intern trivial rfl

theorem set_holds (xs : List NodeId) : P.Holds (set xs) :=
  P.intern trivial trivial

theorem arrow_holds (x y : NodeId) : P.Holds (arrow x y) :=
  P.intern trivial rfl

theorem pick_holds (xs : List NodeId) (position : Nat) : P.Holds (pick xs position) := by
  unfold pick
  split
  · exact P.pure _
  · exact P.throw _

theorem pickPair_holds (xs : List NodeId) : P.Holds (pickPair xs) :=
  P.bind (pick_holds P xs 1) fun _ => P.bind (pick_holds P xs 0) fun _ => P.pure _

theorem withOperands_holds (x : NodeId) (xs : List NodeId) : P.Holds (withOperands x xs) := by
  apply P.callAgain (x := x)
  · intro g f hs
    rw [hs]
  · intro g hcall
    cases hs : g.shape x with
    | constant | symbol => exact P.pure _
    | sum => exact P.sum xs
    | product => exact P.product xs
    | power => exact P.bind (pickPair_holds P xs) fun p => P.power p.1 p.2
    | binary op => exact P.bind (pickPair_holds P xs) fun p => binary_holds P op p.1 p.2
    | unary op => exact P.bind (pick_holds P xs 0) fun y => unary_holds P op y
    | call f => exact absurd hs (hcall f)
    | set => exact set_holds P xs
    | arrow => exact P.bind (pickPair_holds P xs) fun p => arrow_holds P p.1 p.2

theorem negate_holds (x : NodeId) : P.Holds (negate x) :=
  P.bind (constant_holds P (-1)) fun _ => P.product _

theorem subtract_holds (x y : NodeId) : P.Holds (subtract x y) :=
  P.bind (negate_holds P y) fun _ => P.sum _

theorem powerOf_holds (x : NodeId) (q : Rat) : P.Holds (powerOf x q) :=
  P.bind (constant_holds P q) fun _ => P.power x _

theorem divide_holds (x y : NodeId) : P.Holds (divide x y) :=
  P.bind (powerOf_holds P y (-1)) fun _ => P.product _

/-! ### All constructions -/

/-- The ways to build a node, placeholders apart. -/
inductive Construction where
  | constant (value : Rat)
  | symbol (name : String)
  | call (f : Callee) (arguments : List NodeId)
  | binary (op : Operator) (l r : NodeId)
  | unary (op : Operator) (x : NodeId)
  | set (members : List NodeId)
  | arrow (l r : NodeId)
  | sum (terms : List NodeId)
  | product (factors : List NodeId)
  | power (base exponent : NodeId)
  | powerOf (base : NodeId) (exponent : Rat)
  | negate (x : NodeId)
  | subtract (l r : NodeId)
  | divide (l r : NodeId)
  | withOperands (x : NodeId) (xs : List NodeId)

namespace Construction

def build : Construction → Build NodeId
  | constant q => Graph.constant q
  | symbol name => Graph.symbol name
  | call f xs => Graph.call f xs
  | binary op l r => Graph.binary op l r
  | unary op x => Graph.unary op x
  | set xs => Graph.set xs
  | arrow l r => Graph.arrow l r
  | sum xs => Graph.sum xs
  | product xs => Graph.product xs
  | power x y => Graph.power x y
  | powerOf x q => Graph.powerOf x q
  | negate x => Graph.negate x
  | subtract l r => Graph.subtract l r
  | divide l r => Graph.divide l r
  | withOperands x xs => Graph.withOperands x xs

theorem build_holds (c : Construction) : P.Holds c.build := by
  cases c with
  | constant q => exact constant_holds P q
  | symbol name => exact symbol_holds P name
  | call f xs => exact P.call f xs
  | binary op x y => exact binary_holds P op x y
  | unary op x => exact unary_holds P op x
  | set xs => exact set_holds P xs
  | arrow x y => exact arrow_holds P x y
  | sum xs => exact P.sum xs
  | product xs => exact P.product xs
  | power x y => exact P.power x y
  | powerOf x q => exact powerOf_holds P x q
  | negate x => exact negate_holds P x
  | subtract x y => exact subtract_holds P x y
  | divide x y => exact divide_holds P x y
  | withOperands x xs => exact withOperands_holds P x xs

end Construction

end Graph

end ExactAlgebra
