import ExactAlgebra.Proofs.Graph.Arithmetic

/-!
What collection needs of a way to read numbers from nodes. There are several such ways: rational
values at a point, and real values, with or without negative parts.
-/

namespace ExactAlgebra

/-- The numbers that nodes stand for, and what their powers with constant exponents are. -/
structure Reading (K : Type) [Field K] [CharZero K] where
  Value : Graph → NodeId → K → Prop
  /-- The base that a node is, raised to an exponent, has a value. -/
  Raises : Graph → NodeId → Rat → K → Prop
  /-- The constants that can be read. -/
  Admits : Rat → Prop

namespace Reading

variable {K : Type} [Field K] [CharZero K]

/-- The values of the nodes of a list. -/
abbrev Values (R : Reading K) (g : Graph) : List NodeId → List K → Prop :=
  List.Forall₂ (R.Value g)

open ExactAlgebra.Graph (Meets Overflow)

/-- Values are those of numbers, sums, products and powers. -/
structure Lawful (R : Reading K) : Prop where
  admits_zero : R.Admits 0
  admits_one : R.Admits 1
  admits_add {q p : Rat} (hq : R.Admits q) (hp : R.Admits p) : R.Admits (q + p)
  admits_mul {q p : Rat} (hq : R.Admits q) (hp : R.Admits p) : R.Admits (q * p)
  admits_inv {q : Rat} (hq : R.Admits q) : R.Admits q⁻¹
  lt_size {g : Graph} {x : NodeId} {v : K} (hx : R.Value g x v) : x < g.size
  lt_size_of_raises {g : Graph} {x : NodeId} {e : Rat} {p : K} (hx : R.Raises g x e p) : x < g.size
  unique {g : Graph} {x : NodeId} {v w : K} (hv : R.Value g x v) (hw : R.Value g x w) : v = w
  extends_value {g g' : Graph} {x : NodeId} {v : K} (hg : g.WellFormed) (h : g.Extends g')
    (hx : R.Value g x v) : R.Value g' x v
  extends_raises {g g' : Graph} {x : NodeId} {e : Rat} {p : K} (hg : g.WellFormed)
    (h : g.Extends g') (hx : R.Raises g x e p) : R.Raises g' x e p
  of_value? {g : Graph} {x : NodeId} {v : K} {q : Rat} (hx : R.Value g x v)
    (hq : g.value? x = some q) : v = q ∧ R.Admits q
  terms {g : Graph} {x : NodeId} {v : K} (hx : R.Value g x v) :
    ∃ vs, R.Values g (g.terms x) vs ∧ vs.sum = v
  factors {g : Graph} {x : NodeId} {v : K} (hx : R.Value g x v) :
    ∃ vs, R.Values g (g.factors x) vs ∧ vs.prod = v
  constant {g : Graph} {q : Rat} (hg : g.WellFormed) (hq : R.Admits q) :
    Meets Overflow (Graph.constant q) g fun y g' => R.Value g' y q
  sum {g : Graph} {xs : List NodeId} {vs : List K} (hg : g.WellFormed) (hxs : R.Values g xs vs) :
    Meets Overflow (Graph.sum xs) g fun y g' => R.Value g' y vs.sum
  product {g : Graph} {xs : List NodeId} {vs : List K} (hg : g.WellFormed)
    (hxs : R.Values g xs vs) :
    Meets Overflow (Graph.product xs) g fun y g' => R.Value g' y vs.prod
  zero {g : Graph} (hg : g.WellFormed) : R.Value g Graph.zero 0
  /-- The powers that are read. -/
  base {g : Graph} {x b y : NodeId} {v : K} {e : Rat} (hx : R.Value g x v)
    (hs : g.shape x = .power) (hops : g.operands x = [b, y]) (he : g.value? y = some e) :
    R.Raises g b e v
  power {g : Graph} {b y : NodeId} {e : Rat} {p : K} (hg : g.WellFormed) (hb : R.Raises g b e p)
    (hy : g.plainValue? y = some e) :
    Meets Overflow (Graph.power b y) g fun z g' => R.Value g' z p
  raises_zero {g : Graph} {x : NodeId} {p : K} (hx : R.Raises g x 0 p) : p = 1
  raises_one {g : Graph} {x : NodeId} {v : K} : R.Raises g x 1 v ↔ R.Value g x v
  raises_neg_one {g : Graph} {x : NodeId} {p : K} :
    R.Raises g x (-1) p ↔ ∃ v, R.Value g x v ∧ v ≠ 0 ∧ p = v⁻¹
  raises_add {g : Graph} {x : NodeId} {e f : Rat} {p q : K} (he : R.Raises g x e p)
    (hf : R.Raises g x f q) : R.Raises g x (e + f) (p * q)
  /-- Exact powers of constants are powers. -/
  exact {g : Graph} {x : NodeId} {b e q : Rat} {p : K} (hx : R.Raises g x e p)
    (hb : g.value? x = some b) (hq : (Rational.power b e).toOption.join = some q) :
    p = q ∧ R.Admits q

end Reading

end ExactAlgebra
