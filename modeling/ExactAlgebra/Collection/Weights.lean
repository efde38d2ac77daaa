/-!
Rational weights of keys, listed in the order in which the keys were first met.
-/

namespace ExactAlgebra

structure Weights (κ : Type) where
  entries : List (κ × Rat)

namespace Weights

variable {κ : Type} [DecidableEq κ]

def empty : Weights κ := ⟨[]⟩

def size (w : Weights κ) : Nat := w.entries.length

def isEmpty (w : Weights κ) : Bool := w.entries.isEmpty

def keys (w : Weights κ) : List κ := w.entries.map (·.1)

/-- Where the entry of a key stands. -/
def position? (w : Weights κ) (k : κ) : Option Nat := w.entries.findIdx? (·.1 = k)

def contains (w : Weights κ) (k : κ) : Bool := (w.position? k).isSome

/-- The weight of a key; a key that was never met weighs nothing. -/
def weight (w : Weights κ) (k : κ) : Rat :=
  match w.entries.find? (·.1 = k) with
  | some (_, q) => q
  | none => 0

/-- Changes the weight of a key, which becomes the last entry if it is new. -/
def update (w : Weights κ) (k : κ) (f : Rat → Rat) : Weights κ :=
  match w.position? k with
  | some i => ⟨w.entries.modify i fun entry => (entry.1, f entry.2)⟩
  | none => ⟨w.entries ++ [(k, f 0)]⟩

def add (w : Weights κ) (k : κ) (q : Rat) : Weights κ := w.update k (· + q)

def erase (w : Weights κ) (k : κ) : Weights κ :=
  match w.position? k with
  | some i => ⟨w.entries.eraseIdx i⟩
  | none => w

end Weights

end ExactAlgebra
