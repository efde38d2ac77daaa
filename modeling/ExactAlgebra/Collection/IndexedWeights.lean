import ExactAlgebra.Collection.Weights
import Std.Data.HashMap

/-!
Weights with an index, which says of each key where its entry stands, so that no search is needed.
-/

namespace ExactAlgebra

structure IndexedWeights (κ : Type) [DecidableEq κ] [Hashable κ] where
  entries : Array (κ × Rat)
  index : Std.HashMap κ Nat

namespace IndexedWeights

variable {κ : Type} [DecidableEq κ] [Hashable κ]

def empty : IndexedWeights κ := ⟨#[], ∅⟩

def size (w : IndexedWeights κ) : Nat := w.entries.size

def isEmpty (w : IndexedWeights κ) : Bool := w.entries.isEmpty

def contains (w : IndexedWeights κ) (k : κ) : Bool := w.index.contains k

/-- The weight of a key; a key that was never met weighs nothing. -/
def weight (w : IndexedWeights κ) (k : κ) : Rat :=
  match w.index[k]? with
  | some i => (w.entries[i]?.map Prod.snd).getD 0
  | none => 0

/-- Changes the weight of a key, which becomes the last entry if it is new. -/
def update (w : IndexedWeights κ) (k : κ) (f : Rat → Rat) : IndexedWeights κ :=
  match w.index[k]? with
  | some i => { w with entries := w.entries.modify i fun entry => (entry.1, f entry.2) }
  | none => ⟨w.entries.push (k, f 0), w.index.insert k w.entries.size⟩

def add (w : IndexedWeights κ) (k : κ) (q : Rat) : IndexedWeights κ := w.update k (· + q)

/-- Removes a key. The entries after its own move up by one place, and so do their places in the
index. -/
def erase (w : IndexedWeights κ) (k : κ) : IndexedWeights κ :=
  match w.index[k]? with
  | some i =>
    ⟨w.entries.eraseIdxIfInBounds i, (w.index.erase k).map fun _ j => if i < j then j - 1 else j⟩
  | none => w

/-- The weights without the index. -/
def toWeights (w : IndexedWeights κ) : Weights κ := ⟨w.entries.toList⟩

end IndexedWeights

end ExactAlgebra
