import ExactAlgebra.Proofs.Rational.Reading
import ExactAlgebra.Proofs.Tree.Text

/-!
A reader for the texts of trees. It goes by how loosely a node holds its operands together, and
takes as much of a text as a node of that kind can have. A bracket that closes, a comma, and a link
of a looser node end what is read.
-/

namespace ExactAlgebra

/-! ### Links -/

/-- The operators that stand between two operands. -/
def Operator.infixes : List Operator :=
  [.equal, .notEqual, .less, .lessEqual, .greater, .greaterEqual, .conjunction, .disjunction,
    .substitution]

namespace Shape

/-- The kinds of nodes whose operands are linked. -/
def links : List Shape := [power, product, sum] ++ Operator.infixes.map binary ++ [arrow]

theorem mem_links_of_infix {op : Operator} (h : op ∈ Operator.infixes) : binary op ∈ links :=
  List.mem_append_left _ (List.mem_append_right _ (List.mem_map_of_mem h))

theorem one_lt_looseness : ∀ s ∈ links, 1 < s.looseness := by
  decide

/-- No link begins with another one. -/
theorem eq_of_link_prefix :
    ∀ s ∈ links, ∀ s' ∈ links, s.link.toList <+: s'.link.toList → s = s' := by
  decide

theorem head_link {s : Shape} (hs : s ∈ links) :
    ∃ c ∈ [' ', '*', '^'], s.link.toList.head? = some c := by
  have hall : ∀ s ∈ links, s.link.toList.head? ∈ [' ', '*', '^'].map some := by decide
  obtain ⟨c, hc, he⟩ := List.mem_map.1 (hall s hs)
  exact ⟨c, hc, he.symm⟩

end Shape

/-- What may stand in a text after a node that is no looser than `k`. -/
inductive After (k : Nat) : List Char → Prop
  | done : After k []
  | closing {c : Char} {cs : List Char} (h : c ∈ [')', '\x7d', ',']) : After k (c :: cs)
  | link {s : Shape} {cs : List Char} (hs : s ∈ Shape.links) (hk : k < s.looseness) :
    After k (s.link.toList ++ cs)

variable {s s' : Shape} {k k' : Nat} {rest cs : List Char} {c : Char}

theorem dropPrefix?_append (front cs : List Char) : (front ++ cs).dropPrefix? front = some cs :=
  List.dropPrefix?_eq_some_iff.2 ⟨front, rfl, beq_self_eq_true _⟩

theorem eq_append_of_dropPrefix? {front left : List Char} (h : rest.dropPrefix? front = some left) :
    rest = front ++ left := by
  obtain ⟨front', he, hfront⟩ := List.dropPrefix?_eq_some_iff.1 h
  rwa [eq_of_beq hfront] at he

theorem dropPrefix?_link (hs : s ∈ Shape.links) (hs' : s' ∈ Shape.links) (h : s ≠ s') :
    (s.link.toList ++ cs).dropPrefix? s'.link.toList = none := by
  by_contra hne
  obtain ⟨left, hleft⟩ := Option.ne_none_iff_exists'.1 hne
  have hprefix : s'.link.toList <+: s.link.toList ++ cs :=
    eq_append_of_dropPrefix? hleft ▸ List.prefix_append ..
  rcases List.prefix_or_prefix_of_prefix hprefix (List.prefix_append ..) with hp | hp
  · exact h (Shape.eq_of_link_prefix s' hs' s hs hp).symm
  · exact h (Shape.eq_of_link_prefix s hs s' hs' hp)

namespace After

theorem mono (h : After k' rest) (hk : k ≤ k') : After k rest := by
  cases h with
  | done => exact .done
  | closing h => exact .closing h
  | link hs hlt => exact .link hs (hk.trans_lt hlt)

theorem head (h : After k rest) (hc : rest.head? = some c) :
    c ∈ [')', '\x7d', ',', ' ', '*', '^'] := by
  cases h with
  | done => cases hc
  | closing h =>
    cases hc
    exact List.mem_append_left [' ', '*', '^'] h
  | @link s cs hs =>
    obtain ⟨d, hmem, hd⟩ := Shape.head_link hs
    rw [List.head?_append, hd] at hc
    cases hc
    exact List.mem_append_right [')', '\x7d', ','] hmem

/-- A node is not continued by a link that is not loose enough. -/
theorem dropPrefix? (h : After k rest) (hs : s ∈ Shape.links) (hk : s.looseness ≤ k) :
    rest.dropPrefix? s.link.toList = none := by
  refine Option.eq_none_iff_forall_ne_some.2 fun left hleft => ?_
  obtain ⟨c, hmem, hc⟩ := Shape.head_link hs
  have hhead : rest.head? = some c := by
    rw [eq_append_of_dropPrefix? hleft, List.head?_append, hc]
    rfl
  cases h with
  | done => cases hhead
  | closing h =>
    cases hhead
    fin_cases hmem <;> exact absurd h (by decide)
  | link hs' hlt =>
    rw [dropPrefix?_link hs' hs] at hleft
    · cases hleft
    · rintro rfl
      exact absurd hk (Nat.not_le.2 hlt)

end After

/-! ### Readers -/

/-- Takes a value off the front of a text, and gives what is left of the text. -/
abbrev Reader (α : Type) := List Char → Option (α × List Char)

namespace Reader

variable {α : Type}

/-- Up to `n` items, with a separator between each two. -/
def separatedWithin (separator : String) (item : Reader α) : Nat → Reader (List α)
  | 0, _ => none
  | n + 1, cs => do
    let (x, cs) ← item cs
    match cs.dropPrefix? separator.toList with
    | none => return ([x], cs)
    | some cs =>
      let (xs, cs) ← separatedWithin separator item n cs
      return (x :: xs, cs)

/-- There are no more items than characters, since each separator has one at least. -/
def separated (separator : String) (item : Reader α) : Reader (List α) :=
  fun cs => separatedWithin separator item (cs.length + 1) cs

/-- Items up to a bracket, and none if there is no first one. -/
def enclosed (item : Reader α) (bracket : Char) : Reader (List α) := fun cs => do
  let (xs, cs) := (separated ", " item cs).getD ([], cs)
  return (xs, ← cs.dropPrefix? [bracket])

def isWordChar (c : Char) : Bool := c.isAlphanum || c == '_'

def number : Reader Tree := fun cs => do
  let (p, q) ← Rational.readFraction? (cs.takeWhile Rational.isNumeral)
  return (.node (.constant (Rational.ofFraction p q)) [], cs.dropWhile Rational.isNumeral)

/-- A symbol, or a call if a bracket follows on the word; a library has the functions by their
names. -/
def applied (lib : String → Callee) (item : Reader Tree) (word : String) : Reader Tree
  | '(' :: cs => do
    let (ts, cs) ← enclosed item ')' cs
    return (.node (.call (lib word)) ts, cs)
  | cs => some (.node (.symbol word) [], cs)

def named (lib : String → Callee) (item : Reader Tree) : Reader Tree := fun cs =>
  match cs.takeWhile isWordChar with
  | [] => none
  | word => applied lib item (String.ofList word) (cs.dropWhile isWordChar)

/-- What is one piece; `item` is for what stands between brackets. -/
def piece (lib : String → Callee) (item : Reader Tree) : Reader Tree
  | [] => none
  | '(' :: cs => do
    let (t, cs) ← item cs
    return (t, ← cs.dropPrefix? [')'])
  | '\x7b' :: cs => do
    let (ts, cs) ← enclosed item '\x7d' cs
    return (.node .set ts, cs)
  | c :: cs => if Rational.isNumeral c then number (c :: cs) else named lib item (c :: cs)

def isNegation : Tree → Bool
  | .node (.symbol name) _ => name == "not"
  | _ => false

/-- An item, and the one after it if the first one is the word for a negation. -/
def negated (item : Reader Tree) : Reader Tree := fun cs => do
  let (t, cs) ← item cs
  if isNegation t then
    let (t, cs) ← item (cs.drop 1)
    return (.node (.unary .negation) [t], cs)
  else return (t, cs)

/-- An item, or two that are linked. -/
def paired (shapes : List Shape) (item : Reader Tree) : Reader Tree := fun cs => do
  let (l, cs) ← item cs
  match shapes.findSome? fun s => (cs.dropPrefix? s.link.toList).map (s, ·) with
  | none => return (l, cs)
  | some (s, cs) =>
    let (r, cs) ← item cs
    return (.node s [l, r], cs)

def joined (s : Shape) : List Tree → Tree
  | [t] => t
  | ts => .node s ts

/-- An item, or as many as are linked. -/
def gathered (s : Shape) (item : Reader Tree) : Reader Tree := fun cs => do
  let (ts, cs) ← separated s.link item cs
  return (joined s ts, cs)

/-- What is looser than items by one degree at most. -/
def looser : Nat → Reader Tree → Reader Tree
  | 0, item => negated item
  | 1, item => paired [.power] item
  | 2, item => gathered .product item
  | 3, item => gathered .sum item
  | 4, item => paired (Operator.infixes.map .binary) item
  | _, item => paired [.arrow] item

/-- What is no looser than `k`. -/
def within (lib : String → Callee) (item : Reader Tree) : Nat → Reader Tree
  | 0 => piece lib item
  | k + 1 => looser k (within lib item k)

/-- Any node, with brackets down to a depth. -/
def any (lib : String → Callee) : Nat → Reader Tree
  | 0, _ => none
  | depth + 1, cs => within lib (any lib depth) 6 cs

/-- Reads a text to its end. -/
def whole (item : Reader α) (text : String) : Option α :=
  match item text.toList with
  | some (a, []) => some a
  | _ => none

end Reader

def Tree.read (lib : String → Callee) (text : String) : Option Tree :=
  (Reader.any lib (text.length + 1)).whole text

end ExactAlgebra
