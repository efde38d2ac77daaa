import ExactAlgebra.Graph.Storage
import ExactAlgebra.Proofs.Graph.Frame

/-!
What is read back from the memory of a graph. As long as the pool of operands has fewer than `2 ^ 32`
entries, every node is read back with exactly its own operands; a list of `2 ^ 32` operands is read
back as the empty list.
-/

namespace ExactAlgebra

variable {g g' : Graph} {s s' : Storage} {n : Node} {h : Header} {x y : NodeId}

namespace Storage

/-- The number of values of a 32-bit word. -/
def words : Nat := 4294967296

/-- A header of a node whose operands are in the pool in one piece. -/
def Holds (s : Storage) (h : Header) (n : Node) : Prop :=
  ∃ before after, s.pool.toList = before ++ (n.operands ++ after) ∧ h = n.header before.length

theorem Holds.append (hh : s.Holds h n) (m : Node) : (s.append m).Holds h n := by
  obtain ⟨before, after, hpool, hh⟩ := hh
  refine ⟨before, after ++ m.operands, ?_, hh⟩
  simp only [Storage.append, Array.toList_append, hpool, List.append_assoc]

theorem Holds.close (hh : s.Holds h n) (x y : NodeId) : (s.close x y).Holds h n := hh

/-- A header that is marked as one of a loop has the same operands. -/
theorem Holds.loop (hh : s.Holds h n) :
    s.Holds { h with isLoop := true } { n with isLoop := true } := by
  obtain ⟨before, after, hpool, rfl⟩ := hh
  exact ⟨before, after, hpool, rfl⟩

theorem holds_append_self (s : Storage) (n : Node) :
    (s.append n).Holds (n.header s.pool.size) n := by
  refine ⟨s.pool.toList, [], ?_, rfl⟩
  simp only [Storage.append, Array.toList_append, List.append_nil]

/-- What has no operands may be anywhere. -/
theorem holds_constant (s : Storage) (q : Rat) :
    s.Holds (Node.header { shape := .constant q } 0) { shape := .constant q } :=
  ⟨[], s.pool.toList, rfl, rfl⟩

/-- A place and a length that fit into their words are exact. -/
theorem Holds.read_eq (hh : s.Holds h n) (hpool : s.pool.size < words) : s.read h = n := by
  obtain ⟨before, after, heq, rfl⟩ := hh
  have hsize : before.length + (n.operands.length + after.length) < words := by
    rw [← List.length_append, ← List.length_append, ← heq, Array.length_toList]
    exact hpool
  have hstart : (UInt32.ofNat before.length).toNat = before.length :=
    UInt32.toNat_ofNat_of_lt' (by simp only [words, UInt32.size] at hsize ⊢; omega)
  have hcount : (UInt32.ofNat n.operands.length).toNat = n.operands.length :=
    UInt32.toNat_ofNat_of_lt' (by simp only [words, UInt32.size] at hsize ⊢; omega)
  simp only [read, Node.header, hstart, hcount, Array.toList_extract, List.extract_eq_take_drop,
    heq, List.drop_left, Nat.add_sub_cancel_left, List.take_left]

end Storage

namespace Graph

/-- The operands that take up room: a loop shares those of the node that it was closed over. -/
def placedOperands (g : Graph) : List NodeId :=
  g.nodes.toList.flatMap fun n => if n.isLoop then [] else n.operands

theorem placedOperands_push (g : Graph) {n : Node} (hn : n.isLoop = false) :
    (g.push n).placedOperands = g.placedOperands ++ n.operands := by
  simp [placedOperands, push, hn]

/-- A placeholder took up no room, and a loop takes none. -/
theorem placedOperands_close (hx : x < g.size) (hops : g.operands x = []) (y : NodeId)
    (label : String) : (g.close x y label).placedOperands = g.placedOperands := by
  have hlt : x < g.nodes.toList.length := by
    rw [Array.length_toList]
    exact hx
  have hnode : g.nodes.toList[x] = g.node x := by
    rw [Array.getElem_toList]
    exact (node_of_getElem? (Array.getElem?_eq_getElem hx)).symm
  have hnone : (if (g.node x).isLoop then [] else (g.node x).operands) = [] := by
    split
    · rfl
    · exact hops
  rw [placedOperands, placedOperands, close, Array.toList_setIfInBounds,
    List.set_eq_take_append_cons_drop, if_pos hlt]
  conv_rhs => rw [← List.take_append_drop x g.nodes.toList, List.drop_eq_getElem_cons hlt]
  simp [hnode, hnone]

end Graph

/-- `s` is how `g` is stored after the steps that built it. -/
inductive Stores : Graph → Storage → Prop
  | empty : Stores .empty .empty
  | push {g : Graph} {s : Storage} {n : Node} (hs : Stores g s) (hn : n.isLoop = false) :
      Stores (g.push n) (s.append n)
  | close {g : Graph} {s : Storage} {x : NodeId} (hs : Stores g s) (hx : x < g.size)
      (hops : g.operands x = []) (y : NodeId) (label : String) :
      Stores (g.close x y label) (s.close x y)
  | rest {g g' : Graph} {s : Storage} (hs : Stores g s) (hnodes : g'.nodes = g.nodes) : Stores g' s

namespace Stores

theorem headers_size (hs : Stores g s) : s.headers.size = g.size := by
  induction hs with
  | empty => rfl
  | push _ _ ih => rw [Storage.append, Array.size_push, ih, Graph.size_push]
  | close _ _ _ _ _ ih => rw [Storage.close, Array.size_setIfInBounds, ih, Graph.size_close]
  | rest _ hnodes ih => rw [ih, Graph.size, Graph.size, hnodes]

/-- The pool has the operands of every node that is no loop. -/
theorem pool_eq (hs : Stores g s) : s.pool.toList = g.placedOperands := by
  induction hs with
  | empty => rfl
  | push _ hn ih => rw [Storage.append, Array.toList_append, ih, Graph.placedOperands_push _ hn]
  | close _ hx hops y label ih => exact ih.trans (Graph.placedOperands_close hx hops y label).symm
  | rest _ hnodes ih => rw [ih, Graph.placedOperands, Graph.placedOperands, hnodes]

theorem holds (hs : Stores g s) (x : NodeId) : s.Holds (s.header x) (g.node x) := by
  induction hs generalizing x with
  | empty =>
    match x with
    | 0 => exact Storage.holds_constant _ 0
    | 1 => exact Storage.holds_constant _ 1
    | x + 2 => exact Storage.holds_constant _ 0
  | @push g s n hs hn ih =>
    have hsize := hs.headers_size
    rcases Graph.node_push_cases g n x with ⟨hx, he⟩ | ⟨rfl, he⟩ | ⟨hx, he⟩ <;> rw [he]
    · have hheader : (s.append n).header x = s.header x := by
        rw [Storage.header, Storage.header, Storage.append, Array.getElem?_push_lt (hsize ▸ hx),
          Array.getElem?_eq_getElem (hsize ▸ hx)]
      rw [hheader]
      exact (ih x).append n
    · rw [Storage.header, Storage.append, ← hsize, Array.getElem?_push_size]
      exact Storage.holds_append_self s n
    · have hout : (s.append n).headers.size ≤ x := by
        rw [Storage.append, Array.size_push, hsize]
        exact hx
      rw [Storage.header, Array.getElem?_eq_none hout]
      exact Storage.holds_constant _ 0
  | @close g s z hs hz hops y label ih =>
    have hsize := hs.headers_size
    by_cases hx : x = z
    · subst hx
      rw [Graph.node_close_self hz, Storage.header, Storage.close,
        Array.getElem?_setIfInBounds_self_of_lt (hsize ▸ hz)]
      exact (ih y).loop
    · rw [Graph.node_close_ne hx, Storage.header, Storage.close,
        Array.getElem?_setIfInBounds_ne (Ne.symm hx)]
      exact ih x
  | rest _ hnodes ih =>
    rw [Graph.node, hnodes]
    exact ih x

/-- Every node is read back as it is, while the places of the operands fit into their words. -/
theorem node_eq (hs : Stores g s) (hsmall : g.placedOperands.length < Storage.words)
    (x : NodeId) : s.node x = g.node x := by
  apply (hs.holds x).read_eq
  rw [← Array.length_toList, hs.pool_eq]
  exact hsmall

/-- A list whose length is a multiple of `2 ^ 32` is read back as the empty list. -/
theorem operands_append_of_dvd (hs : Stores g s) (hn : Storage.words ∣ n.operands.length) :
    ((s.append n).node g.size).operands = [] := by
  have hheader : (s.append n).header g.size = n.header s.pool.size := by
    rw [Storage.header, Storage.append, ← hs.headers_size, Array.getElem?_push_size,
      Option.getD_some]
  have hcount : (UInt32.ofNat n.operands.length).toNat = 0 := by
    rw [UInt32.toNat_ofNat']
    exact Nat.mod_eq_zero_of_dvd hn
  simp only [Storage.node, hheader, Storage.read, Node.header, hcount, Nat.add_zero,
    Array.toList_extract, List.extract_eq_take_drop, Nat.sub_self, List.take_zero]

end Stores

namespace Graph

/-! ### Constructions -/

/-- What stores a graph can go on to store the other. -/
def StoredAlong (g g' : Graph) : Prop := ∀ s, Stores g s → ∃ s', Stores g' s'

namespace StoredAlong

theorem refl (g : Graph) : g.StoredAlong g := fun s hs => ⟨s, hs⟩

theorem trans {g g' g'' : Graph} (h : g.StoredAlong g') (h' : g'.StoredAlong g'') :
    g.StoredAlong g'' := by
  intro s hs
  obtain ⟨s', hs'⟩ := h s hs
  exact h' s' hs'

theorem of_nodes_eq (hnodes : g'.nodes = g.nodes) : g.StoredAlong g' :=
  fun s hs => ⟨s, hs.rest hnodes⟩

theorem push (g : Graph) {n : Node} (hn : n.isLoop = false) : g.StoredAlong (g.push n) :=
  fun s hs => ⟨s.append n, hs.push hn⟩

theorem intern (k : Shape) (xs : List NodeId) (g : Graph) :
    g.StoredAlong (final (Graph.intern k xs g)) := by
  rw [intern_eq]
  cases g.index[(k, xs)]? with
  | some x => exact .refl g
  | none =>
    simp only
    split_ifs
    · exact .refl g
    · exact (push g (n := { shape := k, operands := xs }) rfl).trans (.of_nodes_eq rfl)
    · exact .refl g

theorem register (f : Callee) (g : Graph) : g.StoredAlong (final (Graph.register f g)) := by
  have heq : Graph.register f g =
      .ok () (if g.callees.contains f then g else { g with callees := g.callees.push f }) := rfl
  rw [heq, final]
  split
  · exact .refl g
  · exact .of_nodes_eq rfl

end StoredAlong

/-- The constructions that a storage can follow. -/
def storing : Constructions where
  toClosure := .along StoredAlong .refl .trans
  throw _ := .refl
  get := .refl
  intern _ _ := .intern _ _
  call f xs := (Closure.along StoredAlong .refl .trans).bind (.register f) fun _ => .intern _ xs
  callAgain {x xs} k hcall hother := by
    intro g
    change g.StoredAlong (final (k g g))
    by_cases hs : ∃ f, g.shape x = .call f
    · obtain ⟨f, hf⟩ := hs
      rw [hcall g f hf]
      exact .intern _ xs g
    · exact hother g (fun f hf => hs ⟨f, hf⟩) g

theorem Action.after_stored (a : Action) (hg : g.WellFormed) : g.StoredAlong (a.after g) := by
  cases a with
  | construct c => exact c.build_holds storing.builders g
  | openLoop label =>
    rw [after, Graph.openLoop, append_eq]
    split_ifs
    · exact .refl g
    · exact .push g rfl
    · exact .refl g
  | closeLoop x y =>
    rw [after]
    rcases closeLoop_cases x y g with ⟨e, he⟩ | ⟨label, hx, hsymbol, -, he⟩
    · rw [he]
      exact .refl g
    · have harity := hg.arity x
      rw [hsymbol] at harity
      rw [he]
      exact fun s hs => ⟨s.close x y, hs.close hx (List.eq_nil_of_length_eq_zero harity) y label⟩
  | recordForm x y => exact .of_nodes_eq rfl

/-- Whatever is done with a graph, its storage follows, and reads every node back as it is while the
operands of all nodes together are fewer than `2 ^ 32`. -/
theorem Becomes.stored (h : empty.Becomes g) :
    ∃ s, Stores g s ∧ (g.placedOperands.length < Storage.words → ∀ x, s.node x = g.node x) := by
  have hstored : empty.StoredAlong g := by
    induction h with
    | refl => exact .refl empty
    | act h a ih => exact ih.trans (a.after_stored (h.develops empty_wellFormed).1)
  obtain ⟨s, hs⟩ := hstored .empty .empty
  exact ⟨s, hs, hs.node_eq⟩

theorem set_empty_eq {xs : List NodeId} (hxs : ∀ x ∈ xs, x < 2) :
    set xs empty = .ok 2 (empty.extend .set xs) := by
  have hnew : empty.index[(Shape.set, xs)]? = none := by
    simp [empty]
  have hall : xs.all (· < empty.size) = true :=
    List.all_eq_true.2 fun x hx => decide_eq_true (hxs x hx)
  rw [set, intern_eq, hnew]
  simp only [hall, if_true]
  rfl

/-- A set of `2 ^ 32` members is built without an error, and is read back as the empty set. -/
theorem set_spills : ∃ g s, set (List.replicate Storage.words zero) empty = .ok 2 g ∧
    Stores g s ∧ g.operands 2 = List.replicate Storage.words zero ∧ (s.node 2).operands = [] := by
  let n : Node := { shape := .set, operands := List.replicate Storage.words zero }
  have hlength : n.operands.length = Storage.words := List.length_replicate
  have hbuild : set n.operands empty = .ok 2 (empty.extend .set n.operands) :=
    set_empty_eq fun x hx => by rw [List.eq_of_mem_replicate hx]; decide
  have hstores : Stores (empty.extend .set n.operands) (Storage.empty.append n) :=
    (Stores.empty.push rfl).rest rfl
  have hread : ((Storage.empty.append n).node 2).operands = [] :=
    Stores.empty.operands_append_of_dvd (Dvd.intro_left 1 (by rw [hlength, Nat.one_mul]))
  have hnode := node_extend_self empty .set n.operands
  exact ⟨_, _, hbuild, hstores, congrArg Node.operands hnode, hread⟩

end Graph

end ExactAlgebra
