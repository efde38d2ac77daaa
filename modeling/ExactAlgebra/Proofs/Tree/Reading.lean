import ExactAlgebra.Proofs.Tree.Reader

/-!
Trees whose texts are read back. The operands of a node must hold together where they are written:
each one stands between brackets, or is less loose than the node.
-/

namespace ExactAlgebra

open Reader (any applied enclosed gathered isNegation isWordChar joined looser named negated number
  paired piece separated separatedWithin within)

variable {α : Type} {lib : String → Callee} {item : Reader α} {p : Reader Tree} {s : Shape}
variable {k k' n depth : Nat} {rest cs : List Char} {c bracket : Char} {separator text w : String}
variable {t l r : Tree} {ts : List Tree} {a : α}

/-- A text is read as a value, whatever stands behind it of what may stand behind a node no looser
than `k`. -/
def Reader.Reads (item : Reader α) (k : Nat) (text : String) (a : α) : Prop :=
  ∀ rest, After k rest → item (text.toList ++ rest) = some (a, rest)

/-- What is read as one word. -/
structure IsWord (w : String) : Prop where
  ne_nil : w.toList ≠ []
  all : w.toList.all isWordChar = true
  head : ∀ c, w.toList.head? = some c → Rational.isNumeral c = false

/-- What a symbol may be called. -/
structure IsName (w : String) : Prop extends IsWord w where
  ne_not : w ≠ "not"

/-- What a node must have, and how many operands, if it is to be read. -/
def Shape.Suits (lib : String → Callee) (n : Nat) : Shape → Prop
  | constant _ => n = 0
  | symbol name => IsName name ∧ n = 0
  | sum | product => 2 ≤ n
  | power | arrow => n = 2
  | binary op => op ∈ Operator.infixes ∧ n = 2
  | unary op => op = .negation ∧ n = 1
  | call f => IsWord f.name ∧ lib f.name = f
  | set => True

theorem Shape.Suits.allows (h : s.Suits lib n) : s.Allows n := by
  cases s with
  | symbol | binary | unary => exact h.2
  | constant | power | arrow => exact h
  | product | sum | call | set => trivial

/-- An operand that holds together in the text of a node. -/
def Shape.Holds (s : Shape) (t : Tree) : Prop :=
  s.looseness = 0 ∨ s.groups t = true ∨ t.shape.looseness < s.looseness

namespace Tree

/-- A tree whose text says what it is. -/
inductive Legible (lib : String → Callee) : Tree → Prop
  | node {s : Shape} {ts : List Tree} (hs : s.Suits lib ts.length) (hts : ∀ t ∈ ts, Legible lib t)
    (hholds : ∀ t ∈ ts, s.Holds t) : Legible lib (.node s ts)

end Tree

/-! ### Items -/

theorem separatedWithin_reads {xs : List α} {text : α → String} (hne : xs ≠ [])
    (hxs : ∀ x ∈ xs, item.Reads k (text x) x) (hsep : ∀ cs, After k (separator.toList ++ cs))
    (hrest : After k rest) (hend : rest.dropPrefix? separator.toList = none)
    (hn : (separator.intercalate (xs.map text)).length < n) :
    separatedWithin separator item n
      ((separator.intercalate (xs.map text)).toList ++ rest) = some (xs, rest) := by
  induction xs generalizing n with
  | nil => exact absurd rfl hne
  | cons x xs ih =>
    obtain ⟨n, rfl⟩ := Nat.exists_eq_succ_of_ne_zero (Nat.ne_zero_of_lt hn)
    have hx := hxs x (List.mem_cons_self ..)
    cases xs with
    | nil =>
      have htext : separator.intercalate ([x].map text) = text x := rfl
      rw [htext, separatedWithin, hx rest hrest]
      simp only [Option.bind_eq_bind, Option.bind_some, hend, Option.pure_def]
    | cons y ys =>
      have htext : (separator.intercalate ((x :: y :: ys).map text)).toList = (text x).toList ++
          (separator.toList ++ (separator.intercalate ((y :: ys).map text)).toList) := by
        simp only [String.toList_intercalate, List.map_cons, List.intercalate_cons_cons,
          List.append_assoc]
      have hlen : 0 < separator.toList.length := by
        apply List.length_pos_of_ne_nil
        intro he
        have hempty := dropPrefix?_append [] rest
        rw [List.nil_append, ← he, hend] at hempty
        cases hempty
      have hn' : (separator.intercalate ((y :: ys).map text)).length < n := by
        rw [← String.length_toList, htext, List.length_append, List.length_append] at hn
        rw [← String.length_toList]
        omega
      rw [htext, List.append_assoc, List.append_assoc, separatedWithin, hx _ (hsep _)]
      simp only [Option.bind_eq_bind, Option.bind_some, dropPrefix?_append, Option.pure_def,
        ih (List.cons_ne_nil _ _) (fun z hz => hxs z (List.mem_cons_of_mem _ hz)) hn']

theorem separated_reads {xs : List α} {text : α → String} (hne : xs ≠ [])
    (hxs : ∀ x ∈ xs, item.Reads k (text x) x) (hsep : ∀ cs, After k (separator.toList ++ cs))
    (hrest : After k rest) (hend : rest.dropPrefix? separator.toList = none) :
    separated separator item ((separator.intercalate (xs.map text)).toList ++ rest) =
      some (xs, rest) := by
  refine separatedWithin_reads hne hxs hsep hrest hend ?_
  rw [← String.length_toList, List.length_append]
  exact Nat.lt_succ_of_le (Nat.le_add_right _ _)

/-- What does not take a bracket for an item reads an empty list before it. -/
theorem enclosed_reads {xs : List α} {text : α → String} (hbracket : bracket ∈ [')', '\x7d'])
    (hfail : ∀ cs, item (bracket :: cs) = none) (hxs : ∀ x ∈ xs, item.Reads k (text x) x)
    (rest : List Char) :
    enclosed item bracket ((", ".intercalate (xs.map text)).toList ++ bracket :: rest) =
      some (xs, rest) := by
  have hread : ∀ cs, cs = (", ".intercalate (xs.map text)).toList ++ bracket :: rest →
      (separated ", " item cs).getD ([], cs) = (xs, bracket :: rest) := by
    rintro cs rfl
    rcases eq_or_ne xs [] with rfl | hne
    · have htext : (", ".intercalate (([] : List α).map text)).toList ++ bracket :: rest =
        bracket :: rest := rfl
      rw [htext, separated, separatedWithin, hfail]
      rfl
    · have hclosing : bracket ∈ [')', '\x7d', ','] := List.mem_append_left [','] hbracket
      have hend : (bracket :: rest).dropPrefix? ", ".toList = none := by
        refine Option.eq_none_iff_forall_ne_some.2 fun left hleft => ?_
        obtain ⟨rfl, -⟩ := List.cons.inj (eq_append_of_dropPrefix? hleft)
        exact absurd hbracket (by decide)
      have hcomma : ∀ cs, After k (", ".toList ++ cs) := fun cs => .closing (c := ',') (by decide)
      rw [separated_reads hne hxs hcomma (.closing hclosing) hend]
      rfl
  have hdrop := dropPrefix?_append [bracket] rest
  rw [List.singleton_append] at hdrop
  rw [enclosed, hread _ rfl]
  simp only [hdrop]
  rfl

/-! ### Pieces -/

theorem takeWhile_append {q : Char → Bool} {front : List Char} (hfront : ∀ c ∈ front, q c = true)
    (hrest : ∀ c, rest.head? = some c → q c = false) :
    (front ++ rest).takeWhile q = front ∧ (front ++ rest).dropWhile q = rest := by
  rw [List.takeWhile_append_of_pos hfront, List.dropWhile_append_of_pos hfront]
  cases rest with
  | nil => exact ⟨List.append_nil front, rfl⟩
  | cons c cs =>
    have hc : ¬ q c = true := by rw [hrest c rfl]; exact Bool.false_ne_true
    rw [List.takeWhile_cons_of_neg hc, List.dropWhile_cons_of_neg hc]
    exact ⟨List.append_nil front, rfl⟩

theorem piece_cons (item : Reader Tree) (hround : c ≠ '(') (hcurly : c ≠ '\x7b') (cs : List Char) :
    piece lib item (c :: cs) =
      if Rational.isNumeral c then number (c :: cs) else named lib item (c :: cs) := by
  rw [piece]
  · exact hround
  · exact hcurly

theorem After.isNumeral_head (h : After k rest) (hc : rest.head? = some c) :
    Rational.isNumeral c = false := by
  have hall : [')', '\x7d', ',', ' ', '*', '^'].all (fun c => !Rational.isNumeral c) = true := rfl
  simpa using List.all_eq_true.1 hall c (h.head hc)

theorem After.isWordChar_head (h : After k rest) (hc : rest.head? = some c) :
    isWordChar c = false ∧ c ≠ '(' := by
  have hall : [')', '\x7d', ',', ' ', '*', '^'].all (fun c => !isWordChar c && c != '(') = true :=
    rfl
  simpa using List.all_eq_true.1 hall c (h.head hc)

theorem piece_number (q : Rat) :
    (piece lib p).Reads 0 (Rational.text q) (.node (.constant q) []) := by
  intro rest hrest
  obtain ⟨htake, hdrop⟩ := takeWhile_append (fun _ => Rational.isNumeral_of_mem_text (q := q))
    fun _ => hrest.isNumeral_head
  obtain ⟨c, cs, htext⟩ := List.exists_cons_of_ne_nil (Rational.text_ne_nil q)
  have hc : Rational.isNumeral c = true :=
    Rational.isNumeral_of_mem_text (htext ▸ List.mem_cons_self ..)
  have hpiece : piece lib p ((Rational.text q).toList ++ rest) =
      number ((Rational.text q).toList ++ rest) := by
    rw [htext, List.cons_append, piece_cons, if_pos hc]
    · rintro rfl
      cases hc
    · rintro rfl
      cases hc
  rw [hpiece, number, htake, hdrop, Rational.readFraction?_text]
  simp only [Option.bind_eq_bind, Option.bind_some, Rational.ofFraction_num_den, Option.pure_def]

namespace IsWord

theorem of_mem (hw : IsWord w) (hc : c ∈ w.toList) : isWordChar c = true :=
  List.all_eq_true.1 hw.all c hc

theorem piece_eq_named (hw : IsWord w) (p : Reader Tree) (rest : List Char) :
    piece lib p (w.toList ++ rest) = named lib p (w.toList ++ rest) := by
  obtain ⟨c, cs, htext⟩ := List.exists_cons_of_ne_nil hw.ne_nil
  have hc : isWordChar c = true := hw.of_mem (htext ▸ List.mem_cons_self ..)
  have hnumeral : Rational.isNumeral c = false := hw.head c (by rw [htext]; rfl)
  rw [htext, List.cons_append, piece_cons, hnumeral]
  · exact if_neg Bool.false_ne_true
  · rintro rfl
    cases hc
  · rintro rfl
    cases hc

/-- A word is read up to the first character that is none of a word. -/
theorem piece_eq (hw : IsWord w) (p : Reader Tree)
    (hrest : ∀ c, rest.head? = some c → isWordChar c = false) :
    piece lib p (w.toList ++ rest) = applied lib p w rest := by
  obtain ⟨htake, hdrop⟩ := takeWhile_append (fun _ => hw.of_mem) hrest
  rw [hw.piece_eq_named, named, htake, hdrop]
  split
  · next he => exact absurd he hw.ne_nil
  · rw [String.ofList_toList]

theorem piece_symbol (hw : IsWord w) (p : Reader Tree)
    (hrest : ∀ c, rest.head? = some c → isWordChar c = false ∧ c ≠ '(') :
    piece lib p (w.toList ++ rest) = some (.node (.symbol w) [], rest) := by
  rw [hw.piece_eq p fun c hc => (hrest c hc).1, applied]
  rintro cs rfl
  exact (hrest _ rfl).2 rfl

theorem piece_call (hw : IsWord w)
    (h : ∀ cs, enclosed p ')' (text.toList ++ ')' :: cs) = some (ts, cs)) :
    (piece lib p).Reads k (w ++ "(" ++ text ++ ")") (.node (.call (lib w)) ts) := by
  intro rest _
  have htext : (w ++ "(" ++ text ++ ")").toList ++ rest =
      w.toList ++ '(' :: (text.toList ++ ')' :: rest) := by
    simp
  rw [htext, hw.piece_eq p, applied, h]
  · rfl
  · rintro c hc
    cases hc
    rfl

end IsWord

theorem piece_brackets (h : p.Reads 6 text t) : (piece lib p).Reads k ("(" ++ text ++ ")") t := by
  intro rest _
  have htext : ("(" ++ text ++ ")").toList ++ rest = '(' :: (text.toList ++ ')' :: rest) := by
    simp
  rw [htext, piece, h _ (.closing (by decide))]
  have hdrop := dropPrefix?_append [')'] rest
  rw [List.singleton_append] at hdrop
  simp only [Option.bind_eq_bind, Option.bind_some, hdrop, Option.pure_def]

theorem piece_set (h : ∀ cs, enclosed p '\x7d' (text.toList ++ '\x7d' :: cs) = some (ts, cs)) :
    (piece lib p).Reads k ("\x7b" ++ text ++ "\x7d") (.node .set ts) := by
  intro rest _
  have htext : ("\x7b" ++ text ++ "\x7d").toList ++ rest =
      '\x7b' :: (text.toList ++ '\x7d' :: rest) := by
    simp
  rw [htext, piece, h]
  rfl

/-! ### Linked operands -/

theorem Reader.Reads.mono (h : item.Reads k text a) (hk : k ≤ k') : item.Reads k' text a :=
  fun rest hrest => h rest (hrest.mono hk)

theorem Reader.Reads.whole (h : item.Reads k text a) : item.whole text = some a := by
  have hread := h [] .done
  rw [List.append_nil] at hread
  rw [Reader.whole, hread]

theorem paired_one {shapes : List Shape}
    (hshapes : ∀ s ∈ shapes, s ∈ Shape.links ∧ s.looseness ≤ k') (h : p.Reads k text t)
    (hk : k ≤ k') : (paired shapes p).Reads k' text t := by
  intro rest hrest
  have hnone : (shapes.findSome? fun s => (rest.dropPrefix? s.link.toList).map (s, ·)) = none := by
    rw [List.findSome?_eq_none_iff]
    intro s hs
    rw [hrest.dropPrefix? (hshapes s hs).1 (hshapes s hs).2, Option.map_none]
  rw [paired, h rest (hrest.mono hk)]
  simp only [Option.bind_eq_bind, Option.bind_some, hnone, Option.pure_def]

theorem findSome?_link {shapes : List Shape} (hshapes : ∀ s ∈ shapes, s ∈ Shape.links)
    (hs : s ∈ shapes) (cs : List Char) :
    (shapes.findSome? fun s' => ((s.link.toList ++ cs).dropPrefix? s'.link.toList).map (s', ·)) =
      some (s, cs) := by
  induction shapes with
  | nil => cases hs
  | cons s' shapes ih =>
    rw [List.findSome?_cons]
    by_cases he : s = s'
    · subst he
      rw [dropPrefix?_append]
      rfl
    · rw [dropPrefix?_link (hshapes s hs) (hshapes s' (List.mem_cons_self ..)) he]
      exact ih (fun s hs => hshapes s (List.mem_cons_of_mem _ hs)) (List.mem_of_ne_of_mem he hs)

theorem paired_two {shapes : List Shape} (hshapes : ∀ s ∈ shapes, s ∈ Shape.links)
    (hs : s ∈ shapes) (hk : k < s.looseness) {left right : String} (hl : p.Reads k left l)
    (hr : p.Reads k right r) :
    (paired shapes p).Reads k (s.link.intercalate [left, right]) (.node s [l, r]) := by
  intro rest hrest
  have htext : (s.link.intercalate [left, right]).toList ++ rest =
      left.toList ++ (s.link.toList ++ (right.toList ++ rest)) := by
    simp
  rw [htext, paired, hl _ (.link (hshapes s hs) hk)]
  simp only [Option.bind_eq_bind, Option.bind_some, findSome?_link hshapes hs, hr rest hrest,
    Option.pure_def]

theorem gathered_reads {text : Tree → String} (hs : s ∈ Shape.links) (hk : k < s.looseness)
    (hne : ts ≠ []) (hts : ∀ t ∈ ts, p.Reads k (text t) t) :
    (gathered s p).Reads s.looseness (s.link.intercalate (ts.map text)) (joined s ts) := by
  intro rest hrest
  rw [gathered, separated_reads hne hts (fun cs => .link hs hk) (hrest.mono hk.le)
    (hrest.dropPrefix? hs le_rfl)]
  rfl

/-! ### Degrees of looseness -/

theorem looser_reads (h : p.Reads k text t) (ht : isNegation t = false) :
    (looser k p).Reads (k + 1) text t := by
  have hgathered : ∀ {s}, s ∈ Shape.links → s.looseness = k + 1 →
      (gathered s p).Reads (k + 1) text t := by
    intro s hs hk
    have hitems : ∀ u ∈ [t], p.Reads k ((fun _ => text) u) u := fun u hu =>
      List.mem_singleton.1 hu ▸ h
    have hread := gathered_reads hs (hk ▸ Nat.lt_succ_self k) (List.cons_ne_nil t []) hitems
    rwa [hk] at hread
  match k with
  | 0 =>
    intro rest hrest
    rw [looser, negated, h rest (hrest.mono (Nat.zero_le _))]
    simp only [Option.bind_eq_bind, Option.bind_some, ht, Bool.false_eq_true, if_false,
      Option.pure_def]
  | 1 => exact paired_one (by decide) h (Nat.le_succ _)
  | 2 => exact hgathered (by decide) rfl
  | 3 => exact hgathered (by decide) rfl
  | 4 => exact paired_one (by decide) h (Nat.le_succ _)
  | k + 5 =>
    refine paired_one ?_ h (Nat.le_succ _)
    intro s hs
    rw [List.mem_singleton.1 hs]
    exact ⟨by decide, Nat.le_add_left 6 k⟩

theorem within_mono (h : (within lib p k).Reads k text t) (ht : isNegation t = false)
    (hk : k ≤ k') : (within lib p k').Reads k' text t := by
  induction hk with
  | refl => exact h
  | step _ ih => exact looser_reads ih ht

theorem joined_eq_node (h : 2 ≤ ts.length) : joined s ts = .node s ts := by
  match ts, h with
  | _ :: _ :: _, _ => rfl

/-- Linked operands are read as a node that is looser than they are by one degree. -/
theorem looser_linked {text : Tree → String} (hs : s ∈ Shape.links) (hk : s.looseness = k + 1)
    (hsuits : s.Suits lib ts.length) (hts : ∀ t ∈ ts, p.Reads k (text t) t) :
    (looser k p).Reads (k + 1) (s.link.intercalate (ts.map text)) (.node s ts) := by
  have hlt : k < s.looseness := hk ▸ Nat.lt_succ_self k
  have hpaired : ∀ {shapes : List Shape}, (∀ s ∈ shapes, s ∈ Shape.links) → s ∈ shapes →
      ts.length = 2 →
      (paired shapes p).Reads (k + 1) (s.link.intercalate (ts.map text)) (.node s ts) := by
    intro shapes hshapes hmem hlen
    obtain ⟨l, r, rfl⟩ := List.length_eq_two.1 hlen
    exact (paired_two hshapes hmem hlt (hts l (by simp)) (hts r (by simp))).mono (Nat.le_succ k)
  have hgathered : 2 ≤ ts.length →
      (gathered s p).Reads (k + 1) (s.link.intercalate (ts.map text)) (.node s ts) := by
    intro hlen
    have hne : ts ≠ [] := by
      rintro rfl
      exact absurd hlen (by decide)
    rw [← hk, ← joined_eq_node hlen]
    exact gathered_reads hs hlt hne hts
  cases s with
  | power =>
    cases hk
    exact hpaired (by decide) (by decide) hsuits
  | product =>
    cases hk
    exact hgathered hsuits
  | sum =>
    cases hk
    exact hgathered hsuits
  | binary =>
    cases hk
    exact hpaired (by decide) (List.mem_map_of_mem hsuits.1) hsuits.2
  | arrow =>
    cases hk
    exact hpaired (by decide) (by decide) hsuits
  | constant | symbol | unary | call | set => simp [Shape.links] at hs

/-- The word for a negation, and an operand that is one piece. -/
theorem looser_negation (h : (piece lib p).Reads 0 text t) :
    (looser 0 (piece lib p)).Reads 1 ("not " ++ text) (.node (.unary .negation) [t]) := by
  have hnot : IsWord "not" := ⟨by decide, by decide, fun c hc => by cases hc; rfl⟩
  intro rest hrest
  have htext : ("not " ++ text).toList ++ rest = "not".toList ++ ' ' :: (text.toList ++ rest) := by
    simp
  rw [htext, looser, negated, hnot.piece_symbol p fun c hc => by cases hc; decide]
  simp only [Option.bind_eq_bind, Option.bind_some, isNegation, beq_self_eq_true, if_true,
    List.drop_succ_cons, List.drop_zero, h rest (hrest.mono (Nat.zero_le 1)), Option.pure_def]

theorem within_eq_none (h : piece lib p cs = none) (k : Nat) : within lib p k cs = none := by
  induction k with
  | zero => exact h
  | succ k ih =>
    have hgathered : ∀ s, gathered s (within lib p k) cs = none := by
      intro s
      rw [gathered, separated, separatedWithin, ih]
      rfl
    have hpaired : ∀ shapes, paired shapes (within lib p k) cs = none := by
      intro shapes
      rw [paired, ih]
      rfl
    rw [within]
    match k with
    | 0 =>
      rw [looser, negated, ih]
      rfl
    | 1 | 4 | k + 5 => exact hpaired _
    | 2 | 3 => exact hgathered _

theorem any_bracket (hbracket : bracket ∈ [')', '\x7d']) (depth : Nat) (cs : List Char) :
    any lib depth (bracket :: cs) = none := by
  cases depth with
  | zero => rfl
  | succ depth =>
    refine within_eq_none ?_ 6
    fin_cases hbracket <;> rfl

/-! ### Legible trees -/

namespace Tree

namespace Legible

theorem isNegation_eq (h : Legible lib t) : isNegation t = false := by
  obtain ⟨hs, -, -⟩ := h
  rename_i s ts
  cases s with
  | symbol name => exact beq_eq_false_iff_ne.2 hs.1.ne_not
  | _ => rfl

/-- In parentheses an operand is one piece; else it must be less loose than the node. -/
theorem part_reads (ht : Legible lib t) (hgroup : s.groups t = true → p.Reads 6 t.render t)
    (hplain : s.groups t = false → (within lib p k).Reads k t.render t) :
    (within lib p k).Reads k (part s t) t := by
  rw [part]
  cases h : s.groups t with
  | true =>
    have hpiece : (within lib p 0).Reads 0 (enclose true t.render) t := piece_brackets (hgroup h)
    exact within_mono hpiece ht.isNegation_eq (Nat.zero_le k)
  | false => exact hplain h

/-- A node is read if its operands are, each as it stands in the text of the node. -/
theorem node_reads (hs : s.Suits lib ts.length)
    (hitems : s.looseness = 0 → ∀ t ∈ ts, p.Reads 6 t.render t)
    (hfail : ∀ b ∈ [')', '\x7d'], ∀ cs, p (b :: cs) = none)
    (hparts : ∀ k, s.looseness = k + 1 → ∀ t ∈ ts, (within lib p k).Reads k (part s t) t) :
    (within lib p s.looseness).Reads s.looseness (Tree.node s ts).render (.node s ts) := by
  by_cases hlink : s ∈ Shape.links
  · have hloose := Shape.one_lt_looseness s hlink
    obtain ⟨k, hk⟩ := Nat.exists_eq_succ_of_ne_zero (Nat.ne_zero_of_lt hloose)
    rw [render_linked hloose, hk]
    exact looser_linked hlink hk hs (hparts k hk)
  · cases s with
    | constant q =>
      obtain rfl := List.eq_nil_of_length_eq_zero hs
      exact piece_number q
    | symbol name =>
      obtain rfl := List.eq_nil_of_length_eq_zero hs.2
      exact fun rest hrest => hs.1.piece_symbol p fun _ => hrest.isWordChar_head
    | unary op =>
      obtain ⟨rfl, hone⟩ := hs
      obtain ⟨t, rfl⟩ := List.length_eq_one_iff.1 hone
      rw [render_unary]
      exact looser_negation (hparts 0 rfl t (List.mem_cons_self ..))
    | call f =>
      rw [render_call]
      conv in Tree.node _ _ => rw [← hs.2]
      exact hs.1.piece_call (enclosed_reads (by decide) (hfail _ (by decide)) (hitems rfl))
    | set =>
      rw [render_set]
      exact piece_set (enclosed_reads (by decide) (hfail _ (by decide)) (hitems rfl))
    | binary op => exact absurd (Shape.mem_links_of_infix hs.1) hlink
    | power | product | sum | arrow => exact absurd (by decide) hlink

/-- A legible tree is read, once those are read that stand between brackets, which are shorter. -/
theorem within_reads (ht : Legible lib t) (hfail : ∀ b ∈ [')', '\x7d'], ∀ cs, p (b :: cs) = none)
    (hp : ∀ u, Legible lib u → u.render.length < n → p.Reads 6 u.render u)
    (hlen : t.render.length ≤ n) (hk : t.shape.looseness ≤ k) :
    (within lib p k).Reads k t.render t := by
  induction ht generalizing k with
  | @node s ts hs hts hholds ih =>
    have hbrackets : ∀ t ∈ ts, s.looseness = 0 ∨ s.groups t = true → p.Reads 6 t.render t :=
      fun t h hb => hp t (hts t h) ((length_operand_lt hs.allows h hb).trans_le hlen)
    refine within_mono (node_reads hs ?_ hfail ?_) (Legible.node hs hts hholds).isNegation_eq hk
    · exact fun hloose t h => hbrackets t h (.inl hloose)
    · intro k hloose t h
      have hne : s.looseness ≠ 0 := hloose ▸ Nat.succ_ne_zero k
      refine (hts t h).part_reads (fun hgroup => hbrackets t h (.inr hgroup)) fun hgroup => ?_
      have hlt : t.shape.looseness < s.looseness := by
        rcases hholds t h with hzero | hgroup' | hlt
        · exact absurd hzero hne
        · rw [hgroup] at hgroup'
          cases hgroup'
        · exact hlt
      exact ih t h ((length_operand_le hs.allows h hne).trans hlen)
        (Nat.le_of_lt_succ (hlt.trans_eq hloose))

theorem any_reads (ht : Legible lib t) (hdepth : t.render.length < depth) :
    (Reader.any lib depth).Reads 6 t.render t := by
  induction depth generalizing t with
  | zero => exact absurd hdepth (Nat.not_lt_zero _)
  | succ depth ih =>
    exact ht.within_reads (fun b hb => any_bracket hb depth) (fun u hu hlen => ih hu hlen)
      (Nat.le_of_lt_succ hdepth) t.shape.looseness_le

/-- A legible tree is read back from its text. -/
theorem read_render (ht : Legible lib t) : read lib t.render = some t :=
  (ht.any_reads (Nat.lt_succ_self _)).whole

end Legible

end Tree

end ExactAlgebra
