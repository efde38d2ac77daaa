import ExactAlgebra.Evaluation.Library
import ExactAlgebra.Proofs.Graph.Evolution
import ExactAlgebra.Rational.Power
import ExactAlgebra.Transform.Substitution

/-!
The rational values of expressions, read from the leaves upwards. A value is missing where a part
has none; self-referential nodes, sets and arrows never have one.
-/

namespace ExactAlgebra

/-- What the values of symbols, powers and calls are; all else is fixed. -/
structure Semantics where
  symbol : String → Option Rat
  power : Rat → Rat → Option Rat
  call : Callee → List Rat → Option Rat

def truth (b : Bool) : Rat := if b then 1 else 0

/-- Relations and logic, in which every number but zero is true. -/
def Operator.value? : Operator → List Rat → Option Rat
  | .equal, [l, r] => some (truth (l = r))
  | .notEqual, [l, r] => some (truth (l ≠ r))
  | .less, [l, r] => some (truth (l < r))
  | .lessEqual, [l, r] => some (truth (l ≤ r))
  | .greater, [l, r] => some (truth (r < l))
  | .greaterEqual, [l, r] => some (truth (r ≤ l))
  | .conjunction, [l, r] => some (truth (l ≠ 0 ∧ r ≠ 0))
  | .disjunction, [l, r] => some (truth (l ≠ 0 ∨ r ≠ 0))
  | .negation, [x] => some (truth (x = 0))
  | _, _ => none

/-- The result of a function of rationals on as many arguments as it has to have. -/
def Library.result? (library : Library) (f : Callee) (qs : List Rat) : Option Rat :=
  match library f with
  | .real arity apply => if qs.length = arity then (apply qs).toOption.join else none
  | .direct _ _ => none

theorem Library.result?_eq_some {library : Library} {f : Callee} {vs : List Rat} {p : Rat}
    (h : library.result? f vs = some p) :
    ∃ fn, library f = .real vs.length fn ∧ fn vs = .ok (some p) := by
  unfold Library.result? at h
  split at h
  · next arity fn hf =>
    split at h
    · next hlen =>
      subst hlen
      refine ⟨fn, hf, ?_⟩
      cases ha : fn vs with
      | error e => rw [ha] at h; cases h
      | ok r =>
        rw [ha] at h
        exact congrArg Except.ok h
    · cases h
  · cases h

/-- The value of a node from those of its operands. -/
def Semantics.combine (M : Semantics) : Shape → List Rat → Option Rat
  | .constant q, _ => some q
  | .symbol name, _ => M.symbol name
  | .sum, vs => some vs.sum
  | .product, vs => some vs.prod
  | .power, [b, e] => M.power b e
  | .binary op, [l, r] => op.value? [l, r]
  | .unary op, [x] => op.value? [x]
  | .call f, vs => M.call f vs
  | _, _ => none

namespace Semantics

variable {M : Semantics} {vs : List Rat} {v : Rat} {op : Operator}

theorem combine_power_eq_some :
    M.combine .power vs = some v ↔ ∃ b e, vs = [b, e] ∧ M.power b e = some v := by
  constructor
  · intro h
    rcases vs with _ | ⟨b, _ | ⟨e, _ | ⟨_, _⟩⟩⟩
    · cases h
    · cases h
    · exact ⟨b, e, rfl, h⟩
    · cases h
  · rintro ⟨b, e, rfl, h⟩
    exact h

theorem combine_binary_eq_some :
    M.combine (.binary op) vs = some v ↔ ∃ l r, vs = [l, r] ∧ op.value? [l, r] = some v := by
  constructor
  · intro h
    rcases vs with _ | ⟨l, _ | ⟨r, _ | ⟨_, _⟩⟩⟩
    · cases h
    · cases h
    · exact ⟨l, r, rfl, h⟩
    · cases h
  · rintro ⟨l, r, rfl, h⟩
    exact h

theorem combine_unary_eq_some :
    M.combine (.unary op) vs = some v ↔ ∃ x, vs = [x] ∧ op.value? [x] = some v := by
  constructor
  · intro h
    rcases vs with _ | ⟨x, _ | ⟨_, _⟩⟩
    · cases h
    · exact ⟨x, rfl, h⟩
    · cases h
  · rintro ⟨x, rfl, h⟩
    exact h

end Semantics

/-- Powers with integer exponents; of zero there are only the positive ones. -/
def integerPower? (b e : Rat) : Option Rat :=
  if e.den = 1 ∧ (b ≠ 0 ∨ 0 < e) then some (b ^ e.num) else none

/-- Values at a point, where the symbols have values of their own. -/
def Semantics.atPoint (library : Library) (ρ : String → Option Rat) : Semantics where
  symbol := ρ
  power := integerPower?
  call := library.result?

/-- The exact powers that evaluation knows: `0`, `1` and the exponents `0` and `1` come first. -/
def exactPower? (b e : Rat) : Option Rat :=
  if b = 0 then some 0
  else if b = 1 then some 1
  else if e = 0 then some 1
  else if e = 1 then some b
  else (Rational.power b e).toOption.join

/-- The values of expressions without symbols. -/
def Semantics.exact (library : Library) : Semantics where
  symbol _ := none
  power := exactPower?
  call := library.result?

theorem exactPower?_one (b : Rat) : exactPower? b 1 = some b := by
  rw [exactPower?]
  split_ifs with h0 h1 h2 h3
  · rw [h0]
  · rw [h1]
  · exact absurd h2 one_ne_zero
  · rfl
  · exact absurd rfl h3

theorem integerPower?_eq_some {b e p : Rat} :
    integerPower? b e = some p ↔ ∃ k : ℤ, e = k ∧ (b ≠ 0 ∨ 0 < k) ∧ p = b ^ k := by
  rw [integerPower?, Option.ite_none_right_eq_some, Option.some.injEq]
  constructor
  · rintro ⟨⟨hden, hpos⟩, rfl⟩
    have he : e = (e.num : Rat) := (Rat.den_eq_one_iff e).1 hden |>.symm
    refine ⟨e.num, he, ?_, rfl⟩
    rwa [he, Int.cast_pos] at hpos
  · rintro ⟨k, rfl, hpos, rfl⟩
    exact ⟨⟨rfl, hpos.imp_right Int.cast_pos.2⟩, rfl⟩

/-- Exponents of one base add up. -/
theorem integerPower?_add {b e e' p p' : Rat} (h : integerPower? b e = some p)
    (h' : integerPower? b e' = some p') : integerPower? b (e + e') = some (p * p') := by
  obtain ⟨k, rfl, hk, rfl⟩ := integerPower?_eq_some.1 h
  obtain ⟨k', rfl, hk', rfl⟩ := integerPower?_eq_some.1 h'
  refine integerPower?_eq_some.2 ⟨k + k', by push_cast; rfl, ?_, ?_⟩
  · by_cases hb : b = 0
    · have hpos := hk.resolve_left (not_not.2 hb)
      have hpos' := hk'.resolve_left (not_not.2 hb)
      exact .inr (add_pos hpos hpos')
    · exact .inl hb
  · by_cases hb : b = 0
    · have hpos := hk.resolve_left (not_not.2 hb)
      have hpos' := hk'.resolve_left (not_not.2 hb)
      rw [hb, zero_zpow _ hpos.ne', zero_zpow _ (add_pos hpos hpos').ne', zero_mul]
    · exact (zpow_add₀ hb k k').symm

theorem integerPower?_one (b : Rat) : integerPower? b 1 = some b :=
  integerPower?_eq_some.2 ⟨1, by norm_num, .inr one_pos, (zpow_one b).symm⟩

/-- Exponents of nested powers multiply. -/
theorem integerPower?_mul {b e e' p p' : Rat} (h : integerPower? b e = some p)
    (h' : integerPower? p e' = some p') : integerPower? b (e' * e) = some p' := by
  obtain ⟨k, rfl, hk, rfl⟩ := integerPower?_eq_some.1 h
  obtain ⟨k', rfl, hk', rfl⟩ := integerPower?_eq_some.1 h'
  refine integerPower?_eq_some.2 ⟨k' * k, by push_cast; rfl, ?_, ?_⟩
  · by_cases hb : b = 0
    · have hpos := hk.resolve_left (not_not.2 hb)
      refine .inr (mul_pos (hk'.resolve_left (not_not.2 ?_)) hpos)
      rw [hb, zero_zpow _ hpos.ne']
    · exact .inl hb
  · rw [mul_comm, zpow_mul]

namespace Graph

/-- The value of a node that is a constant, not one that was made self-referential. -/
def plainValue? (g : Graph) (x : NodeId) : Option Rat :=
  if g.contains x && !g.isLoop x then g.value? x else none

/--
The value of a node whose structure is at most `depth` deep. A node that `s` binds to a constant
has the value of that constant, whatever its structure.
-/
def valueWithin? (M : Semantics) (s : Substitution) (g : Graph) : Nat → NodeId → Option Rat
  | 0, _ => none
  | depth + 1, x =>
    if !g.contains x then none
    else match s.value? x with
      | some y => g.plainValue? y
      | none =>
        if g.isLoop x then none
        else do M.combine (g.shape x) (← (g.operands x).mapM (valueWithin? M s g depth))

/-- `x` has the value `v`, the nodes bound by `s` having the values they are bound to. -/
def Denotes (M : Semantics) (s : Substitution) (g : Graph) (x : NodeId) (v : Rat) : Prop :=
  ∃ depth, g.valueWithin? M s depth x = some v

variable {M : Semantics} {s : Substitution} {g g' : Graph} {d d' : Nat} {x y : NodeId} {v w : Rat}
variable {xs : List NodeId} {vs : List Rat}

theorem mapM_eq_some {α β : Type} {f : α → Option β} {as : List α} {bs : List β} :
    as.mapM f = some bs ↔ List.Forall₂ (fun a b => f a = some b) as bs := by
  induction as generalizing bs with
  | nil =>
    rw [List.mapM_nil, List.forall₂_nil_left_iff]
    exact ⟨fun h => (Option.some.inj h).symm, fun h => congrArg some h.symm⟩
  | cons a as ih =>
    rw [List.mapM_cons, List.forall₂_cons_left_iff]
    simp only [Option.bind_eq_bind, Option.bind_eq_some_iff, Option.pure_def, Option.some.injEq, ih]
    constructor
    · rintro ⟨b, hb, bs', hbs, rfl⟩
      exact ⟨b, bs', hb, hbs, rfl⟩
    · rintro ⟨b, bs', hb, hbs, rfl⟩
      exact ⟨b, hb, bs', hbs, rfl⟩

theorem forall₂_singleton_right {α β : Type} {R : α → β → Prop} {as : List α} {b : β}
    (h : List.Forall₂ R as [b]) : ∃ a, as = [a] ∧ R a b := by
  obtain ⟨a, as, ha, has, rfl⟩ := List.forall₂_cons_right_iff.1 h
  obtain rfl := List.forall₂_nil_right_iff.1 has
  exact ⟨a, rfl, ha⟩

theorem forall₂_pair_right {α β : Type} {R : α → β → Prop} {as : List α} {b b' : β}
    (h : List.Forall₂ R as [b, b']) : ∃ a a', as = [a, a'] ∧ R a b ∧ R a' b' := by
  obtain ⟨a, as, ha, has, rfl⟩ := List.forall₂_cons_right_iff.1 h
  obtain ⟨a', rfl, ha'⟩ := forall₂_singleton_right has
  exact ⟨a, a', rfl, ha, ha'⟩

theorem exists_of_forall₂ {α β : Type} {R : α → β → Prop} {as : List α} {bs : List β} {b : β}
    (h : List.Forall₂ R as bs) (hb : b ∈ bs) : ∃ a ∈ as, R a b := by
  obtain ⟨i, hi, rfl⟩ := List.getElem_of_mem hb
  have hi' : i < as.length := h.length_eq ▸ hi
  exact ⟨as[i], List.getElem_mem hi', h.get hi' hi⟩

theorem mapM_congr {α β : Type} {f f' : α → Option β} {as : List α} (h : ∀ a ∈ as, f a = f' a) :
    as.mapM f = as.mapM f' := by
  induction as with
  | nil => rfl
  | cons a as ih =>
    rw [List.mapM_cons, List.mapM_cons, h a (by simp), ih fun b hb => h b (by simp [hb])]

theorem plainValue?_eq_some :
    g.plainValue? x = some v ↔ x < g.size ∧ g.isLoop x = false ∧ g.value? x = some v := by
  simp only [plainValue?, contains, Option.ite_none_right_eq_some, Bool.and_eq_true,
    Bool.not_eq_true', decide_eq_true_eq, and_assoc]

/-- The values of a node and of its operands. -/
inductive Valued (M : Semantics) (s : Substitution) (g : Graph) (d : Nat) (x : NodeId) (v : Rat) :
    Prop
  | bound (hx : x < g.size) {y : NodeId} (hs : s.value? x = some y) (hv : g.plainValue? y = some v)
  | node (hx : x < g.size) (hs : s.value? x = none) (hl : g.isLoop x = false) {vs : List Rat}
      (hvs : List.Forall₂ (fun y w => g.valueWithin? M s d y = some w) (g.operands x) vs)
      (hv : M.combine (g.shape x) vs = some v)

theorem valueWithin?_succ : g.valueWithin? M s (d + 1) x = some v ↔ g.Valued M s d x v := by
  rw [valueWithin?]
  by_cases hx : x < g.size
  swap
  · simp only [contains, hx, decide_false, Bool.not_false, if_true]
    exact ⟨fun h => (by cases h), fun h => by cases h <;> contradiction⟩
  simp only [contains, hx, decide_true, Bool.not_true, Bool.false_eq_true, if_false]
  cases hs : s.value? x with
  | some y =>
    refine ⟨fun h => .bound hx hs h, fun h => ?_⟩
    cases h with
    | bound _ hs' hv =>
      rw [hs] at hs'
      cases hs'
      exact hv
    | node _ hs' =>
      rw [hs] at hs'
      cases hs'
  | none =>
    cases hl : g.isLoop x with
    | true =>
      refine ⟨fun h => (by cases h), fun h => ?_⟩
      cases h with
      | bound _ hs' => rw [hs] at hs'; cases hs'
      | node _ _ hl' => rw [hl] at hl'; cases hl'
    | false =>
      simp only [Bool.false_eq_true, if_false, Option.bind_eq_bind, Option.bind_eq_some_iff,
        mapM_eq_some]
      constructor
      · rintro ⟨vs, hvs, hv⟩
        exact .node hx hs hl hvs hv
      · intro h
        cases h with
        | bound _ hs' => rw [hs] at hs'; cases hs'
        | node _ _ _ hvs hv => exact ⟨_, hvs, hv⟩

theorem valueWithin?_mono (h : g.valueWithin? M s d x = some v) (hd : d ≤ d') :
    g.valueWithin? M s d' x = some v := by
  induction d generalizing d' x v with
  | zero => cases h
  | succ d ih =>
    obtain ⟨d', rfl⟩ := Nat.exists_eq_add_of_lt hd
    rw [show d + d' + 1 = (d + d') + 1 from rfl, valueWithin?_succ]
    cases valueWithin?_succ.1 h with
    | bound hx hs hv => exact .bound hx hs hv
    | node hx hs hl hvs hv =>
      exact .node hx hs hl (hvs.imp fun y w hw => ih hw (Nat.le_add_right d d')) hv

theorem lt_size_of_valueWithin? (h : g.valueWithin? M s d x = some v) : x < g.size := by
  cases d with
  | zero => cases h
  | succ d => cases valueWithin?_succ.1 h <;> assumption

theorem Denotes.lt_size (h : g.Denotes M s x v) : x < g.size :=
  lt_size_of_valueWithin? h.choose_spec

theorem Denotes.unique (h : g.Denotes M s x v) (h' : g.Denotes M s x w) : v = w := by
  obtain ⟨d, hd⟩ := h
  obtain ⟨d', hd'⟩ := h'
  have hv := valueWithin?_mono hd (Nat.le_max_left d d')
  have hw := valueWithin?_mono hd' (Nat.le_max_right d d')
  exact Option.some.inj (hv.symm.trans hw)

/-- Numbers bound how deep a structure is. -/
theorem Denotes.valueWithin? (hg : g.WellFormed) (h : g.Denotes M s x v) :
    g.valueWithin? M s (x + 1) x = some v := by
  induction x using Nat.strong_induction_on generalizing v with
  | _ x ih =>
    obtain ⟨d, hd⟩ := h
    cases d with
    | zero => cases hd
    | succ d =>
      rw [valueWithin?_succ]
      cases valueWithin?_succ.1 hd with
      | bound hx hs hv => exact .bound hx hs hv
      | node hx hs hl hvs hv =>
        refine .node hx hs hl ?_ hv
        have hlt := hg.operands_lt x hl
        refine List.forall₂_iff_get.2 ⟨hvs.length_eq, fun i hi hi' => ?_⟩
        have hy := hlt _ (List.getElem_mem hi)
        exact valueWithin?_mono (ih _ hy ⟨d, hvs.get hi hi'⟩) hy

/-- Values do not change where the graph does not, or where there is none before and after. -/
theorem valueWithin?_congr (hg : g.WellFormed) (hsize : g.size ≤ g'.size)
    (hnode : ∀ x, x < g.size → g'.node x = g.node x ∨
      ∀ d, g.valueWithin? M [] d x = none ∧ g'.valueWithin? M [] d x = none)
    (hx : x < g.size) : g'.valueWithin? M [] d x = g.valueWithin? M [] d x := by
  induction d generalizing x with
  | zero => rfl
  | succ d ih =>
    rcases hnode x hx with he | hnone
    · have hmap : (g.operands x).mapM (g'.valueWithin? M [] d) =
          (g.operands x).mapM (g.valueWithin? M [] d) :=
        mapM_congr fun y hy => ih (hg.operands_lt_size x y hy)
      have hs : Substitution.value? [] x = none := rfl
      simp only [operands] at hmap
      simp only [Graph.valueWithin?, contains, hx, hx.trans_le hsize, isLoop, shape, operands, he,
        hs, hmap, decide_true, Bool.not_true]
      rfl
    · rw [(hnone _).1, (hnone _).2]

theorem Extends.valueWithin?_eq (h : g.Extends g') (hg : g.WellFormed) (hx : x < g.size) :
    g'.valueWithin? M [] d x = g.valueWithin? M [] d x :=
  valueWithin?_congr hg h.size_le (fun x hx => .inl (h.node_eq x hx)) hx

theorem Evolves.valueWithin?_eq (h : g.Evolves g') (hM : ∀ name, M.symbol name = none)
    (hg : g.WellFormed) (hx : x < g.size) :
    g'.valueWithin? M [] d x = g.valueWithin? M [] d x := by
  refine valueWithin?_congr hg h.size_le (fun x hx => ?_) hx
  refine (h.node_eq x hx).imp_right fun hsym d => ?_
  -- A symbol has no value, and neither has what it is closed to.
  constructor
  · rw [Option.eq_none_iff_forall_ne_some]
    intro v hv
    cases d with
    | zero => cases hv
    | succ d =>
      cases valueWithin?_succ.1 hv with
      | bound _ hs => cases hs
      | node _ _ _ _ hv =>
        cases hs : g.shape x with
        | symbol name =>
          rw [hs, Semantics.combine, hM] at hv
          cases hv
        | _ =>
          rw [hs] at hsym
          exact hsym.1
  · rw [Option.eq_none_iff_forall_ne_some]
    intro v hv
    cases d with
    | zero => cases hv
    | succ d =>
      cases valueWithin?_succ.1 hv with
      | bound _ hs => cases hs
      | node _ _ hl =>
        rw [hsym.2] at hl
        cases hl

theorem Evolves.denotes_iff (h : g.Evolves g') (hM : ∀ name, M.symbol name = none)
    (hg : g.WellFormed) (hx : x < g.size) : g'.Denotes M [] x v ↔ g.Denotes M [] x v := by
  simp only [Denotes, h.valueWithin?_eq hM hg hx]

theorem Extends.denotes_iff (h : g.Extends g') (hg : g.WellFormed) (hx : x < g.size) :
    g'.Denotes M [] x v ↔ g.Denotes M [] x v := by
  simp only [Denotes, h.valueWithin?_eq hg hx]

/-- The graph of `x + x`, which is its last node. -/
def doubled : Graph := (empty.extend (.symbol "x") []).extend .sum [2, 2]

theorem doubled_wellFormed : doubled.WellFormed := by
  have hsymbol : (empty.extend (.symbol "x") []).WellFormed := by
    refine empty_wellFormed.extend ⟨by simp, fun _ => Shape.noConfusion, rfl⟩ ?_
    simp [empty]
  refine hsymbol.extend ⟨?_, fun _ => Shape.noConfusion, trivial⟩ ?_
  · intro y hy
    simp only [List.mem_cons, List.not_mem_nil, or_false, or_self] at hy
    rw [hy, size_extend]
    decide
  · simp [Graph.extend, push, empty]

theorem doubled_denotes (hx : doubled.valueWithin? M s 1 2 = some v) (hs : s.value? 3 = none) :
    doubled.Denotes M s 3 (2 * v) := by
  have hxs : List.Forall₂ (fun y w => doubled.valueWithin? M s 1 y = some w) [2, 2] [v, v] :=
    .cons hx (.cons hx .nil)
  have hsum : M.combine .sum [v, v] = some (2 * v) := by
    rw [Semantics.combine, List.sum_pair, two_mul]
  exact ⟨2, valueWithin?_succ.2 (.node (by decide) hs rfl hxs hsum)⟩

end Graph

end ExactAlgebra
