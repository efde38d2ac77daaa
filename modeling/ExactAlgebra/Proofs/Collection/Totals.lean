import ExactAlgebra.Proofs.Collection.Weights

/-!
What additions come to does not depend on their order: each key that was met has one entry, with the
sum of all that was added to it. Only the order of the entries is left open.
-/

namespace ExactAlgebra

namespace Weights

variable {κ : Type} [DecidableEq κ] {w w' : Weights κ} {k : κ} {q : Rat} {r : κ × Rat}
variable {ps ps' : List (κ × Rat)}

/-! ### Weights of single keys -/

theorem weight_cons (k k' : κ) (q : Rat) (es : List (κ × Rat)) :
    (⟨(k', q) :: es⟩ : Weights κ).weight k = if k' = k then q else (⟨es⟩ : Weights κ).weight k := by
  by_cases h : k' = k <;> simp [weight, h]

theorem weight_of_notMem (h : k ∉ w.keys) : w.weight k = 0 := by
  obtain ⟨es⟩ := w
  induction es with
  | nil => rfl
  | cons e es ih =>
    simp only [keys, List.map_cons, List.mem_cons, not_or] at h
    rw [weight_cons, if_neg (Ne.symm h.1)]
    exact ih h.2

theorem weight_add (w : Weights κ) (k i : κ) (q : Rat) :
    (w.add k q).weight i = w.weight i + if i = k then q else 0 := by
  obtain ⟨es⟩ := w
  induction es with
  | nil =>
    have hadd : (⟨[]⟩ : Weights κ).add k q = ⟨[(k, q)]⟩ := congrArg mk (add_nil k q)
    rw [hadd, weight_cons]
    grind [weight]
  | cons e es ih =>
    obtain ⟨k', q'⟩ := e
    by_cases hk : k' = k
    · subst hk
      have hadd : (⟨(k', q') :: es⟩ : Weights κ).add k' q = ⟨(k', q' + q) :: es⟩ :=
        congrArg mk (add_cons_self k' q q' es)
      rw [hadd, weight_cons, weight_cons]
      grind
    · have hadd : (⟨(k', q') :: es⟩ : Weights κ).add k q =
          ⟨(k', q') :: ((⟨es⟩ : Weights κ).add k q).entries⟩ :=
        congrArg mk (add_cons_ne hk q q' es)
      rw [hadd, weight_cons, weight_cons, ih]
      grind

/-! ### Entries in any order -/

namespace Distinct

theorem mem_entries_iff (h : w.Distinct) :
    r ∈ w.entries ↔ r.1 ∈ w.keys ∧ w.weight r.1 = r.2 := by
  obtain ⟨es⟩ := w
  induction es with
  | nil => simp [keys]
  | cons e es ih =>
    obtain ⟨k, q⟩ := e
    simp only [Distinct, keys, List.map_cons, List.nodup_cons] at h
    simp only [keys, List.map_cons, List.mem_cons, weight_cons]
    rw [show r ∈ es ↔ _ from ih h.2]
    by_cases hk : k = r.1
    · have hnot : r.1 ∉ (⟨es⟩ : Weights κ).keys := hk ▸ h.1
      simp only [hk, hnot, Prod.ext_iff, true_and, false_and, or_false, true_or, if_true]
      exact eq_comm
    · simp only [hk, Ne.symm hk, Prod.ext_iff, false_and, false_or, if_false]
      exact .rfl

/-- Entries are told by the keys that were met and what they weigh, up to their order. -/
theorem perm_iff (h : w.Distinct) (h' : w'.Distinct) :
    w.entries.Perm w'.entries ↔
      (∀ k, k ∈ w.keys ↔ k ∈ w'.keys) ∧ ∀ k, w.weight k = w'.weight k := by
  constructor
  · intro hp
    have hkeys : ∀ k, k ∈ w.keys ↔ k ∈ w'.keys := fun k => (hp.map Prod.fst).mem_iff
    refine ⟨hkeys, fun k => ?_⟩
    by_cases hk : k ∈ w.keys
    · have hmem := hp.mem_iff.1 (h.mem_entries_iff (r := (k, w.weight k)).2 ⟨hk, rfl⟩)
      exact (h'.mem_entries_iff.1 hmem).2.symm
    · rw [weight_of_notMem hk, weight_of_notMem fun hk' => hk ((hkeys k).2 hk')]
  · intro ⟨hkeys, hweight⟩
    rw [List.perm_ext_iff_of_nodup (List.Nodup.of_map _ h) (List.Nodup.of_map _ h')]
    intro r
    rw [h.mem_entries_iff, h'.mem_entries_iff, hkeys, hweight]

/-- Removing a key leaves the entries of all the others. -/
theorem entries_erase (h : w.Distinct) (k : κ) :
    (w.erase k).entries = w.entries.filter fun r => r.1 ≠ k := by
  obtain ⟨es⟩ := w
  induction es with
  | nil => rfl
  | cons e es ih =>
    obtain ⟨i, q⟩ := e
    simp only [Distinct, keys, List.map_cons, List.nodup_cons] at h
    by_cases hi : i = k
    · subst hi
      rw [erase_cons_self, List.filter_cons_of_neg (by simp), eq_comm, List.filter_eq_self]
      intro r hr
      have hne : r.1 ≠ i := fun he => h.1 (he ▸ List.mem_map_of_mem hr)
      exact decide_eq_true hne
    · rw [erase_cons_ne hi, ih h.2]
      simp [hi]

end Distinct

/-- The same weights of the same keys, met in whatever order. -/
structure Reorders (w w' : Weights κ) : Prop where
  distinct : w.Distinct
  distinct' : w'.Distinct
  perm : w.entries.Perm w'.entries

namespace Reorders

theorem add (h : w.Reorders w') (k : κ) (q : Rat) : (w.add k q).Reorders (w'.add k q) := by
  refine ⟨h.distinct.add k q, h.distinct'.add k q, ?_⟩
  obtain ⟨hkeys, hweight⟩ := (h.distinct.perm_iff h.distinct').1 h.perm
  rw [(h.distinct.add k q).perm_iff (h.distinct'.add k q)]
  constructor
  · intro i
    rw [mem_keys_add, mem_keys_add, hkeys]
  · intro i
    rw [weight_add, weight_add, hweight]

theorem erase (h : w.Reorders w') (k : κ) : (w.erase k).Reorders (w'.erase k) := by
  refine ⟨h.distinct.of_sublist (w.entries_erase_sublist k),
    h.distinct'.of_sublist (w'.entries_erase_sublist k), ?_⟩
  rw [h.distinct.entries_erase, h.distinct'.entries_erase]
  exact h.perm.filter _

end Reorders

/-! ### Many additions -/

/-- One addition after another. -/
def addAll (w : Weights κ) (ps : List (κ × Rat)) : Weights κ :=
  ps.foldl (fun w p => w.add p.1 p.2) w

theorem addAll_cons (w : Weights κ) (p : κ × Rat) (ps : List (κ × Rat)) :
    w.addAll (p :: ps) = (w.add p.1 p.2).addAll ps := rfl

theorem Distinct.addAll (h : w.Distinct) (ps : List (κ × Rat)) : (w.addAll ps).Distinct := by
  induction ps generalizing w with
  | nil => exact h
  | cons p ps ih => exact ih (h.add p.1 p.2)

theorem mem_keys_addAll (w : Weights κ) (ps : List (κ × Rat)) (k : κ) :
    k ∈ (w.addAll ps).keys ↔ k ∈ w.keys ∨ k ∈ ps.map Prod.fst := by
  induction ps generalizing w with
  | nil => simp [Weights.addAll]
  | cons p ps ih =>
    rw [addAll_cons, ih, mem_keys_add, List.map_cons, List.mem_cons]
    tauto

/-- A key weighs the sum of all that was added to it. -/
theorem weight_addAll (w : Weights κ) (ps : List (κ × Rat)) (k : κ) :
    (w.addAll ps).weight k = w.weight k + (ps.map fun p => if k = p.1 then p.2 else 0).sum := by
  induction ps generalizing w with
  | nil => simp [Weights.addAll]
  | cons p ps ih => rw [addAll_cons, ih, weight_add, List.map_cons, List.sum_cons, add_assoc]

theorem Distinct.addAll_reorders (h : w.Distinct) (hp : ps.Perm ps') :
    (w.addAll ps).Reorders (w.addAll ps') := by
  refine ⟨h.addAll ps, h.addAll ps', ?_⟩
  rw [(h.addAll ps).perm_iff (h.addAll ps')]
  constructor
  · intro k
    rw [mem_keys_addAll, mem_keys_addAll, (hp.map Prod.fst).mem_iff]
  · intro k
    rw [weight_addAll, weight_addAll, (hp.map _).sum_eq]

end Weights

/-! ### Shares -/

/-- A share in what is collected: a constant, or a weight of a key. -/
inductive Share (κ : Type) where
  | constant (q : Rat)
  | weight (k : κ) (q : Rat)

namespace Share

variable {κ : Type}

def constant? : Share κ → Option Rat
  | constant q => some q
  | weight .. => none

def entry? : Share κ → Option (κ × Rat)
  | constant _ => none
  | weight k q => some (k, q)

/-- The constants among shares. -/
def constants (ss : List (Share κ)) : List Rat := ss.filterMap constant?

/-- The weights among shares. -/
def entries (ss : List (Share κ)) : List (κ × Rat) := ss.filterMap entry?

variable {k : κ} {q : Rat} {ss ss' : List (Share κ)}

@[simp] theorem constants_nil : constants ([] : List (Share κ)) = [] := rfl

@[simp] theorem constants_constant : constants (constant q :: ss) = q :: constants ss := rfl

@[simp] theorem constants_weight : constants (weight k q :: ss) = constants ss := rfl

@[simp] theorem entries_nil : entries ([] : List (Share κ)) = [] := rfl

@[simp] theorem entries_constant : entries (constant q :: ss) = entries ss := rfl

@[simp] theorem entries_weight : entries (weight k q :: ss) = (k, q) :: entries ss := rfl

theorem constants_perm (h : ss.Perm ss') : (constants ss).Perm (constants ss') := h.filterMap _

theorem entries_perm (h : ss.Perm ss') : (entries ss).Perm (entries ss') := h.filterMap _

end Share

end ExactAlgebra
