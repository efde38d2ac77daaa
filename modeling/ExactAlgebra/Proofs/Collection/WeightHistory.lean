import ExactAlgebra.Proofs.Collection.IndexedWeights
import Mathlib.Data.List.DropRight

/-!
Weights in terms of all that was done with them. The entries are those of the keys that were updated
and not erased since, in the order in which these keys came in, and the weight of a key is what its
updates since then make of zero.
-/

namespace ExactAlgebra

/-- A use of weights. Looking for a key changes nothing. -/
inductive WeightOperation (κ : Type) where
  | update (k : κ) (f : Rat → Rat)
  | contains (k : κ)
  | erase (k : κ)

variable {κ : Type} [DecidableEq κ] {k k' : κ} {op : WeightOperation κ}
variable {ops : List (WeightOperation κ)} {t : Nat}

namespace WeightOperation

def erases (k : κ) : WeightOperation κ → Bool
  | erase k' => k' = k
  | _ => false

/-- The change of the weight of a key. -/
def update? (k : κ) : WeightOperation κ → Option (Rat → Rat)
  | update k' f => if k' = k then some f else none
  | _ => none

/-- The updates of a key since it was last erased. -/
def updates (k : κ) (ops : List (WeightOperation κ)) : List (Rat → Rat) :=
  (ops.rtakeWhile fun op => !op.erases k).filterMap (update? k)

/-- What the updates of a key come to. -/
def accumulated (k : κ) (ops : List (WeightOperation κ)) : Rat :=
  (updates k ops).foldl (fun q f => f q) 0

/-- The key that the operation at time `t` brings in, to stay until the end. -/
def insertedAt? (ops : List (WeightOperation κ)) (t : Nat) : Option κ :=
  match ops[t]? with
  | some (update k _) =>
    if (updates k (ops.take t)).isEmpty && (ops.drop (t + 1)).all (!erases k ·) then some k
    else none
  | _ => none

/-- The keys that were brought in and not erased since, in the order of these times. -/
def insertions (ops : List (WeightOperation κ)) : List κ :=
  (List.range ops.length).filterMap (insertedAt? ops)

/-- A key was updated, and not erased since. -/
def Kept (k : κ) (ops : List (WeightOperation κ)) : Prop :=
  ∃ (before after : List (WeightOperation κ)) (f : Rat → Rat),
    ops = before ++ update k f :: after ∧ ∀ op ∈ after, op.erases k = false

/-! ### One more operation -/

theorem updates_concat (k : κ) (ops : List (WeightOperation κ)) (op : WeightOperation κ) :
    updates k (ops ++ [op]) = if op.erases k then [] else updates k ops ++ (op.update? k).toList := by
  rw [updates]
  cases he : op.erases k with
  | true => rw [List.rtakeWhile_concat_neg _ _ _ (by simp [he])]; rfl
  | false =>
    rw [List.rtakeWhile_concat_pos _ _ _ (by simp [he]), List.filterMap_append]
    cases hu : op.update? k <;> simp [hu, updates]

theorem accumulated_update (k : κ) (f : Rat → Rat) (ops : List (WeightOperation κ)) :
    accumulated k (ops ++ [update k f]) = f (accumulated k ops) := by
  simp [accumulated, updates_concat, erases, update?]

/-- What is done with one key is nothing to another. -/
theorem updates_concat_ne (he : op.erases k = false) (hu : op.update? k = none)
    (ops : List (WeightOperation κ)) : updates k (ops ++ [op]) = updates k ops := by
  simp [updates_concat, he, hu]

/-- The key that an operation brings in. -/
def inserted (ops : List (WeightOperation κ)) : WeightOperation κ → List κ
  | update k _ => if updates k ops = [] then [k] else []
  | _ => []

theorem insertions_concat (ops : List (WeightOperation κ)) (op : WeightOperation κ) :
    insertions (ops ++ [op]) = (insertions ops).filter (!op.erases ·) ++ inserted ops op := by
  have hbefore : ∀ t ∈ List.range ops.length,
      insertedAt? (ops ++ [op]) t = (insertedAt? ops t).filter (!op.erases ·) := by
    intro t ht
    have hlt := List.mem_range.1 ht
    rw [insertedAt?, insertedAt?, List.getElem?_append_left hlt,
      List.take_append_of_le_length hlt.le, List.drop_append_of_le_length hlt]
    rcases ops[t]? with _ | ⟨k, f⟩ | k | k
    · rfl
    · simp only [List.all_append, List.all_cons, List.all_nil, Bool.and_true]
      cases (updates k (ops.take t)).isEmpty <;> cases (ops.drop (t + 1)).all (!erases k ·) <;>
        cases he : op.erases k <;> simp [Option.filter, he]
    · rfl
    · rfl
  rw [insertions, List.length_append, List.length_singleton, List.range_succ, List.filterMap_append,
    List.filterMap_congr hbefore, insertions, List.filter_filterMap]
  congr 1
  simp only [List.filterMap_cons, List.filterMap_nil, insertedAt?, List.getElem?_concat_length]
  cases op with
  | update k f => 
    by_cases h : updates k ops = [] <;> simp [inserted, h]
  | contains k => rfl
  | erase k => rfl

/-! ### What was brought in -/

theorem kept_concat :
    Kept k (ops ++ [op]) ↔ (op.update? k).isSome ∨ (op.erases k = false ∧ Kept k ops) := by
  constructor
  · rintro ⟨before, after, f, he, hafter⟩
    rcases List.eq_nil_or_concat after with rfl | ⟨after, op', rfl⟩
    · obtain ⟨-, rfl⟩ := List.append_inj' he rfl |>.imp_right List.singleton_inj.1
      simp [update?]
    · rw [List.concat_eq_append, ← List.cons_append, ← List.append_assoc] at he
      obtain ⟨rfl, hop⟩ := List.append_inj' he rfl
      obtain rfl := List.singleton_inj.1 hop
      simp only [List.concat_eq_append, List.mem_append, List.mem_singleton] at hafter
      exact .inr ⟨hafter _ (.inr rfl), before, after, f, rfl, fun op h => hafter op (.inl h)⟩
  · rintro (hu | ⟨he, before, after, f, rfl, hafter⟩)
    · rcases op with ⟨k', f⟩ | k' | k'
      · obtain rfl : k' = k := by simpa [update?] using hu
        exact ⟨ops, [], f, rfl, by simp⟩
      · simp [update?] at hu
      · simp [update?] at hu
    · refine ⟨before, after ++ [op], f, by simp, fun op' h => ?_⟩
      rcases List.mem_append.1 h with h | h
      · exact hafter op' h
      · rw [List.mem_singleton.1 h]
        exact he

/-- A key was updated and not erased since, if there are updates since it was last erased. -/
theorem kept_iff (k : κ) (ops : List (WeightOperation κ)) : Kept k ops ↔ updates k ops ≠ [] := by
  induction ops using List.reverseRecOn with
  | nil => simp [Kept, updates]
  | append_singleton ops op ih =>
    rw [kept_concat, ih, updates_concat]
    rcases op with ⟨k', f⟩ | k' | k'
    · by_cases h : k' = k <;> simp [update?, erases, h]
    · simp [update?, erases]
    · by_cases h : k' = k <;> simp [update?, erases, h]

theorem mem_insertions_iff (k : κ) (ops : List (WeightOperation κ)) :
    k ∈ insertions ops ↔ updates k ops ≠ [] := by
  induction ops using List.reverseRecOn with
  | nil => simp [insertions, updates]
  | append_singleton ops op ih =>
    rw [insertions_concat, List.mem_append, List.mem_filter, ih, updates_concat]
    rcases op with ⟨k', f⟩ | k' | k'
    · by_cases h : k' = k
      · subst h
        by_cases hu : updates k' ops = [] <;> simp [inserted, update?, erases, hu]
      · by_cases hu : updates k' ops = [] <;> simp [inserted, update?, erases, h, Ne.symm h, hu]
    · simp [inserted, update?, erases]
    · by_cases h : k' = k <;> simp [inserted, update?, erases, h]

theorem nodup_insertions (ops : List (WeightOperation κ)) : (insertions ops).Nodup := by
  induction ops using List.reverseRecOn with
  | nil => exact List.nodup_nil
  | append_singleton ops op ih =>
    rw [insertions_concat]
    rcases op with ⟨k, f⟩ | k | k
    · rw [inserted]
      split
      · next hu =>
        refine (ih.filter _).append (List.nodup_singleton k) ?_
        simp [mem_insertions_iff, hu]
      · simpa using ih.filter _
    · simpa [inserted] using ih.filter _
    · simpa [inserted] using ih.filter _

end WeightOperation

open WeightOperation

/-! ### Weights -/

namespace IndexedWeights

variable [Hashable κ] {w : IndexedWeights κ}

def apply (w : IndexedWeights κ) : WeightOperation κ → IndexedWeights κ
  | .update k f => w.update k f
  | .contains _ => w
  | .erase k => w.erase k

/-- Weights that were used in a number of ways, one after another. -/
def run (ops : List (WeightOperation κ)) : IndexedWeights κ := ops.foldl apply .empty

theorem run_concat (ops : List (WeightOperation κ)) (op : WeightOperation κ) :
    run (ops ++ [op]) = (run ops).apply op := by
  rw [run, List.foldl_append]
  rfl

theorem run_indexed (ops : List (WeightOperation κ)) : (run ops).Indexed := by
  induction ops using List.reverseRecOn with
  | nil => exact .empty
  | append_singleton ops op ih =>
    rw [run_concat]
    cases op with
    | update k f => exact ih.update k f
    | contains k => exact ih
    | erase k => exact ih.erase k

/-- The entries are the keys that were brought in, with what their updates came to. -/
theorem entries_run (ops : List (WeightOperation κ)) :
    (run ops).toWeights.entries = (insertions ops).map fun k => (k, accumulated k ops) := by
  induction ops using List.reverseRecOn with
  | nil => rfl
  | append_singleton ops op ih =>
    have hindexed := run_indexed ops
    have hkeys : (run ops).toWeights.keys = insertions ops := by
      rw [Weights.keys, ih, List.map_map]
      exact List.map_id _
    have hother : ∀ k, op.erases k = false → op.update? k = none →
        accumulated k (ops ++ [op]) = accumulated k ops := fun k he hu => by
      rw [accumulated, updates_concat_ne he hu, accumulated]
    rw [run_concat, insertions_concat, List.map_append]
    rcases op with ⟨k, f⟩ | k | k
    · have hne : ∀ k', k' ≠ k → accumulated k' (ops ++ [.update k f]) = accumulated k' ops :=
        fun k' h => hother k' rfl (if_neg h.symm)
      have hall : (insertions ops).filter (fun k' => !erases k' (.update k f)) = insertions ops :=
        List.filter_eq_self.2 fun _ _ => rfl
      rw [apply, hindexed.toWeights_update, hall]
      by_cases hu : updates k ops = []
      · have hk : k ∉ insertions ops := fun h => (mem_insertions_iff k ops).1 h hu
        have hzero : accumulated k ops = 0 := by rw [accumulated, hu, List.foldl_nil]
        rw [Weights.update_of_notMem (hkeys ▸ hk), ih, inserted, if_pos hu, List.map_singleton,
          accumulated_update, hzero]
        congr 1
        exact List.map_congr_left fun k' h => by rw [hne k' fun he => hk (he ▸ h)]
      · have hk : k ∈ insertions ops := (mem_insertions_iff k ops).2 hu
        rw [hindexed.distinct.entries_update (hkeys ▸ hk), ih, inserted, if_neg hu, List.map_nil,
          List.append_nil, List.map_map]
        refine List.map_congr_left fun k' _ => ?_
        by_cases he : k' = k
        · subst he
          simp only [Function.comp_apply, if_true, accumulated_update]
        · simp only [Function.comp_apply, if_neg he, hne k' he]
    · have hall : (insertions ops).filter (fun k' => !erases k' (.contains k)) = insertions ops :=
        List.filter_eq_self.2 fun _ _ => rfl
      simp only [apply, ih, inserted, List.map_nil, List.append_nil, hall]
      exact List.map_congr_left fun k' _ => by rw [hother k' rfl rfl]
    · simp only [apply, hindexed.toWeights_erase, hindexed.distinct.entries_erase, ih, inserted,
        List.map_nil, List.append_nil, List.filter_map]
      have hkept : (insertions ops).filter ((fun e : κ × Rat => e.1 ≠ k) ∘
          fun k => (k, accumulated k ops)) = (insertions ops).filter (!erases · (.erase k)) :=
        List.filter_congr fun k' _ => by simp [erases, eq_comm]
      rw [hkept]
      refine List.map_congr_left fun k' h => ?_
      have hne : erases k' (.erase k) = false := by simpa using (List.mem_filter.1 h).2
      rw [hother k' hne rfl]

theorem keys_run (ops : List (WeightOperation κ)) : (run ops).toWeights.keys = insertions ops := by
  rw [Weights.keys, entries_run, List.map_map]
  exact List.map_id _

theorem contains_run (k : κ) (ops : List (WeightOperation κ)) :
    (run ops).contains k = true ↔ k ∈ insertions ops := by
  rw [(run_indexed ops).contains_eq, ← keys_run, Weights.contains, Weights.position?,
    List.findIdx?_isSome, Weights.keys, List.any_eq_true]
  simp [eq_comm]

theorem weight_run (k : κ) (ops : List (WeightOperation κ)) :
    (run ops).weight k = accumulated k ops := by
  have hindexed := run_indexed ops
  rw [hindexed.weight_eq]
  by_cases hk : k ∈ insertions ops
  · have hmem : (k, accumulated k ops) ∈ (run ops).toWeights.entries := by
      rw [entries_run]
      exact List.mem_map.2 ⟨k, hk, rfl⟩
    exact (hindexed.distinct.mem_entries_iff.1 hmem).2
  · have hnone : updates k ops = [] := by
      by_contra h
      exact hk ((mem_insertions_iff k ops).2 h)
    rw [Weights.weight_of_notMem (keys_run ops ▸ hk), accumulated, hnone, List.foldl_nil]

/--
Weights after any uses. The keys that have an entry are those that were updated and not erased
since. Each has one entry, with the outcome of its updates since then, and the entries stand in the
order in which their keys were brought in. Whatever is asked of the weights agrees with that, and
the index says of each key where its own entry stands.
-/
theorem run_history (ops : List (WeightOperation κ)) :
    (run ops).entries.toList = (insertions ops).map (fun k => (k, accumulated k ops)) ∧
      (insertions ops).Nodup ∧ (run ops).size = (insertions ops).length ∧
      ((run ops).isEmpty = true ↔ insertions ops = []) ∧
      ∀ k, (k ∈ insertions ops ↔ Kept k ops) ∧ ((run ops).contains k = true ↔ Kept k ops) ∧
        (run ops).weight k = accumulated k ops ∧
        ∀ i, (run ops).index[k]? = some i ↔ (run ops).entries[i]? = some (k, accumulated k ops) := by
  have hentries : (run ops).entries.toList = (insertions ops).map fun k => (k, accumulated k ops) :=
    entries_run ops
  have hkept : ∀ k, k ∈ insertions ops ↔ Kept k ops := fun k =>
    (mem_insertions_iff k ops).trans (kept_iff k ops).symm
  refine ⟨hentries, nodup_insertions ops, ?_, ?_, fun k =>
    ⟨hkept k, (contains_run k ops).trans (hkept k), weight_run k ops, fun i => ?_⟩⟩
  · rw [size, ← Array.length_toList, hentries, List.length_map]
  · rw [isEmpty, ← Array.isEmpty_toList, hentries, List.isEmpty_map, List.isEmpty_iff]
  · rw [run_indexed ops k i]
    refine ⟨fun ⟨q, hq⟩ => ?_, fun h => ⟨_, h⟩⟩
    have hq' := hq
    rw [← Array.getElem?_toList, hentries, List.getElem?_map] at hq'
    obtain ⟨k', -, he⟩ := Option.map_eq_some_iff.1 hq'
    cases he
    exact hq

end IndexedWeights

end ExactAlgebra
