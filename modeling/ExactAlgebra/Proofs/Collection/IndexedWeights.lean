import ExactAlgebra.Collection.IndexedWeights
import ExactAlgebra.Proofs.Collection.Totals
import Std.Data.HashMap.Lemmas

/-!
The index of weights always says where the entry of a key stands, through updates and removals. So
weights with an index do what weights without one do.
-/

namespace ExactAlgebra

variable {κ : Type} [DecidableEq κ]

namespace IndexedWeights

variable [Hashable κ] {w : IndexedWeights κ} {k k' : κ} {i j : Nat} {f : Rat → Rat}

/-! ### The index -/

/-- The index says of each key where its entry stands, and of no other key anything. -/
def Indexed (w : IndexedWeights κ) : Prop :=
  ∀ (k : κ) (i : Nat), w.index[k]? = some i ↔ ∃ q, w.entries[i]? = some (k, q)

theorem toWeights_entries (w : IndexedWeights κ) (i : Nat) :
    w.toWeights.entries[i]? = w.entries[i]? :=
  Array.getElem?_toList

theorem Indexed.position?_eq (h : w.Indexed) (k : κ) :
    w.index[k]? = w.toWeights.position? k := by
  cases hi : w.index[k]? with
  | none =>
    refine (List.findIdx?_eq_none_iff.2 fun e he => decide_eq_false ?_).symm
    rintro rfl
    obtain ⟨i, he'⟩ := List.mem_iff_getElem?.1 he
    rw [(h e.1 i).2 ⟨e.2, w.toWeights_entries i ▸ he'⟩] at hi
    cases hi
  | some i =>
    obtain ⟨q, hq⟩ := (h k i).1 hi
    obtain ⟨hlt, hget⟩ := List.getElem?_eq_some_iff.1 ((w.toWeights_entries i).trans hq)
    refine (List.findIdx?_eq_some_iff_getElem.2 ⟨hlt, by simp [hget], fun j hj hk => ?_⟩).symm
    have hk' : w.toWeights.entries[j].1 = k := of_decide_eq_true hk
    have hj' := (h k j).2 ⟨w.toWeights.entries[j].2, by
      rw [← toWeights_entries, List.getElem?_eq_getElem (hj.trans hlt), ← hk']⟩
    exact absurd (Option.some.inj (hi.symm.trans hj')) hj.ne'

/-- No key has two entries, for the index knows of one place only. -/
theorem Indexed.distinct (h : w.Indexed) : w.toWeights.Distinct := by
  refine List.nodup_iff_getElem?_ne_getElem?.2 fun i j hij hj he => ?_
  have hplace : ∀ {n : Nat} {k : κ}, w.toWeights.keys[n]? = some k → w.index[k]? = some n := by
    intro n k hn
    rw [Weights.keys, List.getElem?_map, toWeights_entries] at hn
    obtain ⟨e, he, rfl⟩ := Option.map_eq_some_iff.1 hn
    exact (h e.1 n).2 ⟨e.2, he⟩
  have hkey := List.getElem?_eq_getElem hj
  have hj' := hplace hkey
  rw [hplace (he.trans hkey)] at hj'
  exact hij.ne (Option.some.inj hj')

theorem Indexed.empty : (.empty : IndexedWeights κ).Indexed := by
  intro k i
  simp [IndexedWeights.empty]

theorem Indexed.update (h : w.Indexed) (k : κ) (f : Rat → Rat) : (w.update k f).Indexed := by
  intro k' i
  rw [IndexedWeights.update]
  cases hk : w.index[k]? with
  | some j =>
    simp only [h k' i, Array.getElem?_modify]
    split
    · simp [Prod.ext_iff]
    · rfl
  | none =>
    simp only [Std.HashMap.getElem?_insert, beq_iff_eq, Array.getElem?_push]
    by_cases he : k = k'
    · subst he
      rw [if_pos rfl]
      split
      · next hi => simp [hi]
      · next hi =>
        have hnone : w.index[k]? ≠ some i := by simp [hk]
        rw [← h k i]
        simp [hnone, Ne.symm hi]
    · rw [if_neg he, h k' i]
      split
      · next hi => simp [hi, he]
      · rfl

/-- The places that the index gives are those after the removal. -/
theorem Indexed.erase (h : w.Indexed) (k : κ) : (w.erase k).Indexed := by
  intro k' i
  rw [IndexedWeights.erase]
  cases hk : w.index[k]? with
  | none => exact h k' i
  | some j =>
    have hentries : (w.entries.eraseIdxIfInBounds j)[i]? =
        if i < j then w.entries[i]? else w.entries[i + 1]? := by
      rw [← Array.getElem?_toList, Array.toList_eraseIdxIfInBounds, List.getElem?_eraseIdx,
        Array.getElem?_toList, Array.getElem?_toList]
    have hplace : (∃ q, (w.entries.eraseIdxIfInBounds j)[i]? = some (k', q)) ↔
        w.index[k']? = some (if i < j then i else i + 1) := by
      rw [hentries, h]
      split <;> rfl
    rw [hplace, Std.HashMap.getElem?_map, Std.HashMap.getElem?_erase]
    by_cases he : k = k'
    · subst he
      simp only [beq_self_eq_true, if_true, Option.map_none, hk]
      grind
    · have hne : w.index[k']? ≠ some j := by
        intro hj
        obtain ⟨q, hq⟩ := (h k j).1 hk
        obtain ⟨q', hq'⟩ := (h k' j).1 hj
        rw [hq] at hq'
        cases hq'
        exact he rfl
      rw [if_neg (by simpa using he)]
      cases hi : w.index[k']? with
      | none => simp
      | some n =>
        have hnj : n ≠ j := fun hn => hne (hn ▸ hi)
        simp only [Option.map_some, Option.some.injEq]
        grind

/-! ### Weights without the index -/

theorem Indexed.contains_eq (h : w.Indexed) (k : κ) : w.contains k = w.toWeights.contains k := by
  rw [contains, Std.HashMap.contains_eq_isSome_getElem?, h.position?_eq, Weights.contains]

theorem Indexed.weight_eq (h : w.Indexed) (k : κ) : w.weight k = w.toWeights.weight k := by
  have hfind : w.toWeights.entries.find? (fun e => e.1 = k) =
      (w.index[k]?).bind fun i => w.entries[i]? := by
    rw [h.position?_eq, Weights.position?, List.find?_eq_bind_findIdx?_getElem?]
    simp only [toWeights_entries]
  rw [weight, Weights.weight, hfind]
  cases w.index[k]? with
  | none => rfl
  | some i => cases he : w.entries[i]? <;> simp [he]

theorem Indexed.toWeights_update (h : w.Indexed) (k : κ) (f : Rat → Rat) :
    (w.update k f).toWeights = w.toWeights.update k f := by
  rw [IndexedWeights.update, Weights.update, h.position?_eq]
  cases w.toWeights.position? k with
  | some i => exact congrArg Weights.mk Array.toList_modify
  | none => exact congrArg Weights.mk Array.toList_push

theorem Indexed.toWeights_erase (h : w.Indexed) (k : κ) :
    (w.erase k).toWeights = w.toWeights.erase k := by
  rw [IndexedWeights.erase, Weights.erase, h.position?_eq]
  cases w.toWeights.position? k with
  | some i => exact congrArg Weights.mk Array.toList_eraseIdxIfInBounds
  | none => rfl

end IndexedWeights

end ExactAlgebra
