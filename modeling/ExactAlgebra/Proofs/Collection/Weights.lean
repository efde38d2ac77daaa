import ExactAlgebra.Collection.Weights
import Mathlib.Tactic

/-!
How additions and removals change the entries of weights, one entry at a time. No key has two
entries.
-/

namespace ExactAlgebra.Weights

variable {κ : Type} [DecidableEq κ] {k k' : κ} {q q' : Rat} {es es' : List (κ × Rat)}

theorem update_nil (k : κ) (f : Rat → Rat) :
    ((⟨[]⟩ : Weights κ).update k f).entries = [(k, f 0)] := by
  simp only [update, position?, List.findIdx?_nil, List.nil_append]

theorem update_cons_self (k : κ) (f : Rat → Rat) (q : Rat) (es : List (κ × Rat)) :
    ((⟨(k, q) :: es⟩ : Weights κ).update k f).entries = (k, f q) :: es := by
  simp only [update, position?, List.findIdx?_cons, decide_true, if_true, List.modify_zero_cons]

theorem update_cons_ne (h : k' ≠ k) (f : Rat → Rat) (q : Rat) (es : List (κ × Rat)) :
    ((⟨(k', q) :: es⟩ : Weights κ).update k f).entries =
      (k', q) :: ((⟨es⟩ : Weights κ).update k f).entries := by
  simp only [update, position?, List.findIdx?_cons, h, decide_false, Bool.false_eq_true, if_false]
  cases List.findIdx? (fun e => decide (e.1 = k)) es with
  | none => rfl
  | some i => simp only [Option.map_some, List.modify_succ_cons]

theorem add_nil (k : κ) (q : Rat) : ((⟨[]⟩ : Weights κ).add k q).entries = [(k, q)] := by
  rw [add, update_nil, zero_add]

theorem add_cons_self (k : κ) (q q' : Rat) (es : List (κ × Rat)) :
    ((⟨(k, q') :: es⟩ : Weights κ).add k q).entries = (k, q' + q) :: es :=
  update_cons_self ..

theorem add_cons_ne (h : k' ≠ k) (q q' : Rat) (es : List (κ × Rat)) :
    ((⟨(k', q') :: es⟩ : Weights κ).add k q).entries =
      (k', q') :: ((⟨es⟩ : Weights κ).add k q).entries :=
  update_cons_ne h ..

theorem erase_cons_self (k : κ) (q : Rat) (es : List (κ × Rat)) :
    (⟨(k, q) :: es⟩ : Weights κ).erase k = ⟨es⟩ := by
  simp only [erase, position?, List.findIdx?_cons, decide_true, if_true, List.eraseIdx_cons_zero]

theorem erase_cons_ne (h : k' ≠ k) (q : Rat) (es : List (κ × Rat)) :
    ((⟨(k', q) :: es⟩ : Weights κ).erase k).entries =
      (k', q) :: ((⟨es⟩ : Weights κ).erase k).entries := by
  simp only [erase, position?, List.findIdx?_cons, h, decide_false, Bool.false_eq_true, if_false]
  cases List.findIdx? (fun e => decide (e.1 = k)) es with
  | none => rfl
  | some i => simp only [Option.map_some, List.eraseIdx_cons_succ]

/-- Entries before the first one with a key stay. -/
theorem erase_append (h : k ∉ es.map Prod.fst) (q : Rat) (es' : List (κ × Rat)) :
    ((⟨es ++ (k, q) :: es'⟩ : Weights κ).erase k).entries = es ++ es' := by
  induction es with
  | nil => rw [List.nil_append, erase_cons_self, List.nil_append]
  | cons e es ih =>
    simp only [List.map_cons, List.mem_cons, not_or] at h
    rw [List.cons_append, erase_cons_ne (Ne.symm h.1), ih h.2, List.cons_append]

theorem entries_erase_sublist (w : Weights κ) (k : κ) :
    (w.erase k).entries.Sublist w.entries := by
  rw [erase]
  cases w.position? k with
  | some i => exact List.eraseIdx_sublist ..
  | none => exact .refl _

theorem keys_erase_subset (w : Weights κ) (k : κ) : (w.erase k).keys ⊆ w.keys :=
  ((w.entries_erase_sublist k).map Prod.fst).subset

/-- A key without an entry gets the last one. -/
theorem update_of_notMem {w : Weights κ} (h : k ∉ w.keys) (f : Rat → Rat) :
    (w.update k f).entries = w.entries ++ [(k, f 0)] := by
  obtain ⟨es⟩ := w
  induction es with
  | nil => exact update_nil k f
  | cons e es ih =>
    obtain ⟨k', q'⟩ := e
    simp only [keys, List.map_cons, List.mem_cons, not_or] at h
    rw [update_cons_ne (Ne.symm h.1), ih h.2, List.cons_append]

theorem add_of_notMem {w : Weights κ} (h : k ∉ w.keys) (q : Rat) :
    (w.add k q).entries = w.entries ++ [(k, q)] := by
  rw [add, update_of_notMem h, zero_add]

/-- No key has two entries. -/
def Distinct (w : Weights κ) : Prop := w.keys.Nodup

/-- A key with an entry keeps it, with another weight. -/
theorem Distinct.entries_update {w : Weights κ} (h : w.Distinct) (hk : k ∈ w.keys)
    (f : Rat → Rat) :
    (w.update k f).entries = w.entries.map fun e => if e.1 = k then (e.1, f e.2) else e := by
  obtain ⟨es⟩ := w
  induction es with
  | nil => simp [keys] at hk
  | cons e es ih =>
    obtain ⟨k', q⟩ := e
    simp only [Distinct, keys, List.map_cons, List.nodup_cons, List.mem_cons] at h hk
    by_cases he : k' = k
    · subst he
      have hrest : es.map (fun e => if e.1 = k' then (e.1, f e.2) else e) = es := by
        refine (List.map_congr_left fun e he => if_neg fun hk' => h.1 ?_).trans (List.map_id' es)
        exact hk' ▸ List.mem_map_of_mem he
      rw [update_cons_self, List.map_cons, if_pos rfl, hrest]
    · rw [update_cons_ne he, List.map_cons, if_neg he,
        ih h.2 (hk.resolve_left (Ne.symm he))]

theorem mem_keys_add (w : Weights κ) (k : κ) (q : Rat) (i : κ) :
    i ∈ (w.add k q).keys ↔ i = k ∨ i ∈ w.keys := by
  obtain ⟨es⟩ := w
  simp only [keys]
  induction es with
  | nil => rw [add_nil, List.map_singleton, List.mem_singleton, List.map_nil]; simp
  | cons e es ih =>
    obtain ⟨k', q'⟩ := e
    by_cases h : k' = k
    · subst h
      rw [add_cons_self]
      simp
    · rw [add_cons_ne h, List.map_cons, List.mem_cons, ih, List.map_cons, List.mem_cons]
      tauto

theorem Distinct.add {w : Weights κ} (h : w.Distinct) (k : κ) (q : Rat) : (w.add k q).Distinct := by
  obtain ⟨es⟩ := w
  induction es with
  | nil => simp [Distinct, keys, add_nil]
  | cons e es ih =>
    obtain ⟨k', q'⟩ := e
    rw [Distinct, keys, List.map_cons, List.nodup_cons] at h
    rw [Distinct, keys]
    by_cases hk : k' = k
    · subst hk
      rw [add_cons_self, List.map_cons, List.nodup_cons]
      exact h
    · rw [add_cons_ne hk, List.map_cons, List.nodup_cons]
      refine ⟨fun hmem => ?_, ih h.2⟩
      rcases (mem_keys_add ⟨es⟩ k q k').1 hmem with rfl | hmem
      · exact hk rfl
      · exact h.1 hmem

/-- An entry after an addition was there before, or it is that of the key. -/
theorem mem_entries_add {w : Weights κ} {r : κ × Rat} (h : w.Distinct)
    (hr : r ∈ (w.add k q).entries) :
    (r.1 ≠ k ∧ r ∈ w.entries) ∨ (r.1 = k ∧ (k ∈ w.keys ∨ r.2 = q)) := by
  obtain ⟨es⟩ := w
  induction es with
  | nil =>
    rw [add_nil, List.mem_singleton] at hr
    subst hr
    exact .inr ⟨rfl, .inr rfl⟩
  | cons e es ih =>
    obtain ⟨k', q'⟩ := e
    rw [Distinct, keys, List.map_cons, List.nodup_cons] at h
    by_cases hk : k' = k
    · subst hk
      rw [add_cons_self] at hr
      rcases List.mem_cons.1 hr with rfl | hr
      · exact .inr ⟨rfl, .inl (List.mem_cons_self ..)⟩
      · have hmem : r.1 ∈ es.map Prod.fst := List.mem_map_of_mem hr
        exact .inl ⟨fun he => h.1 (he ▸ hmem), List.mem_cons_of_mem _ hr⟩
    · rw [add_cons_ne hk] at hr
      rcases List.mem_cons.1 hr with rfl | hr
      · exact .inl ⟨hk, List.mem_cons_self ..⟩
      · rcases ih h.2 hr with ⟨hne, hmem⟩ | ⟨he, hmem | hq⟩
        · exact .inl ⟨hne, List.mem_cons_of_mem _ hmem⟩
        · exact .inr ⟨he, .inl (List.mem_cons_of_mem _ hmem)⟩
        · exact .inr ⟨he, .inr hq⟩

omit [DecidableEq κ] in
theorem Distinct.of_sublist {w w' : Weights κ} (h : w.Distinct)
    (hs : w'.entries.Sublist w.entries) : w'.Distinct :=
  List.Nodup.sublist (hs.map Prod.fst) h

end ExactAlgebra.Weights
