import Mathlib.Data.List.Induction
import Mathlib.Tactic.Common
import VendorBundle.Proofs.Order
import VendorBundle.Table

/-!
# Looking up in tables

A table is determined by what it answers to look-ups, and each operation changes the answers in the
one way its name says.
-/

namespace VendorBundle.Table

variable {κ α : Type} [Ord κ]

theorem keys_ascending (t : Table κ α) : t.keys.Pairwise (fun a b => compare a b = .lt) :=
  List.pairwise_map.mpr t.ascending

theorem keys_nodup [Std.ReflOrd κ] (t : Table κ α) : t.keys.Nodup :=
  nodup_of_ascending t.keys_ascending

theorem entries_nodup [Std.ReflOrd κ] (t : Table κ α) : t.entries.Nodup :=
  (List.pairwise_map.mp t.keys_nodup).imp fun hne he => hne (congrArg Prod.fst he)

@[simp] theorem get?_empty (k : κ) : (∅ : Table κ α).get? k = none := rfl

variable [Std.LawfulEqOrd κ]

/-! ## Entries -/

theorem find?_eq_some_iff {k : κ} {v : α} {es : List (κ × α)}
    (h : es.Pairwise (fun a b => compare a.1 b.1 = .lt)) :
    find? k es = some v ↔ (k, v) ∈ es := by
  induction es with
  | nil => simp [find?]
  | cons hd rest ih =>
      obtain ⟨k', v'⟩ := hd
      obtain ⟨hh, ht⟩ := List.pairwise_cons.mp h
      by_cases hk : k = k'
      · subst hk
        have hnot : (k, v) ∉ rest := fun hm => by simpa using hh _ hm
        simp [find?, hnot, eq_comm]
      · simp [find?, hk, ih ht]

theorem get?_eq_some_iff {t : Table κ α} {k : κ} {v : α} :
    t.get? k = some v ↔ (k, v) ∈ t.entries :=
  find?_eq_some_iff t.ascending

/-- What holds of all keys with their values can be checked entry by entry. -/
theorem forall_get?_iff {t : Table κ α} {P : κ → α → Prop} :
    (∀ k v, t.get? k = some v → P k v) ↔ ∀ e ∈ t.entries, P e.1 e.2 := by
  simp only [get?_eq_some_iff]
  exact ⟨fun h e he => h e.1 e.2 he, fun h k v hm => h (k, v) hm⟩

theorem get?_eq_none_iff {t : Table κ α} {k : κ} : t.get? k = none ↔ k ∉ t.keys := by
  rw [Option.eq_none_iff_forall_not_mem]
  simp only [Option.mem_def, get?_eq_some_iff, keys, List.mem_map, Prod.exists, not_exists]
  constructor
  · rintro h k' v ⟨hm, rfl⟩
    exact h v hm
  · intro h v hm
    exact h k v ⟨hm, rfl⟩

theorem mem_keys {t : Table κ α} {k : κ} : k ∈ t.keys ↔ ∃ v, t.get? k = some v := by
  rw [← not_iff_not, ← get?_eq_none_iff, Option.eq_none_iff_forall_ne_some]
  simp

theorem contains_iff {t : Table κ α} {k : κ} : t.contains k = true ↔ k ∈ t.keys := by
  rw [contains, Option.isSome_iff_exists, mem_keys]

theorem find?_place [DecidableEq κ] (k k' : κ) (v : α) (es : List (κ × α)) :
    find? k' (place k v es) = if k = k' then some v else find? k' es := by
  induction es with
  | nil =>
      by_cases h : k = k'
      · simp [place, find?, h]
      · simp [place, find?, h, Ne.symm h]
  | cons hd rest ih =>
      obtain ⟨k₀, v₀⟩ := hd
      simp only [place]
      split
      · by_cases h : k = k'
        · simp [find?, h]
        · simp [find?, h, Ne.symm h]
      · rename_i heq
        have := Std.LawfulEqCmp.eq_of_compare heq
        subst this
        by_cases h : k = k'
        · simp [find?, h]
        · simp [find?, h, Ne.symm h]
      · rename_i hgt
        have hne : k ≠ k₀ := by
          rintro rfl
          simp at hgt
        by_cases h : k = k'
        · subst h
          simp [find?, hne, ih]
        · simp [find?, h, ih]

theorem get?_filter (t : Table κ α) (p : κ → α → Bool) (k : κ) :
    (t.filter p).get? k = (t.get? k).filter (p k) := by
  apply Option.ext
  intro v
  rw [get?_eq_some_iff, Option.filter_eq_some_iff, get?_eq_some_iff]
  simp [filter]

theorem get?_erase [DecidableEq κ] (t : Table κ α) (k k' : κ) :
    (t.erase k).get? k' = if k = k' then none else t.get? k' := by
  rw [erase, get?_filter]
  by_cases h : k = k'
  · subst h
    cases t.get? k <;> simp
  · cases t.get? k' <;> simp [h]

variable [Std.TransOrd κ]

/-- Tables that answer alike are equal. -/
theorem ext_get? {s t : Table κ α} (h : ∀ k, s.get? k = t.get? k) : s = t := by
  apply ext_entries
  have hmem : ∀ e, e ∈ s.entries ↔ e ∈ t.entries := by
    rintro ⟨k, v⟩
    rw [← get?_eq_some_iff, ← get?_eq_some_iff, h]
  apply List.Perm.eq_of_pairwise _ s.ascending t.ascending
    ((List.perm_ext_iff_of_nodup s.entries_nodup t.entries_nodup).mpr hmem)
  intro a b _ _ hab hba
  exact absurd (Std.OrientedCmp.gt_of_lt hab) (by simp [hba])

/-! ## Operations -/

@[simp] theorem get?_insert [DecidableEq κ] (t : Table κ α) (k k' : κ) (v : α) :
    (t.insert k v).get? k' = if k = k' then some v else t.get? k' :=
  find?_place k k' v t.entries

theorem get?_insertIfNew [DecidableEq κ] (t : Table κ α) (k k' : κ) (v : α) :
    (t.insertIfNew k v).get? k' = if k = k' then some ((t.get? k).getD v) else t.get? k' := by
  rw [insertIfNew, contains]
  split
  · rename_i h
    obtain ⟨w, hw⟩ := Option.isSome_iff_exists.mp h
    by_cases hk : k = k'
    · subst hk
      simp [hw]
    · simp [hk]
  · rename_i h
    simp only [Bool.not_eq_true, Option.isSome_eq_false_iff, Option.isNone_iff_eq_none] at h
    simp [h]

theorem ofList_append_singleton (es : List (κ × α)) (k : κ) (v : α) :
    ofList (es ++ [(k, v)]) = (ofList es).insert k v := by
  simp [ofList, List.foldl_append]

/-- The last binding of a key counts. -/
theorem get?_ofList [DecidableEq κ] (es : List (κ × α)) (k : κ) :
    (ofList es).get? k = (es.reverse.find? (·.1 = k)).map (·.2) := by
  induction es using List.reverseRecOn with
  | nil => rfl
  | append_singleton es e ih =>
      obtain ⟨k', v⟩ := e
      rw [ofList_append_singleton, get?_insert, List.reverse_append]
      by_cases h : k' = k <;> simp [h, ih]

theorem mem_keys_ofList [DecidableEq κ] {es : List (κ × α)} {k : κ} :
    k ∈ (ofList es).keys ↔ k ∈ es.map (·.1) := by
  rw [mem_keys]
  simp only [get?_ofList, Option.map_eq_some_iff]
  constructor
  · rintro ⟨v, e, he, rfl⟩
    have hm := List.mem_of_find?_eq_some he
    have hk := List.find?_some he
    simp only [decide_eq_true_eq] at hk
    exact List.mem_map.mpr ⟨e, List.mem_reverse.mp hm, hk⟩
  · intro h
    obtain ⟨e, he, rfl⟩ := List.mem_map.mp h
    have hs : (es.reverse.find? (fun x => decide (x.1 = e.1))).isSome := by
      rw [List.find?_isSome]
      exact ⟨e, List.mem_reverse.mpr he, by simp⟩
    obtain ⟨x, hx⟩ := Option.isSome_iff_exists.mp hs
    exact ⟨x.2, x, hx, rfl⟩

end VendorBundle.Table
