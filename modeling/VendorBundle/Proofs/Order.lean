import Mathlib.Data.List.Perm.Basic
import Mathlib.Tactic.Common

/-!
# Strictly ascending lists

Sorting elements that compare differently puts them into strictly ascending order, and a strictly
ascending list is determined by its members.
-/

namespace VendorBundle

section

variable {α : Type} (cmp : α → α → Ordering) [Std.TransCmp cmp]

theorem isLE_trans_cmp (a b c : α) (hab : (cmp a b).isLE) (hbc : (cmp b c).isLE) :
    (cmp a c).isLE :=
  Std.TransCmp.isLE_trans hab hbc

theorem isLE_total_cmp (a b : α) : (cmp a b).isLE || (cmp b a).isLE := by
  rw [@Std.OrientedCmp.eq_swap _ cmp _ b a]
  cases cmp a b <;> rfl

/-- Sorting elements of which no two compare equal. -/
theorem ascending_mergeSort {l : List α} (h : l.Pairwise fun a b => cmp a b ≠ .eq) :
    (l.mergeSort fun a b => (cmp a b).isLE).Pairwise fun a b => cmp a b = .lt := by
  have hsorted := List.pairwise_mergeSort (isLE_trans_cmp cmp) (isLE_total_cmp cmp) l
  have hdiffer : (l.mergeSort fun a b => (cmp a b).isLE).Pairwise fun a b => cmp a b ≠ .eq := by
    refine ((List.mergeSort_perm l _).pairwise_iff fun {a b} hab hba => hab ?_).mpr h
    exact Std.OrientedCmp.eq_comm.mp hba
  refine (hsorted.and hdiffer).imp fun {a b} hab => ?_
  cases hc : cmp a b with
  | lt => rfl
  | eq => exact absurd hc hab.2
  | gt => simp [hc] at hab

end

section

variable {κ : Type} [Ord κ]

theorem ne_of_compare_lt [Std.ReflOrd κ] {a b : κ} (h : compare a b = .lt) : a ≠ b := by
  rintro rfl
  simp at h

theorem nodup_of_ascending [Std.ReflOrd κ] {l : List κ}
    (h : l.Pairwise fun a b => compare a b = .lt) : l.Nodup :=
  h.imp ne_of_compare_lt

variable [Std.TransOrd κ] [Std.LawfulEqOrd κ]

/-- Sorting by a key that no two elements share. -/
theorem ascending_mergeSort_key {α : Type} (key : α → κ) {l : List α} (hn : (l.map key).Nodup) :
    (l.mergeSort fun a b => (compare (key a) (key b)).isLE).Pairwise
      fun a b => compare (key a) (key b) = .lt := by
  refine ascending_mergeSort (compareOn key) ((List.pairwise_map.mp hn).imp fun hne he => hne ?_)
  exact Std.LawfulEqCmp.eq_of_compare he

theorem eq_of_ascending {a b : List κ} (ha : a.Pairwise fun x y => compare x y = .lt)
    (hb : b.Pairwise fun x y => compare x y = .lt) (h : ∀ x, x ∈ a ↔ x ∈ b) : a = b := by
  refine List.Perm.eq_of_pairwise (fun x y _ _ hxy hyx => ?_) ha hb
    ((List.perm_ext_iff_of_nodup (nodup_of_ascending ha) (nodup_of_ascending hb)).mpr h)
  exact absurd (Std.OrientedCmp.gt_of_lt hxy) (by simp [hyx])

end

end VendorBundle
