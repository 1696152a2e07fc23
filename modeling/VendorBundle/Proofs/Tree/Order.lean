import VendorBundle.Proofs.Text.Split
import VendorBundle.Tree.Entry

/-!
# The order of paths

Paths are ordered by their segments, so the order is total and strict on different paths, and what
lies below a directory comes after it.
-/

namespace VendorBundle

/-! ## A lawful order -/

instance : Std.TransCmp comparePaths where
  eq_swap {a b} := Std.OrientedOrd.eq_swap (a := Text.split '/' a) (b := Text.split '/' b)
  isLE_trans {a b c} :=
    Std.TransOrd.isLE_trans (a := Text.split '/' a) (b := Text.split '/' b) (c := Text.split '/' c)

instance : Std.LawfulEqCmp comparePaths where
  compare_self {a} := Std.ReflOrd.compare_self (a := Text.split '/' a)
  eq_of_compare h := Text.split_injective (Std.LawfulEqOrd.eq_of_compare h)

@[simp] theorem comparePaths_self (a : String) : comparePaths a a = .eq :=
  Std.ReflCmp.compare_self

theorem comparePaths_ne_of_lt {a b : String} (h : comparePaths a b = .lt) : a ≠ b := by
  rintro rfl
  simp at h

/-! ## Below a directory -/

/-- A path goes on below a directory. -/
def Below (dir path : String) : Prop := ∃ rest, path = dir ++ "/" ++ rest

theorem below_iff_split {dir path : String} :
    Below dir path ↔
      ∃ rest, rest ≠ [] ∧ Text.split '/' path = Text.split '/' dir ++ rest := by
  constructor
  · rintro ⟨rest, rfl⟩
    exact ⟨Text.split '/' rest, Text.split_ne_nil _ _, Text.split_append dir rest⟩
  · rintro ⟨rest, hne, h⟩
    refine ⟨"/".intercalate rest, ?_⟩
    rw [← Text.intercalate_split path, h,
      String.intercalate_append_of_ne_nil (Text.split_ne_nil _ _) hne, Text.intercalate_split]

theorem below_iff_prefix_dropLast {dir path : String} :
    Below dir path ↔ Text.split '/' dir <+: (Text.split '/' path).dropLast := by
  rw [below_iff_split]
  constructor
  · rintro ⟨rest, hne, hs⟩
    rw [hs, List.dropLast_append_of_ne_nil hne]
    exact List.prefix_append _ _
  · rintro ⟨rest, hrest⟩
    refine ⟨rest ++ [(Text.split '/' path).getLast (Text.split_ne_nil _ _)], by simp, ?_⟩
    rw [← List.append_assoc, hrest, List.dropLast_append_getLast]

theorem below_or_eq_iff_prefix_split {dir path : String} :
    dir = path ∨ Below dir path ↔ Text.split '/' dir <+: Text.split '/' path := by
  rw [below_iff_split]
  constructor
  · rintro (rfl | ⟨rest, -, hs⟩)
    · exact List.prefix_refl _
    · exact hs ▸ List.prefix_append _ _
  · rintro ⟨rest, hrest⟩
    by_cases hne : rest = []
    · rw [hne, List.append_nil] at hrest
      exact .inl (Text.split_injective hrest)
    · exact .inr ⟨rest, hne, hrest.symm⟩

theorem Below.trans {a b c : String} (h : Below a b) (h' : Below b c) : Below a c := by
  obtain ⟨r, rfl⟩ := h
  obtain ⟨r', rfl⟩ := h'
  exact ⟨r ++ "/" ++ r', by simp [String.append_assoc]⟩

theorem compare_append_of_ne_nil (front : List String) {rest : List String} (h : rest ≠ []) :
    compare front (front ++ rest) = .lt := by
  induction front with
  | nil =>
      cases rest with
      | nil => exact absurd rfl h
      | cons s rest => rfl
  | cons s front ih =>
      change List.compareLex compare (s :: front) (s :: (front ++ rest)) = .lt
      rw [List.compareLex_cons_cons, Std.ReflOrd.compare_self]
      exact ih

/-- A directory comes before what lies below it. -/
theorem Below.lt {dir path : String} (h : Below dir path) : comparePaths dir path = .lt := by
  obtain ⟨rest, hne, hs⟩ := below_iff_split.mp h
  rw [comparePaths, hs]
  exact compare_append_of_ne_nil _ hne

/-- It also does in the order of texts. -/
theorem Below.compare_lt {dir path : String} (h : Below dir path) : compare dir path = .lt := by
  obtain ⟨rest, rfl⟩ := h
  have hlt : dir < dir ++ "/" ++ rest := by
    rw [String.lt_iff, String.append_assoc, String.toList_append]
    have hnil : dir.toList ++ [] < dir.toList ++ '/' :: rest.toList :=
      List.append_left_lt (List.nil_lt_cons '/' rest.toList)
    simpa using hnil
  exact (compareOfLessAndEq_eq_lt (x := dir)).mpr hlt

theorem Below.ne {dir path : String} (h : Below dir path) : dir ≠ path :=
  comparePaths_ne_of_lt h.lt

end VendorBundle
