import Mathlib.Data.List.Basic
import Mathlib.Tactic.Common
import VendorBundle.Text

/-!
# Slash-separated texts and their segments

Splitting at slashes and joining with slashes are inverse to each other on lists of segments that
are not empty and hold no slash themselves.
-/

namespace VendorBundle.Text

/-! ## Pieces -/

theorem pieces_eq_splitOn (sep : Char) (text : List Char) : pieces sep text = text.splitOn sep := by
  induction text with
  | nil => simp [pieces]
  | cons c rest ih =>
      rw [pieces, List.splitOn_cons_eq_if_modifyHead, ← ih]
      by_cases h : c = sep
      · simp [h]
      · cases hp : pieces sep rest with
        | nil => exact absurd hp (pieces_ne_nil sep rest)
        | cons word words => simp [h]

theorem pieces_append_cons (sep : Char) (front rest : List Char) :
    pieces sep (front ++ sep :: rest) = pieces sep front ++ pieces sep rest := by
  simp only [pieces_eq_splitOn, List.splitOn_append_cons_self]

theorem pieces_of_not_mem {sep : Char} {text : List Char} (h : sep ∉ text) :
    pieces sep text = [text] := by
  rw [pieces_eq_splitOn, List.splitOn_eq_singleton h]

theorem not_mem_of_mem_pieces {sep : Char} {text word : List Char} (h : word ∈ pieces sep text) :
    sep ∉ word := by
  induction text generalizing word with
  | nil => simp_all [pieces]
  | cons c rest ih =>
      rw [pieces] at h
      by_cases hc : c = sep
      · rw [if_pos hc] at h
        rcases List.mem_cons.mp h with rfl | h
        · simp
        · exact ih h
      · rw [if_neg hc] at h
        cases hp : pieces sep rest with
        | nil => exact absurd hp (pieces_ne_nil sep rest)
        | cons front words =>
            rw [hp] at h ih
            rcases List.mem_cons.mp h with rfl | h
            · simp only [List.mem_cons, not_or]
              exact ⟨Ne.symm hc, ih List.mem_cons_self⟩
            · exact ih (List.mem_cons_of_mem _ h)

/-! ## Segments -/

theorem split_ne_nil (sep : Char) (text : String) : split sep text ≠ [] := by
  simp [split, pieces_ne_nil]

theorem not_mem_of_mem_split {sep : Char} {text segment : String} (h : segment ∈ split sep text) :
    sep ∉ segment.toList := by
  obtain ⟨word, hw, rfl⟩ := List.mem_map.mp h
  simpa using not_mem_of_mem_pieces hw

theorem split_of_not_mem {sep : Char} {text : String} (h : sep ∉ text.toList) :
    split sep text = [text] := by
  simp [split, pieces_of_not_mem h]

theorem intercalate_split (text : String) : "/".intercalate (split '/' text) = text := by
  apply String.toList_injective
  rw [String.toList_intercalate, split, List.map_map]
  have hmap : (pieces '/' text.toList).map (String.toList ∘ String.ofList) =
      pieces '/' text.toList := by
    simp [Function.comp_def]
  rw [hmap]
  exact intercalate_pieces '/' text.toList

theorem split_intercalate {segments : List String} (hne : segments ≠ [])
    (h : ∀ s ∈ segments, '/' ∉ s.toList) : split '/' ("/".intercalate segments) = segments := by
  rw [split, String.toList_intercalate, pieces_eq_splitOn]
  have hslash : "/".toList = ['/'] := rfl
  rw [hslash, List.splitOn_intercalate '/' (by simpa using h) (by simpa using hne), List.map_map]
  simp [Function.comp_def]

theorem split_injective : Function.Injective (split '/') := fun a b h => by
  rw [← intercalate_split a, h, intercalate_split]

theorem split_append (front rest : String) :
    split '/' (front ++ "/" ++ rest) = split '/' front ++ split '/' rest := by
  have hslash : "/".toList = ['/'] := rfl
  simp [split, String.toList_append, hslash, List.append_assoc, pieces_append_cons]

/-! ## Beginnings of texts -/

theorem stripStart?_append (start rest : List Char) : stripStart? start (start ++ rest) = some rest :=
  stripStart?_eq_some_iff.mpr rfl

/-! ## Cutting -/

theorem cut?_of_not_mem {sep : Char} {text : List Char} (h : sep ∉ text) :
    cut? sep text = none := by
  induction text with
  | nil => rfl
  | cons c text ih =>
      simp only [List.mem_cons, not_or] at h
      simp [cut?, Ne.symm h.1, ih h.2]

theorem cut?_append {sep : Char} {front : List Char} (h : sep ∉ front) (rest : List Char) :
    cut? sep (front ++ sep :: rest) = some (front, rest) := by
  induction front with
  | nil => simp [cut?]
  | cons c front ih =>
      simp only [List.mem_cons, not_or] at h
      simp [cut?, Ne.symm h.1, ih h.2]

theorem cutLast?_append {sep : Char} {rest : List Char} (h : sep ∉ rest) (front : List Char) :
    cutLast? sep (front ++ sep :: rest) = some (front, rest) := by
  rw [cutLast?, List.reverse_append, List.reverse_cons, List.append_assoc, List.singleton_append,
    cut?_append (by simpa using h)]
  simp

theorem cut?_eq_none_iff {sep : Char} {text : List Char} : cut? sep text = none ↔ sep ∉ text := by
  induction text with
  | nil => simp [cut?]
  | cons c text ih =>
      by_cases hc : c = sep
      · simp [cut?, hc]
      · simp [cut?, hc, Ne.symm hc, ih]

theorem cut?_eq_some_iff {sep : Char} {text front rest : List Char} :
    cut? sep text = some (front, rest) ↔ sep ∉ front ∧ text = front ++ sep :: rest := by
  constructor
  · intro h
    induction text generalizing front with
    | nil => simp [cut?] at h
    | cons c text ih =>
        by_cases hc : c = sep
        · simp only [cut?, hc, if_true, Option.some.injEq, Prod.mk.injEq] at h
          obtain ⟨rfl, rfl⟩ := h
          simp [hc]
        · simp only [cut?, if_neg hc, Option.map_eq_some_iff, Prod.exists, Prod.mk.injEq] at h
          obtain ⟨front, rest', hcut, rfl, rfl⟩ := h
          obtain ⟨hn, rfl⟩ := ih hcut
          simp [hn, Ne.symm hc]
  · rintro ⟨hn, rfl⟩
    exact cut?_append hn rest

/-- What follows a text that is cut goes to the part after the cut. -/
theorem cut?_append_of_some {sep : Char} {text front rest : List Char}
    (h : cut? sep text = some (front, rest)) (more : List Char) :
    cut? sep (text ++ more) = some (front, rest ++ more) := by
  obtain ⟨hn, rfl⟩ := cut?_eq_some_iff.mp h
  rw [List.append_assoc, List.cons_append, cut?_append hn]

/-- The part in front of a cut is the first piece, and never the last one. -/
theorem dropLast_pieces_of_cut {sep : Char} {text front behind : List Char}
    (h : cut? sep text = some (front, behind)) :
    (pieces sep text).dropLast = front :: (pieces sep behind).dropLast := by
  obtain ⟨hfront, rfl⟩ := cut?_eq_some_iff.mp h
  rw [pieces_append_cons, pieces_of_not_mem hfront, List.singleton_append,
    List.dropLast_cons_of_ne_nil (pieces_ne_nil sep behind)]

end VendorBundle.Text
