/-!
# Cutting text at a character

Splitting keeps empty pieces, so joining the pieces with the separator restores the text.
-/

namespace VendorBundle.Text

/-- The pieces between the occurrences of `sep`; there is always at least one. -/
def pieces (sep : Char) : List Char → List (List Char)
  | [] => [[]]
  | c :: rest =>
      if c = sep then [] :: pieces sep rest
      else match pieces sep rest with
        | [] => [[c]]
        | word :: words => (c :: word) :: words

/-- The pieces of a text between the occurrences of `sep`. -/
def split (sep : Char) (text : String) : List String :=
  (pieces sep text.toList).map String.ofList

/-- The text before the first `sep` and the text after it. -/
def cut? (sep : Char) : List Char → Option (List Char × List Char)
  | [] => none
  | c :: rest =>
      if c = sep then some ([], rest)
      else (cut? sep rest).map (fun p => (c :: p.1, p.2))

/-- The text before the last `sep` and the text after it. -/
def cutLast? (sep : Char) (text : List Char) : Option (List Char × List Char) :=
  (cut? sep text.reverse).map (fun p => (p.2.reverse, p.1.reverse))

/-- What follows `start`, when `text` begins with it. -/
def stripStart? : (start text : List Char) → Option (List Char)
  | [], text => some text
  | _ :: _, [] => none
  | c :: start, d :: text => if c = d then stripStart? start text else none

def startsWith (text start : String) : Bool :=
  (stripStart? start.toList text.toList).isSome

theorem pieces_ne_nil (sep : Char) (text : List Char) : pieces sep text ≠ [] := by
  cases text with
  | nil => simp [pieces]
  | cons c rest =>
      simp only [pieces]
      split
      · simp
      · split <;> simp

theorem intercalate_pieces (sep : Char) (text : List Char) :
    [sep].intercalate (pieces sep text) = text := by
  induction text with
  | nil => rfl
  | cons c rest ih =>
      simp only [pieces]
      cases hp : pieces sep rest with
      | nil => exact absurd hp (pieces_ne_nil sep rest)
      | cons word words =>
          rw [hp] at ih
          split
          · rename_i h
            subst h
            simp [List.intercalate_cons_cons, ih]
          · cases words with
            | nil => simpa using ih
            | cons w ws => simpa [List.intercalate_cons_cons] using ih

theorem stripStart?_eq_some_iff {start text rest : List Char} :
    stripStart? start text = some rest ↔ text = start ++ rest := by
  induction start generalizing text with
  | nil => simp [stripStart?, eq_comm]
  | cons c start ih =>
      cases text with
      | nil => simp [stripStart?]
      | cons d text =>
          by_cases h : c = d
          · simp [stripStart?, h, ih]
          · simp [stripStart?, h, Ne.symm h]

end VendorBundle.Text
