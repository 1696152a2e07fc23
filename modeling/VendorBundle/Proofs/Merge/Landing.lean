import VendorBundle.Proofs.Merge.Splice
import VendorBundle.Proofs.Script.Pieces

/-!
# Where fragments go in a program

Where a program is cut is told by its text alone. The cut is at a comment or at the end of the
program, unless a literal or another comment ends like a source map comment: then it is inside that
piece.
-/

namespace VendorBundle

open Script (Language Reading Piece Begins read? parse? beginsComment)

namespace Splice

theorem Trailer.beginsComment {back : List Char} (h : Trailer back) : beginsComment back := by
  cases h <;> rfl

theorem Parted.suffix {text head tail : List Char} (h : Parted text head tail) : tail <:+ text :=
  ⟨head, h.whole.symm⟩

/-- Fragments go between the two parts of a text. -/
theorem exists_splice (text : String) (fragments : List String) (separator : String) :
    ∃ head tail, Parted text.toList head tail ∧
      splice text fragments separator = String.ofList head ++
        (separated separator fragments ++ if tail = [] then "" else "\n") ++ String.ofList tail := by
  obtain ⟨head, tail, hparted, htail⟩ := exists_parted text.toList
  refine ⟨head, tail, hparted, ?_⟩
  have hwhole : text = String.ofList head ++ String.ofList tail := by
    rw [← String.ofList_append, ← hparted.whole, String.ofList_toList]
  rw [splice, htail]
  by_cases hnil : tail = []
  · subst hnil
    simp [hwhole]
  · simp [hparted.whole, hnil, String.append_assoc]

/-- The part of a program that fragments go in front of is empty or begins with a comment of the
program, exactly when it does not begin inside a piece. So with no source map comment at its end, a
program is gone on with exactly when no piece holds such an end. -/
theorem splice_beside_comments {language : Language} {source : String} {reading : Reading}
    (h : read? language source = some reading) (fragments : List String) (separator : String) :
    ∃ head tail, Parted source.toList head tail ∧
      splice source fragments separator = String.ofList head ++
        (separated separator fragments ++ if tail = [] then "" else "\n") ++ String.ofList tail ∧
      (tail = [] ∨ Begins reading.pieces tail ↔ ∀ p ∈ reading.pieces, ¬ p.Holds tail) ∧
      ((∀ p ∈ reading.pieces, p.kind = .comment → ¬ Trailer p.start) →
        (tail = [] ↔ ∀ p ∈ reading.pieces, ¬ p.Holds tail)) := by
  obtain ⟨head, tail, hparted, hsplice⟩ := exists_splice source fragments separator
  have hbeside : tail = [] ∨ Begins reading.pieces tail ↔ ∀ p ∈ reading.pieces, ¬ p.Holds tail := by
    rcases hparted.trailer with rfl | htrailer
    · simp only [true_or, true_iff]
      intro p _ hholds
      exact absurd hholds.reaches (Nat.not_lt_zero _)
    · rw [or_iff_right htrailer.ne_nil]
      exact Script.begins_iff_not_holds h hparted.suffix htrailer.beginsComment
  refine ⟨head, tail, hparted, hsplice, hbeside, fun hnone => ?_⟩
  rw [← hbeside, iff_self_or]
  rintro ⟨p, hp, hkind, rfl⟩
  exact hparted.trailer.resolve_right (hnone p hp hkind)

instance (text : List Char) : Decidable (Trailer text) := decidable_of_iff _ isTail_iff

/-- The search finds the end in front of which a text parts. -/
theorem Parted.tail_eq {text head tail : List Char} (h : Parted text head tail) :
    tail = (tail? text).getD [] := by
  obtain ⟨head', tail', hparted, htail⟩ := exists_parted text
  obtain ⟨-, rfl⟩ := h.unique hparted
  rw [htail]
  split
  · assumption
  · rfl

namespace Bundled

/-- In the bundle a string looks like a source map comment. -/
def quoted : String := "var s = \"//# sourceMappingURL=x\""

/-- The string and all behind it. -/
def inString : List Char := "//# sourceMappingURL=x\"".toList

/-- The bundle goes on with another statement. -/
def followed : String := quoted ++ ";\nf()"

/-- The bundle has a source map of its own. -/
def mapped : String := quoted ++ ";\n//# sourceMappingURL=y"

def comment : List Char := "//# sourceMappingURL=y".toList

/-- No piece holds an end that is like a source map comment. -/
def Clear (pieces : List Piece) : Prop :=
  ∀ p ∈ pieces, ∀ back ∈ p.start.tails, Trailer back → ¬ p.Holds back

instance (pieces : List Piece) : Decidable (Clear pieces) :=
  inferInstanceAs (Decidable (∀ p ∈ pieces, ∀ back ∈ p.start.tails, Trailer back → ¬ p.Holds back))

theorem Clear.not_holds {pieces : List Piece} {text head tail : List Char} (h : Clear pieces)
    (hparted : Parted text head tail) : ∀ p ∈ pieces, ¬ p.Holds tail := by
  intro p hp hholds
  rcases hparted.trailer with rfl | htrailer
  · exact absurd hholds.reaches (Nat.not_lt_zero _)
  · exact h p hp tail ((List.mem_tails _ _).mpr hholds.within) htrailer hholds

theorem beside_comments :
    (∃ reading head, read? {} followed = some reading ∧ Parted followed.toList head [] ∧
      splice followed ["b"] ";\n" = followed ++ ";\nb") ∧
    ∃ reading head, read? {} mapped = some reading ∧ Parted mapped.toList head comment ∧
      Begins reading.pieces comment ∧
      splice mapped ["b"] ";\n" = quoted ++ ";\n" ++ ";\nb" ++ "\n//# sourceMappingURL=y" := by
  constructor
  · have hread : (read? {} followed).any (fun r => decide (Clear r.pieces ∧
        ∀ p ∈ r.pieces, p.kind ≠ .comment)) = true := by decide +kernel
    obtain ⟨reading, hread, hgood⟩ := (Option.any_eq_true _ _).mp hread
    obtain ⟨hclear, hcomment⟩ := of_decide_eq_true hgood
    obtain ⟨head, tail, hparted, -, -, hend⟩ := splice_beside_comments hread ["b"] ";\n"
    obtain rfl : tail = [] :=
      (hend fun p hp hkind => absurd hkind (hcomment p hp)).mpr (hclear.not_holds hparted)
    exact ⟨reading, head, hread, hparted, by decide +kernel⟩
  · have hread : (read? {} mapped).any (fun r => decide (Clear r.pieces)) = true := by
      decide +kernel
    obtain ⟨reading, hread, hgood⟩ := (Option.any_eq_true _ _).mp hread
    obtain ⟨head, tail, hparted, -, hbeside, -⟩ := splice_beside_comments hread ["b"] ";\n"
    obtain rfl : tail = comment := hparted.tail_eq.trans (by decide +kernel)
    have hbegins := hbeside.mpr ((of_decide_eq_true hgood).not_holds hparted)
    exact ⟨reading, head, hread, hparted, hbegins.resolve_left (by decide), by decide +kernel⟩

/-- The program has no comment, and the string at its end is taken for one. The fragment lands in
the string, and what comes of it is no program. -/
theorem lands_in_string :
    ∃ reading head, read? {} quoted = some reading ∧ (∀ p ∈ reading.pieces, p.kind ≠ .comment) ∧
      Parted quoted.toList head inString ∧
      (∃ p ∈ reading.pieces,
        p.kind = .token (.string "//# sourceMappingURL=x") ∧ p.Holds inString) ∧
      splice quoted ["b"] ";\n" = "var s = \";\nb\n//# sourceMappingURL=x\"" ∧
      parse? {} (splice quoted ["b"] ";\n") = none := by
  have hread : (read? {} quoted).any (fun r => decide ((∀ p ∈ r.pieces, p.kind ≠ .comment) ∧
      ∃ p ∈ r.pieces, p.kind = .token (.string "//# sourceMappingURL=x") ∧
        p.Holds inString)) = true := by decide +kernel
  obtain ⟨reading, hread, hgood⟩ := (Option.any_eq_true _ _).mp hread
  obtain ⟨hcomment, hstring⟩ := of_decide_eq_true hgood
  obtain ⟨head, tail, hparted, -⟩ := exists_parted quoted.toList
  obtain rfl : tail = inString := hparted.tail_eq.trans (by decide +kernel)
  exact ⟨reading, head, hread, hcomment, hparted, hstring, by decide +kernel, by decide +kernel⟩

end Bundled

end Splice

end VendorBundle
