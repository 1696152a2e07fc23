import VendorBundle.Script.Lexer

/-!
# How a text is read in pieces

The pieces of a text follow each other with nothing but blanks between them. A comment is never read
as anything else, since no token begins where a comment does, and only literals hold a slash behind
their first character.
-/

namespace VendorBundle.Script

theorem beginsComment_iff {text : List Char} :
    beginsComment text ↔ ∃ rest, text = '/' :: '/' :: rest ∨ text = '/' :: '*' :: rest := by
  unfold beginsComment
  split
  · simp
  · simp
  · rename_i hline hblock
    simp only [Bool.false_eq_true, false_iff, not_exists, not_or]
    exact fun rest => ⟨hline rest, hblock rest⟩

theorem not_beginsComment_nil : ¬ beginsComment [] := Bool.false_ne_true

/-! ## Pieces -/

/-- The token stands at the front of the text. Only a literal holds a slash behind its first
character. -/
def Spells (text : List Char) (token : Token) (rest : List Char) : Prop :=
  ∃ front, text = front ++ rest ∧ (token.isLiteral ∨ '/' ∉ front.tail)

/-- What a piece has to be. -/
inductive Piece.IsGood : Piece → Prop
  | interpreter {line rest : List Char} (h : rest <:+ line) :
      IsGood ⟨.interpreter, '#' :: line, rest⟩
  | comment {start rest : List Char} (h : rest <:+ start) (hlt : rest.length < start.length) :
      IsGood ⟨.comment, start, rest⟩
  | token {token : Token} {start rest : List Char} (hs : Spells start token rest)
      (hn : ¬ beginsComment start) : IsGood ⟨.token token, start, rest⟩
  | jsxText {start rest : List Char} (h : rest <:+ start) :
      IsGood ⟨.token .jsxText, start, rest⟩

/-- The source is read up to the text in the given pieces, last one first. -/
inductive Reads (source : List Char) : List Piece → List Char → Prop
  | nil : Reads source [] source
  | blank {pieces : List Piece} {c : Char} {text : List Char} (h : Reads source pieces (c :: text))
      (hc : Lexer.isLineEnd c ∨ Lexer.isBlank c) : Reads source pieces text
  | piece {pieces : List Piece} {p : Piece} (h : Reads source pieces p.start) (hp : p.IsGood) :
      Reads source (p :: pieces) p.rest

namespace Lexer

/-! ## Blanks and comments -/

/-- Where a walk over blanks and comments is. -/
def Trivia.At (source : List Char) (pieces : List Piece) (text : List Char) : Trivia → Prop
  | between => Reads source pieces text
  | lineComment start | blockComment start =>
      Reads source pieces start ∧ text <:+ start ∧ text.length < start.length

theorem reads_comment {source start rest : List Char} {pieces : List Piece}
    (h : Reads source pieces start) (hs : rest <:+ start) (hlt : rest.length < start.length) :
    Reads source (⟨.comment, start, rest⟩ :: pieces) rest :=
  .piece (p := ⟨.comment, start, rest⟩) h (.comment hs hlt)

/-- A step of a walk that stays in a comment. -/
theorem Trivia.At.next {source start text : List Char} {pieces : List Piece} {c : Char}
    (h : Reads source pieces start ∧ (c :: text) <:+ start ∧ (c :: text).length < start.length) :
    Reads source pieces start ∧ text <:+ start ∧ text.length < start.length := by
  obtain ⟨hreads, hsuffix, hlt⟩ := h
  refine ⟨hreads, (List.suffix_cons c text).trans hsuffix, ?_⟩
  rw [List.length_cons] at hlt
  omega

/-- What a walk leaves has been read up to, and it begins no comment. -/
theorem reads_skip {source : List Char} (script : Bool) (trivia : Trivia) (newline : Bool)
    (pieces : List Piece) (text : List Char) (h : trivia.At source pieces text) :
    Reads source (skip script trivia newline pieces text).pieces
        (skip script trivia newline pieces text).rest ∧
      ¬ beginsComment (skip script trivia newline pieces text).rest ∧
      ((skip script trivia newline pieces text).closed = false →
        (skip script trivia newline pieces text).rest = []) := by
  fun_induction skip script trivia newline pieces text with
  | case1 => exact ⟨h, not_beginsComment_nil, nofun⟩
  | case2 newline pieces start =>
      exact ⟨reads_comment h.1 h.2.1 h.2.2, not_beginsComment_nil, nofun⟩
  | case3 newline pieces start =>
      exact ⟨reads_comment h.1 h.2.1 h.2.2, not_beginsComment_nil, fun _ => rfl⟩
  | case4 newline pieces start c rest hc ih =>
      exact ih (.blank (reads_comment h.1 h.2.1 h.2.2) (.inl hc))
  | case5 newline pieces start c rest hc ih => exact ih (Trivia.At.next h)
  | case6 newline pieces start rest ih =>
      obtain ⟨hreads, hsuffix, hlt⟩ := Trivia.At.next (Trivia.At.next h)
      exact ih (reads_comment hreads hsuffix hlt)
  | case7 newline pieces start c rest _ ih => exact ih (Trivia.At.next h)
  | case8 newline pieces rest ih =>
      exact ih ⟨h, (List.suffix_cons _ rest).trans (List.suffix_cons _ _),
        Nat.lt_succ_of_lt (Nat.lt_succ_self _)⟩
  | case9 newline pieces rest ih =>
      exact ih ⟨h, (List.suffix_cons _ rest).trans (List.suffix_cons _ _),
        Nat.lt_succ_of_lt (Nat.lt_succ_self _)⟩
  | case10 newline pieces c rest _ _ hc ih => exact ih (.blank h (.inl hc))
  | case11 newline pieces c rest _ _ _ hc ih => exact ih (.blank h (.inr hc))
  | case12 newline pieces c rest _ _ _ _ _ ih => exact ih ⟨h, List.suffix_cons c rest, by simp⟩
  | case13 newline pieces c rest _ _ _ _ _ _ ih => exact ih ⟨h, List.suffix_cons c rest, by simp⟩
  | case14 newline pieces c rest hline hblock =>
      refine ⟨h, ?_, nofun⟩
      rw [beginsComment_iff]
      rintro ⟨behind, heq | heq⟩
      · exact hline behind (List.cons.inj heq).1 (List.cons.inj heq).2
      · exact hblock behind (List.cons.inj heq).1 (List.cons.inj heq).2

/-! ## Codes, names and numbers -/

/-- Text is passed over that holds no slash. -/
def Passes (text rest : List Char) : Prop := ∃ front, text = front ++ rest ∧ '/' ∉ front

namespace Passes

variable {text mid rest : List Char}

theorem refl (text : List Char) : Passes text text := ⟨[], rfl, List.not_mem_nil⟩

theorem cons {c : Char} (hc : c ≠ '/') (h : Passes text rest) : Passes (c :: text) rest := by
  obtain ⟨front, rfl, hfront⟩ := h
  exact ⟨c :: front, rfl, by simp [hfront, Ne.symm hc]⟩

theorem trans (h : Passes text mid) (h' : Passes mid rest) : Passes text rest := by
  obtain ⟨front, rfl, hfront⟩ := h
  obtain ⟨front', rfl, hfront'⟩ := h'
  exact ⟨front ++ front', by simp, by simp [hfront, hfront']⟩

theorem suffix (h : Passes text rest) : rest <:+ text := by
  obtain ⟨front, rfl, -⟩ := h
  exact List.suffix_append front rest

/-- A token whose text holds no slash is spelled. -/
theorem spells (h : Passes text rest) (token : Token) : Spells text token rest := by
  obtain ⟨front, rfl, hfront⟩ := h
  exact ⟨front, rfl, .inr fun hmem => hfront (List.mem_of_mem_tail hmem)⟩

end Passes

theorem ne_slash_of_hexValue? {c : Char} {n : Nat} (h : hexValue? c = some n) : c ≠ '/' := by
  rintro rfl
  cases h

theorem passes_bracedCode {n m : Nat} {some? : Bool} {text rest : List Char}
    (h : bracedCode n some? text = some (m, rest)) : Passes text rest := by
  fun_induction bracedCode n some? text with
  | case1 n rest' =>
      obtain ⟨-, rfl⟩ : n = m ∧ rest' = rest := by simpa using h
      exact (Passes.refl rest').cons (by decide)
  | case2 => cases h
  | case3 n some? c text _ ih =>
      obtain ⟨d, hd, hrest⟩ := Option.bind_eq_some_iff.mp h
      obtain ⟨-, hrest⟩ := Option.ite_none_right_eq_some.mp hrest
      exact (ih d hrest).cons (ne_slash_of_hexValue? hd)
  | case4 => cases h

theorem passes_unicodeEscape {m : Nat} {text rest : List Char}
    (h : unicodeEscape text = some (m, rest)) : Passes text rest := by
  unfold unicodeEscape at h
  split at h
  · exact (passes_bracedCode h).cons (by decide)
  · simp only [Option.bind_eq_bind, Option.bind_eq_some_iff, Option.pure_def] at h
    obtain ⟨a, ha, b, hb, c, hc, d, hd, hrest⟩ := h
    obtain ⟨-, rfl⟩ := Prod.mk.inj (Option.some.inj hrest)
    exact ((((Passes.refl _).cons (ne_slash_of_hexValue? hd)).cons (ne_slash_of_hexValue? hc)).cons
      (ne_slash_of_hexValue? hb)).cons (ne_slash_of_hexValue? ha)
  · cases h

theorem ne_slash_of_isNamePart {c : Char} (h : isNamePart c) : c ≠ '/' := by
  rintro rfl
  revert h
  decide

theorem ne_slash_of_isNameStart {c : Char} (h : isNameStart c) : c ≠ '/' := by
  rintro rfl
  revert h
  decide

theorem passes_nameTail {fuel : Nat} {escaped escaped' : Bool} {done text rest : List Char}
    {name : String} (h : nameTail fuel escaped done text = some (name, escaped', rest)) :
    Passes text rest := by
  fun_induction nameTail fuel escaped done text with
  | case1 => cases h
  | case2 fuel escaped done text ih =>
      obtain ⟨⟨n, behind⟩, hn, hrest⟩ := Option.bind_eq_some_iff.mp h
      obtain ⟨-, hrest⟩ := Option.ite_none_right_eq_some.mp hrest
      exact (((passes_unicodeEscape hn).trans (ih n behind hrest)).cons (by decide)).cons (by decide)
  | case3 => cases h
  | case4 fuel escaped done c text _ _ hc ih => exact (ih h).cons (ne_slash_of_isNamePart hc)
  | case5 fuel escaped done c text =>
      obtain ⟨-, -, rfl⟩ : _ ∧ _ ∧ c :: text = rest := by simpa using h
      exact .refl _
  | case6 =>
      obtain ⟨-, -, rfl⟩ : _ ∧ _ ∧ [] = rest := by simpa using h
      exact .refl _

theorem passes_name {fuel : Nat} {escaped : Bool} {text rest : List Char} {n : String}
    (h : name fuel text = some (n, escaped, rest)) : Passes text rest := by
  unfold name at h
  split at h
  · obtain ⟨⟨n, behind⟩, hn, hrest⟩ := Option.bind_eq_some_iff.mp h
    obtain ⟨-, hrest⟩ := Option.ite_none_right_eq_some.mp hrest
    exact (((passes_unicodeEscape hn).trans (passes_nameTail hrest)).cons (by decide)).cons
      (by decide)
  · obtain ⟨hc, hrest⟩ := Option.ite_none_right_eq_some.mp h
    exact (passes_nameTail hrest).cons (ne_slash_of_isNameStart hc)
  · cases h

section

variable {isDigit : Char → Bool} {text rest : List Char}

theorem passes_digitsTail (hslash : isDigit '/' = false) (h : digitsTail isDigit text = some rest) :
    Passes text rest := by
  have hne : ∀ {c}, isDigit c → c ≠ '/' := by
    rintro c hc rfl
    rw [hslash] at hc
    cases hc
  fun_induction digitsTail isDigit text with
  | case1 c text hc ih => exact ((ih h).cons (hne hc)).cons (by decide)
  | case2 => cases h
  | case3 => cases h
  | case4 c text _ _ hc ih => exact (ih h).cons (hne hc)
  | case5 c text =>
      obtain rfl := Option.some.inj h
      exact .refl _
  | case6 =>
      obtain rfl := Option.some.inj h
      exact .refl _

theorem passes_digits (hslash : isDigit '/' = false) (h : digits isDigit text = some rest) :
    Passes text rest := by
  unfold digits at h
  split at h
  · obtain ⟨hc, hrest⟩ := Option.ite_none_right_eq_some.mp h
    refine (passes_digitsTail hslash hrest).cons ?_
    rintro rfl
    rw [hslash] at hc
    cases hc
  · cases h

theorem passes_exponent (h : exponent text = some rest) : Passes text rest := by
  unfold exponent at h
  split at h
  · rename_i e sign text
    split at h
    · rename_i he
      have hslash : e ≠ '/' := by
        rintro rfl
        revert he
        decide
      split at h
      · rename_i hsign
        refine ((passes_digits (by decide) h).cons ?_).cons hslash
        rintro rfl
        revert hsign
        decide
      · exact (passes_digits (by decide) h).cons hslash
    · obtain rfl := Option.some.inj h
      exact .refl _
  · split at h
    · cases h
    · obtain rfl := Option.some.inj h
      exact .refl _
  · obtain rfl := Option.some.inj h
    exact .refl _

theorem passes_fraction (h : fraction text = some rest) : Passes text rest := by
  unfold fraction at h
  split at h
  · rename_i c text
    split at h
    · rename_i hc
      obtain ⟨behind, hdigits, hexponent⟩ := Option.bind_eq_some_iff.mp h
      have hslash : c ≠ '/' := by
        rintro rfl
        revert hc
        decide
      exact (((passes_digitsTail (by decide) hdigits).trans (passes_exponent hexponent)).cons
        hslash).cons (by decide)
    · split at h
      · cases h
      · exact (passes_exponent h).cons (by decide)
  · obtain rfl := Option.some.inj h
    exact (Passes.refl []).cons (by decide)
  · exact passes_exponent h

theorem passes_withSuffix (text : List Char) : Passes text (withSuffix text).2 := by
  unfold withSuffix
  split
  · exact (Passes.refl _).cons (by decide)
  · exact .refl _

/-- A number in another base, after its mark. -/
theorem passes_map_withSuffix {big : Bool} (hslash : isDigit '/' = false)
    (h : (digits isDigit text).map withSuffix = some (big, rest)) : Passes text rest := by
  obtain ⟨behind, hdigits, hsuffix⟩ := Option.map_eq_some_iff.mp h
  have hpasses := passes_withSuffix behind
  rw [hsuffix] at hpasses
  exact (passes_digits hslash hdigits).trans hpasses

theorem passes_map_fraction {big big' : Bool}
    (h : (fraction text).map (big, ·) = some (big', rest)) : Passes text rest := by
  obtain ⟨behind, hfraction, hpair⟩ := Option.map_eq_some_iff.mp h
  obtain ⟨-, rfl⟩ := Prod.mk.inj hpair
  exact passes_fraction hfraction

theorem passes_dropWhile (hslash : isDigit '/' = false) (text : List Char) :
    Passes text (text.dropWhile isDigit) := by
  refine ⟨text.takeWhile isDigit, List.takeWhile_append_dropWhile.symm, fun hmem => ?_⟩
  have hdigit := List.all_eq_true.mp List.all_takeWhile _ hmem
  rw [hslash] at hdigit
  cases hdigit

theorem passes_afterZero {big : Bool} (h : afterZero text = some (big, rest)) :
    Passes text rest := by
  unfold afterZero at h
  split at h
  · rename_i c text
    -- In every branch but the last, the character is told by a test that a slash fails.
    have hne : ∀ {p : Char → Bool}, p '/' = false → p c → c ≠ '/' := by
      rintro p hslash hc rfl
      rw [hslash] at hc
      cases hc
    split at h
    · rename_i hc
      exact (passes_map_withSuffix (by decide) h).cons
        (hne (p := fun c => c == 'x' || c == 'X') rfl hc)
    split at h
    · rename_i hc
      exact (passes_map_withSuffix (by decide) h).cons
        (hne (p := fun c => c == 'o' || c == 'O') rfl hc)
    split at h
    · rename_i hc
      exact (passes_map_withSuffix (by decide) h).cons
        (hne (p := fun c => c == 'b' || c == 'B') rfl hc)
    split at h
    · have hrun : Passes (c :: text) ((c :: text).dropWhile Char.isDigit) :=
        passes_dropWhile (by decide) _
      simp only at h
      split at h
      · cases h
      split at h
      · obtain ⟨-, rfl⟩ := Prod.mk.inj (Option.some.inj h)
        exact hrun
      · exact hrun.trans (passes_map_fraction h)
    split at h
    · cases h
    split at h
    · rename_i hc
      obtain ⟨-, rfl⟩ := Prod.mk.inj (Option.some.inj h)
      exact (Passes.refl text).cons (hne (p := fun c => c == 'n') rfl hc)
    · exact passes_map_fraction h
  · obtain ⟨-, rfl⟩ := Prod.mk.inj (Option.some.inj h)
    exact .refl _

theorem passes_numeral {big : Bool} (h : numeral text = some (big, rest)) :
    Passes text rest := by
  unfold numeral at h
  split at h
  · exact (passes_afterZero h).cons (by decide)
  · obtain ⟨behind, hbehind, hpair⟩ := Option.map_eq_some_iff.mp h
    obtain ⟨middle, hdigits, hexponent⟩ := Option.bind_eq_some_iff.mp hbehind
    obtain ⟨-, rfl⟩ := Prod.mk.inj hpair
    exact ((passes_digits (by decide) hdigits).trans (passes_exponent hexponent)).cons (by decide)
  · split at h
    · rename_i hdigits
      obtain ⟨-, rfl⟩ := Prod.mk.inj (Option.some.inj h)
      exact (passes_digits (by decide) hdigits).trans ((Passes.refl _).cons (by decide))
    · rename_i hdigits
      exact (passes_digits (by decide) hdigits).trans (passes_map_fraction h)
    · cases h

end

/-! ## Literals -/

section

variable {text rest : List Char}

theorem suffix_of_cons {c : Char} (h : rest <:+ text) : rest <:+ c :: text :=
  h.trans (List.suffix_cons c text)

theorem suffix_octalEscape (c : Char) (text : List Char) : (octalEscape c text).2 <:+ text := by
  unfold octalEscape
  split
  · split
    · split
      · dsimp only
        split
        · exact suffix_of_cons (List.suffix_cons _ _)
        · exact List.suffix_cons _ _
      · exact List.suffix_cons _ _
    · exact List.suffix_rfl
  · exact List.suffix_rfl

theorem suffix_hexEscape {n : Nat} (h : hexEscape text = some (n, rest)) : rest <:+ text := by
  unfold hexEscape at h
  split at h
  · obtain ⟨a, -, hb⟩ := Option.bind_eq_some_iff.mp h
    obtain ⟨b, -, hrest⟩ := Option.bind_eq_some_iff.mp hb
    obtain ⟨-, rfl⟩ := Prod.mk.inj (Option.some.inj hrest)
    exact suffix_of_cons (List.suffix_cons _ _)
  · cases h

theorem suffix_escape {octal : Bool} {codes : List Nat} (h : escape octal text = some (codes, rest)) :
    rest <:+ text := by
  unfold escape at h
  split at h
  case h_1 => cases h
  case h_8 =>
    obtain ⟨-, rfl⟩ := Prod.mk.inj (Option.some.inj h)
    exact suffix_of_cons (List.suffix_cons _ _)
  case h_9 =>
    obtain ⟨⟨n, behind⟩, hn, hpair⟩ := Option.map_eq_some_iff.mp h
    obtain ⟨-, rfl⟩ := Prod.mk.inj hpair
    exact suffix_of_cons (suffix_hexEscape hn)
  case h_10 =>
    obtain ⟨⟨n, behind⟩, hn, hpair⟩ := Option.map_eq_some_iff.mp h
    obtain ⟨-, rfl⟩ := Prod.mk.inj hpair
    exact suffix_of_cons (passes_unicodeEscape hn).suffix
  case h_11 c text _ _ _ _ _ _ _ _ _ =>
    split at h
    · obtain ⟨-, rfl⟩ := Prod.mk.inj (Option.some.inj h)
      exact List.suffix_cons _ _
    split at h
    · split at h
      · obtain ⟨-, rfl⟩ := Prod.mk.inj (Option.some.inj h)
        exact List.suffix_cons _ _
      split at h
      · cases h
      split at h
      · obtain ⟨-, rfl⟩ := Prod.mk.inj (Option.some.inj h)
        exact suffix_of_cons (suffix_octalEscape c text)
      · obtain ⟨-, rfl⟩ := Prod.mk.inj (Option.some.inj h)
        exact List.suffix_cons _ _
    · obtain ⟨-, rfl⟩ := Prod.mk.inj (Option.some.inj h)
      exact List.suffix_cons _ _
  all_goals
    obtain ⟨-, rfl⟩ := Prod.mk.inj (Option.some.inj h)
    exact List.suffix_cons _ _

theorem suffix_string {quote : Char} {fuel : Nat} {done : List Nat} {value : String}
    (h : string quote fuel done text = some (value, rest)) : rest <:+ text := by
  fun_induction string quote fuel done text with
  | case1 => cases h
  | case2 => cases h
  | case3 fuel done text ih =>
      obtain ⟨⟨codes, behind⟩, hescape, hrest⟩ := Option.bind_eq_some_iff.mp h
      exact suffix_of_cons ((ih codes behind hrest).trans (suffix_escape hescape))
  | case4 fuel done c text =>
      obtain ⟨-, rfl⟩ := Prod.mk.inj (Option.some.inj h)
      exact List.suffix_cons _ _
  | case5 => cases h
  | case6 fuel done c text _ _ _ ih => exact suffix_of_cons (ih h)

/-- A stretch of a template is a token of its own. -/
theorem template_spec {fuel : Nat} {done : Option (List Nat)} {token : Token}
    (h : template fuel done text = some (token, rest)) :
    rest <:+ text ∧ ∃ value more, token = .template value more := by
  fun_induction template fuel done text with
  | case1 => cases h
  | case2 => cases h
  | case3 =>
      obtain ⟨rfl, rfl⟩ := Prod.mk.inj (Option.some.inj h)
      exact ⟨List.suffix_cons _ _, _, _, rfl⟩
  | case4 =>
      obtain ⟨rfl, rfl⟩ := Prod.mk.inj (Option.some.inj h)
      exact ⟨suffix_of_cons (List.suffix_cons _ _), _, _, rfl⟩
  | case5 fuel done text ih =>
      obtain ⟨hsuffix, htoken⟩ := ih h
      exact ⟨suffix_of_cons (suffix_of_cons hsuffix), htoken⟩
  | case6 fuel done text _ ih =>
      obtain ⟨hsuffix, htoken⟩ := ih h
      exact ⟨suffix_of_cons hsuffix, htoken⟩
  | case7 fuel done text codes behind hescape ih =>
      rw [hescape] at h
      obtain ⟨hsuffix, htoken⟩ := ih h
      exact ⟨suffix_of_cons (hsuffix.trans (suffix_escape hescape)), htoken⟩
  | case8 fuel done text hescape ih =>
      rw [hescape] at h
      obtain ⟨hsuffix, htoken⟩ := ih h
      exact ⟨suffix_of_cons hsuffix, htoken⟩
  | case9 fuel done c text _ _ _ _ _ ih =>
      obtain ⟨hsuffix, htoken⟩ := ih h
      exact ⟨suffix_of_cons hsuffix, htoken⟩

theorem suffix_regexBody {inClass : Bool} (h : regexBody inClass text = some rest) :
    rest <:+ text := by
  fun_induction regexBody inClass text with
  | case1 => cases h
  | case2 => cases h
  | case3 inClass c text _ ih => exact suffix_of_cons (suffix_of_cons (ih h))
  | case4 => cases h
  | case5 =>
      obtain rfl := Option.some.inj h
      exact List.suffix_cons _ _
  | case6 inClass c text _ _ _ _ ih => exact suffix_of_cons (ih h)
  | case7 inClass c text _ _ _ _ _ ih => exact suffix_of_cons (ih h)
  | case8 inClass c text _ _ _ _ _ ih => exact suffix_of_cons (ih h)

theorem spells_of_suffix {token : Token} (h : rest <:+ text) (ht : token.isLiteral) :
    Spells text token rest := by
  obtain ⟨front, rfl⟩ := h
  exact ⟨front, rfl, .inl ht⟩

theorem spells_regex {token : Token} (h : regexLiteral text = some (token, rest)) :
    Spells text token rest ∧ token ≠ .done := by
  obtain ⟨behind, hbody, hrest⟩ := Option.bind_eq_some_iff.mp h
  obtain ⟨-, hrest⟩ := Option.ite_none_right_eq_some.mp hrest
  obtain ⟨rfl, rfl⟩ := Prod.mk.inj (Option.some.inj hrest)
  refine ⟨spells_of_suffix ?_ rfl, Token.noConfusion⟩
  exact (List.dropWhile_suffix _).trans ((suffix_regexBody hbody).trans (List.drop_suffix 1 text))

theorem spells_templateRest {token : Token} (h : templateRest text = some (token, rest)) :
    Spells text token rest ∧ token ≠ .done := by
  unfold templateRest at h
  split at h
  · obtain ⟨hsuffix, value, more, rfl⟩ := template_spec h
    exact ⟨spells_of_suffix (suffix_of_cons hsuffix) rfl, Token.noConfusion⟩
  · cases h

/-! ## Punctuation -/

theorem strip?_eq_some {start text rest : List Char} (h : strip? start text = some rest) :
    text = start ++ rest := by
  fun_induction strip? start text with
  | case1 => exact Option.some.inj h
  | case2 => cases h
  | case3 c start d text hc ih => rw [ih h, eq_of_beq hc, List.cons_append]
  | case4 => cases h

/-- No mark holds a slash behind its first character. -/
theorem spells_firstMark {token : Token} {marks : List (List Char)}
    (hmarks : ∀ mark ∈ marks, '/' ∉ mark.tail) (h : firstMark text marks = some (token, rest)) :
    Spells text token rest ∧ token ≠ .done := by
  induction marks with
  | nil => cases h
  | cons mark marks ih =>
      obtain ⟨hmark, hmarks⟩ := List.forall_mem_cons.mp hmarks
      rw [firstMark] at h
      split at h
      · rename_i behind hstrip
        obtain ⟨rfl, rfl⟩ := Prod.mk.inj (Option.some.inj h)
        exact ⟨⟨mark, strip?_eq_some hstrip, .inr hmark⟩, Token.noConfusion⟩
      · exact ih hmarks h

theorem spells_punctuation {token : Token} (h : punctuation text = some (token, rest)) :
    Spells text token rest ∧ token ≠ .done := by
  unfold punctuation at h
  split at h
  · split at h
    · obtain ⟨rfl, rfl⟩ := Prod.mk.inj (Option.some.inj h)
      exact ⟨⟨['?'], rfl, .inr (by decide)⟩, Token.noConfusion⟩
    · obtain ⟨rfl, rfl⟩ := Prod.mk.inj (Option.some.inj h)
      exact ⟨⟨['?', '.'], rfl, .inr (by decide)⟩, Token.noConfusion⟩
  · exact spells_firstMark (by decide) h

theorem spells_closingAngles {token : Token} (h : closingAngles text = some (token, rest)) :
    Spells text token rest ∧ token ≠ .done :=
  spells_firstMark (by decide) h

theorem spells_openingAngle {token : Token} (h : openingAngle text = some (token, rest)) :
    Spells text token rest ∧ token ≠ .done := by
  unfold openingAngle at h
  split at h
  · obtain ⟨rfl, rfl⟩ := Prod.mk.inj (Option.some.inj h)
    exact ⟨⟨['<'], rfl, .inr (by decide)⟩, Token.noConfusion⟩
  · cases h

/-! ## Tokens -/

theorem spells_number {token : Token} (h : number text = some (token, rest)) :
    Spells text token rest ∧ token ≠ .done := by
  obtain ⟨⟨big, behind⟩, hnumeral, hrest⟩ := Option.bind_eq_some_iff.mp h
  obtain ⟨-, hrest⟩ := Option.ite_none_left_eq_some.mp hrest
  obtain ⟨rfl, rfl⟩ := Prod.mk.inj (Option.some.inj hrest)
  refine ⟨(passes_numeral hnumeral).spells _, ?_⟩
  cases big <;> exact Token.noConfusion

theorem spells_token? {c : Char} {token : Token} (h : token? c text = some (token, rest)) :
    Spells (c :: text) token rest ∧ token ≠ .done := by
  unfold token? at h
  split at h
  · obtain ⟨⟨n, escaped, behind⟩, hname, hpair⟩ := Option.map_eq_some_iff.mp h
    obtain ⟨rfl, rfl⟩ := Prod.mk.inj hpair
    exact ⟨(passes_name hname).spells _, Token.noConfusion⟩
  split at h
  · exact spells_number h
  split at h
  · obtain ⟨⟨value, behind⟩, hstring, hpair⟩ := Option.map_eq_some_iff.mp h
    obtain ⟨rfl, rfl⟩ := Prod.mk.inj hpair
    exact ⟨spells_of_suffix (suffix_of_cons (suffix_string hstring)) rfl, Token.noConfusion⟩
  split at h
  · obtain ⟨hsuffix, value, more, rfl⟩ := template_spec h
    exact ⟨spells_of_suffix (suffix_of_cons hsuffix) rfl, Token.noConfusion⟩
  split at h
  · rename_i hmark
    obtain ⟨⟨n, escaped, behind⟩, hname, hpair⟩ := Option.map_eq_some_iff.mp h
    obtain ⟨rfl, rfl⟩ := Prod.mk.inj hpair
    have hc : c ≠ '/' := by
      rintro rfl
      revert hmark
      decide
    exact ⟨((passes_name hname).cons hc).spells _, Token.noConfusion⟩
  · exact spells_punctuation h

/-- The token at the front of a text stands there, and only the empty text has none. -/
theorem token_spec (text : List Char) :
    Spells text (token text).1 (token text).2 ∧ ((token text).1 = .done → text = []) := by
  cases text with
  | nil => exact ⟨⟨[], rfl, .inr List.not_mem_nil⟩, fun _ => rfl⟩
  | cons c text =>
      rw [token]
      cases htoken : token? c text with
      | none => exact ⟨⟨[], rfl, .inr List.not_mem_nil⟩, Token.noConfusion⟩
      | some read =>
          obtain ⟨token, rest⟩ := read
          obtain ⟨hspells, hne⟩ := spells_token? htoken
          exact ⟨hspells, fun hdone => absurd hdone hne⟩

/-! ## Openings -/

/-- A byte order mark is a blank. -/
theorem reads_withoutOrderMark (text : List Char) : Reads text [] (withoutOrderMark text) := by
  unfold withoutOrderMark
  split
  · exact .blank .nil (.inr (by decide))
  · exact .nil

theorem reads_opening (text : List Char) : Reads text (opening text).1 (opening text).2 := by
  have hreads := reads_withoutOrderMark text
  unfold opening
  split
  · rename_i line hline
    rw [hline] at hreads
    have hsuffix : line.dropWhile (!isLineEnd ·) <:+ '!' :: line :=
      suffix_of_cons (List.dropWhile_suffix _)
    exact .piece (p := ⟨.interpreter, _, _⟩) hreads (.interpreter hsuffix)
  · exact hreads

end

end Lexer

end VendorBundle.Script
