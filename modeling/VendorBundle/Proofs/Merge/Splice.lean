import Mathlib.Data.List.Infix
import Mathlib.Data.List.TakeWhile
import VendorBundle.Merge.Splice
import VendorBundle.Proofs.Text.Pattern

/-!
# Where fragments go

A text has at most one longest end that is a source map comment and white space. Fragments go in
front of that end, or behind the text when there is none, and nothing else of the text changes. What
such an end looks like is told by a grammar, and a regular pattern matches the same texts.
-/

namespace VendorBundle

namespace Splice

open scoped Computability

/-! ## Source map comments -/

/-- An optional mark, blanks and the keyword of a source map. -/
def Introduces (label : List Char) : Prop :=
  ∃ mark blanks : List Char, label = mark ++ blanks ++ "sourceMappingURL=".toList ∧
    (mark = [] ∨ mark = ['#'] ∨ mark = ['@']) ∧ ∀ c ∈ blanks, c = ' ' ∨ c = '\t'

/-- One source map comment and white space behind it. -/
inductive Trailer : List Char → Prop
  /-- A comment that runs to the end of its line. -/
  | line {label line rest : List Char} (hlabel : Introduces label)
      (hline : ∀ c ∈ line, c ≠ '\r' ∧ c ≠ '\n')
      (hend : ∀ c ∈ rest.head?, c = '\r' ∨ c = '\n') (hrest : ∀ c ∈ rest, Text.isSpace c) :
      Trailer ('/' :: '/' :: (label ++ (line ++ rest)))
  /-- A comment that runs to the first end of a block. -/
  | block {label body rest : List Char} (hlabel : Introduces label)
      (hbody : ¬ ['*', '/'] <:+: body ++ ['*']) (hrest : ∀ c ∈ rest, Text.isSpace c) :
      Trailer ('/' :: '*' :: (label ++ (body ++ '*' :: '/' :: rest)))

/-- The text parts into its longest end that is a source map comment and white space, and what
stands in front of it. -/
structure Parted (text head tail : List Char) : Prop where
  whole : text = head ++ tail
  trailer : tail = [] ∨ Trailer tail
  longest : ∀ back, back <:+ text → Trailer back → back.length ≤ tail.length

/-! ## The parts of a comment -/

theorem afterKeyword?_of_unmarked {text : List Char} (hhash : text.head? ≠ some '#')
    (hat : text.head? ≠ some '@') :
    afterKeyword? text = Text.stripStart? "sourceMappingURL=".toList
      (text.dropWhile fun c => c == ' ' || c == '\t') := by
  unfold afterKeyword?
  split
  · exact absurd rfl hhash
  · exact absurd rfl hat
  · rfl

theorem stripStart?_dropWhile_eq_some_iff {text rest : List Char} :
    Text.stripStart? "sourceMappingURL=".toList
        (text.dropWhile fun c => c == ' ' || c == '\t') = some rest ↔
      ∃ blanks : List Char, (∀ c ∈ blanks, c = ' ' ∨ c = '\t') ∧
        text = blanks ++ ("sourceMappingURL=".toList ++ rest) := by
  rw [Text.stripStart?_eq_some_iff]
  constructor
  · intro h
    refine ⟨text.takeWhile fun c => c == ' ' || c == '\t', fun c hc => ?_, ?_⟩
    · simpa using List.mem_takeWhile_imp hc
    · rw [← h, List.takeWhile_append_dropWhile]
  · rintro ⟨blanks, hblanks, rfl⟩
    rw [List.dropWhile_append_of_pos (by simpa using hblanks)]
    rfl

theorem head?_ne_mark {blanks rest : List Char} (h : ∀ c ∈ blanks, c = ' ' ∨ c = '\t') {mark : Char}
    (hm : mark = '#' ∨ mark = '@') :
    (blanks ++ ("sourceMappingURL=".toList ++ rest)).head? ≠ some mark := by
  cases blanks with
  | nil =>
      have hkeyword : "sourceMappingURL=".toList = 's' :: "ourceMappingURL=".toList := rfl
      rcases hm with rfl | rfl <;> simp [hkeyword]
  | cons c blanks =>
      rcases hm with rfl | rfl <;> rcases h c List.mem_cons_self with rfl | rfl <;> simp

theorem afterKeyword?_eq_some_iff {text rest : List Char} :
    afterKeyword? text = some rest ↔ ∃ label, Introduces label ∧ text = label ++ rest := by
  constructor
  · intro h
    unfold afterKeyword? at h
    split at h <;> obtain ⟨blanks, hblanks, rfl⟩ := stripStart?_dropWhile_eq_some_iff.mp h
    · exact ⟨_, ⟨['#'], blanks, rfl, by simp, hblanks⟩, by simp⟩
    · exact ⟨_, ⟨['@'], blanks, rfl, by simp, hblanks⟩, by simp⟩
    · exact ⟨_, ⟨[], blanks, rfl, by simp, hblanks⟩, by simp⟩
  · rintro ⟨label, ⟨mark, blanks, rfl, hmark, hblanks⟩, rfl⟩
    have hstrip : Text.stripStart? "sourceMappingURL=".toList
        ((blanks ++ ("sourceMappingURL=".toList ++ rest)).dropWhile
          fun c => c == ' ' || c == '\t') = some rest :=
      stripStart?_dropWhile_eq_some_iff.mpr ⟨blanks, hblanks, rfl⟩
    rcases hmark with rfl | rfl | rfl
    · rwa [List.nil_append, List.append_assoc,
        afterKeyword?_of_unmarked (head?_ne_mark hblanks (.inl rfl))
          (head?_ne_mark hblanks (.inr rfl))]
    · simpa [afterKeyword?] using hstrip
    · simpa [afterKeyword?] using hstrip

theorem afterKeyword?_append {label : List Char} (h : Introduces label) (rest : List Char) :
    afterKeyword? (label ++ rest) = some rest := afterKeyword?_eq_some_iff.mpr ⟨label, h, rfl⟩

theorem afterBlock?_eq_some_iff {text rest : List Char} :
    afterBlock? text = some rest ↔
      ∃ body, ¬ ['*', '/'] <:+: body ++ ['*'] ∧ text = body ++ '*' :: '/' :: rest := by
  fun_induction afterBlock? text with
  | case1 behind =>
      constructor
      · rintro ⟨⟩
        exact ⟨[], by decide, rfl⟩
      · rintro ⟨body, hbody, heq⟩
        match body, hbody, heq with
        | [], _, heq => simpa using heq
        | [c], _, heq => simp at heq
        | c :: d :: body, hbody, heq =>
            obtain ⟨rfl, rfl, -⟩ : '*' = c ∧ '/' = d ∧ _ := by simpa using heq
            exact absurd ⟨[], body ++ ['*'], by simp⟩ hbody
  | case2 c text hne ih =>
      rw [ih]
      constructor
      · rintro ⟨body, hbody, rfl⟩
        refine ⟨c :: body, fun hin => ?_, rfl⟩
        rcases List.infix_cons_iff.mp hin with hpre | hin
        · obtain ⟨rfl, hpre⟩ := List.cons_prefix_cons.mp hpre
          cases body with
          | nil => simp at hpre
          | cons d body =>
              obtain rfl : '/' = d := by simpa using hpre
              exact hne _ rfl rfl
        · exact hbody hin
      · rintro ⟨body, hbody, heq⟩
        cases body with
        | nil =>
            obtain ⟨rfl, rfl⟩ := List.cons.inj heq
            exact absurd rfl (hne rest rfl)
        | cons d body =>
            obtain ⟨rfl, rfl⟩ := List.cons.inj heq
            exact ⟨body, fun hin => hbody (List.infix_cons_iff.mpr (.inr hin)), rfl⟩
  | case3 => simp

theorem afterLine_eq_iff {text rest : List Char} :
    afterLine text = rest ↔ ∃ line : List Char, (∀ c ∈ line, c ≠ '\r' ∧ c ≠ '\n') ∧
      (∀ c ∈ rest.head?, c = '\r' ∨ c = '\n') ∧ text = line ++ rest := by
  constructor
  · rintro rfl
    refine ⟨text.takeWhile fun c => c != '\r' && c != '\n', fun c hc => ?_, fun c hc => ?_, ?_⟩
    · simpa using List.mem_takeWhile_imp hc
    · have hstop := List.head?_dropWhile_not (fun c => c != '\r' && c != '\n') text
      simp only [afterLine, Option.mem_def] at hc
      rw [hc] at hstop
      simpa [or_iff_not_imp_left] using hstop
    · exact List.takeWhile_append_dropWhile.symm
  · rintro ⟨line, hline, hend, rfl⟩
    rw [afterLine, List.dropWhile_append_of_pos (by simpa using hline)]
    cases rest with
    | nil => rfl
    | cons c rest =>
        rcases hend c rfl with rfl | rfl <;> rfl

/-! ## The end of a text -/

theorem isTail_iff {text : List Char} : isTail text = true ↔ Trailer text := by
  simp only [isTail, Option.any_eq_true, List.all_eq_true]
  constructor
  · rintro ⟨rest, hafter, hrest⟩
    unfold afterComment? at hafter
    split at hafter
    · obtain ⟨inner, hkey, hblock⟩ := Option.bind_eq_some_iff.mp hafter
      obtain ⟨label, hlabel, rfl⟩ := afterKeyword?_eq_some_iff.mp hkey
      obtain ⟨body, hbody, rfl⟩ := afterBlock?_eq_some_iff.mp hblock
      exact .block hlabel hbody hrest
    · obtain ⟨inner, hkey, hfollows⟩ := Option.map_eq_some_iff.mp hafter
      obtain ⟨label, hlabel, rfl⟩ := afterKeyword?_eq_some_iff.mp hkey
      obtain ⟨line, hline, hend, rfl⟩ := afterLine_eq_iff.mp hfollows
      exact .line hlabel hline hend hrest
    · cases hafter
  · intro h
    cases h with
    | line hlabel hline hend hrest =>
        refine ⟨_, ?_, hrest⟩
        rw [afterComment?, afterKeyword?_append hlabel, Option.map_some,
          afterLine_eq_iff.mpr ⟨_, hline, hend, rfl⟩]
    | block hlabel hbody hrest =>
        refine ⟨_, ?_, hrest⟩
        rw [afterComment?, afterKeyword?_append hlabel, Option.bind_some,
          afterBlock?_eq_some_iff.mpr ⟨_, hbody, rfl⟩]

theorem Trailer.ne_nil {text : List Char} (h : Trailer text) : text ≠ [] := by
  cases h <;> simp

/-- The search from the front finds the longest end. -/
theorem tail?_eq_some {text tail : List Char} (h : tail? text = some tail) :
    tail <:+ text ∧ Trailer tail ∧
      ∀ back, back <:+ text → Trailer back → back.length ≤ tail.length := by
  induction text with
  | nil => cases h
  | cons c text ih =>
      rw [tail?] at h
      split at h
      next htail =>
        obtain rfl := Option.some.inj h
        exact ⟨List.suffix_rfl, isTail_iff.mp htail, fun back hback _ => hback.length_le⟩
      next htail =>
        obtain ⟨hsuffix, htrailer, hlongest⟩ := ih h
        refine ⟨hsuffix.trans (List.suffix_cons c text), htrailer, fun back hback ht => ?_⟩
        rcases List.suffix_cons_iff.mp hback with rfl | hback
        · exact absurd (isTail_iff.mpr ht) htail
        · exact hlongest back hback ht

theorem not_trailer_of_tail?_eq_none {text back : List Char} (h : tail? text = none)
    (hback : back <:+ text) : ¬ Trailer back := by
  intro ht
  induction text with
  | nil => exact ht.ne_nil (List.suffix_nil.mp hback)
  | cons c text ih =>
      rw [tail?] at h
      split at h
      next => cases h
      next htail =>
        rcases List.suffix_cons_iff.mp hback with rfl | hback
        · exact htail (isTail_iff.mpr ht)
        · exact ih h hback

/-- A text parts in one way. -/
theorem Parted.unique {text head tail head' tail' : List Char} (h : Parted text head tail)
    (h' : Parted text head' tail') : head = head' ∧ tail = tail' := by
  have hle : ∀ {head tail head' tail' : List Char}, Parted text head tail →
      Parted text head' tail' → tail.length ≤ tail'.length := by
    intro head tail head' tail' h h'
    rcases h.trailer with rfl | ht
    · exact Nat.zero_le _
    · exact h'.longest tail ⟨head, h.whole.symm⟩ ht
  exact List.append_inj' (h.whole.symm.trans h'.whole) (Nat.le_antisymm (hle h h') (hle h' h))

/-! ## The pattern -/

open Text.Pattern

/-- What the pattern has for a mark, blanks and the keyword: `[#@]?[ \t]*sourceMappingURL=`. -/
def labelPattern : Language Char :=
  opt (one fun c => c = '#' ∨ c = '@') * (one fun c => c = ' ' ∨ c = '\t')∗ *
    word "sourceMappingURL=".toList

/-- What the pattern has for each further run of stars in a block: `[^/*][^*]*\*+`. -/
def roundPattern : Language Char :=
  (one fun c => c ≠ '/' ∧ c ≠ '*') * (one (· ≠ '*'))∗ * many (one (· = '*'))

/-- What the pattern has for a block up to the slash that ends it: `[^*]*\*+(?:[^/*][^*]*\*+)*`. -/
def bodyPattern : Language Char :=
  (one (· ≠ '*'))∗ * many (one (· = '*')) * roundPattern∗

/-- A block or a line with the label of a source map, and white space behind it. -/
def trailerPattern : Language Char :=
  (word "/*".toList * labelPattern * bodyPattern * one (· = '/') +
      word "//".toList * labelPattern * (one fun c => c ≠ '\r' ∧ c ≠ '\n')∗) *
    (one fun c => Text.isSpace c)∗

/-- What may follow a star of a block, up to the slash that ends the block. -/
def starPattern : Language Char := (one (· = '*'))∗ * roundPattern∗

theorem bodyPattern_eq : bodyPattern = (one (· ≠ '*'))∗ * (one (· = '*') * starPattern) := by
  simp only [bodyPattern, starPattern, many, mul_assoc]

theorem kstar_roundPattern :
    roundPattern∗ = 1 + (one fun c => c ≠ '/' ∧ c ≠ '*') * bodyPattern := by
  nth_rewrite 1 [← one_add_mul_kstar]
  rw [bodyPattern]
  nth_rewrite 1 [roundPattern]
  simp only [mul_assoc]

theorem nil_notMem_bodyPattern : [] ∉ bodyPattern := by
  rw [bodyPattern_eq, nil_mem_kstar_one_mul]
  exact nil_notMem_one_mul

theorem cons_mem_bodyPattern {c : Char} {text : List Char} : c :: text ∈ bodyPattern ↔
    (c ≠ '*' ∧ text ∈ bodyPattern) ∨ (c = '*' ∧ text ∈ starPattern) := by
  rw [bodyPattern_eq, cons_mem_kstar_one_mul, cons_mem_one_mul]

theorem nil_mem_starPattern : [] ∈ starPattern := by
  rw [starPattern, nil_mem_kstar_one_mul]
  exact Language.nil_mem_kstar _

theorem cons_mem_starPattern {c : Char} {text : List Char} : c :: text ∈ starPattern ↔
    (c = '*' ∧ text ∈ starPattern) ∨ ((c ≠ '/' ∧ c ≠ '*') ∧ text ∈ bodyPattern) := by
  rw [starPattern, cons_mem_kstar_one_mul, kstar_roundPattern, Language.mem_add, cons_mem_one_mul,
    Language.mem_one, or_iff_right (List.cons_ne_nil c text)]

/-- The text ends with a star and holds no end of a block. -/
def Unended (text : List Char) : Prop := text.getLast? = some '*' ∧ ¬ ['*', '/'] <:+: text

theorem unended_cons_of_ne {c : Char} {text : List Char} (h : c ≠ '*') :
    Unended (c :: text) ↔ Unended text := by
  have hin : ['*', '/'] <:+: c :: text ↔ ['*', '/'] <:+: text := by
    rw [List.infix_cons_iff, List.cons_prefix_cons]
    exact or_iff_right fun hp => h hp.1.symm
  rw [Unended, Unended, hin]
  cases text with
  | nil => simp [h]
  | cons d text => rw [List.getLast?_cons_cons]

theorem unended_star_cons {c : Char} {text : List Char} :
    Unended ('*' :: c :: text) ↔ c ≠ '/' ∧ Unended (c :: text) := by
  have hin : ['*', '/'] <:+: '*' :: c :: text ↔ c = '/' ∨ ['*', '/'] <:+: c :: text := by
    rw [List.infix_cons_iff, List.cons_prefix_cons, List.cons_prefix_cons]
    simp [eq_comm]
  rw [Unended, Unended, hin, List.getLast?_cons_cons]
  tauto

/-- A block goes on up to the first end of a block, told at once for what follows a star. -/
theorem mem_patterns_iff (text : List Char) :
    (text ∈ bodyPattern ↔ Unended text) ∧ (text ∈ starPattern ↔ Unended ('*' :: text)) := by
  induction text with
  | nil =>
      refine ⟨iff_of_false nil_notMem_bodyPattern ?_, iff_of_true nil_mem_starPattern ?_⟩
      · simp [Unended]
      · exact ⟨rfl, by decide⟩
  | cons c text ih =>
      obtain ⟨hbody, hstar⟩ := ih
      rw [cons_mem_bodyPattern, cons_mem_starPattern, unended_star_cons, hbody, hstar]
      by_cases hc : c = '*'
      · subst c
        simp
      · simp [hc, unended_cons_of_ne hc]

theorem mem_bodyPattern_iff {text : List Char} : text ∈ bodyPattern ↔
    ∃ body, ¬ ['*', '/'] <:+: body ++ ['*'] ∧ text = body ++ ['*'] := by
  rw [(mem_patterns_iff text).1, Unended, List.getLast?_eq_some_iff]
  constructor
  · rintro ⟨⟨body, rfl⟩, hbody⟩
    exact ⟨body, hbody, rfl⟩
  · rintro ⟨body, hbody, rfl⟩
    exact ⟨⟨body, rfl⟩, hbody⟩

theorem mem_labelPattern_iff {label : List Char} : label ∈ labelPattern ↔ Introduces label := by
  simp only [labelPattern, opt, Language.mem_mul, Language.mem_add, Language.mem_one,
    mem_kstar_one]
  constructor
  · rintro ⟨_, ⟨mark, hmark, blanks, hblanks, rfl⟩, _, rfl, rfl⟩
    refine ⟨mark, blanks, rfl, ?_, hblanks⟩
    rcases hmark with rfl | ⟨c, rfl, rfl | rfl⟩
    · exact .inl rfl
    · exact .inr (.inl rfl)
    · exact .inr (.inr rfl)
  · rintro ⟨mark, blanks, rfl, hmark, hblanks⟩
    refine ⟨_, ⟨mark, ?_, blanks, hblanks, rfl⟩, _, rfl, rfl⟩
    rcases hmark with rfl | rfl | rfl
    · exact .inl rfl
    · exact .inr ⟨'#', rfl, .inl rfl⟩
    · exact .inr ⟨'@', rfl, .inr rfl⟩

theorem mem_labelPattern_mul {text : List Char} {l : Language Char} : text ∈ labelPattern * l ↔
    ∃ label, Introduces label ∧ ∃ rest ∈ l, text = label ++ rest := by
  simp only [Language.mem_mul, mem_labelPattern_iff, eq_comm]

theorem mem_bodyPattern_mul {text : List Char} {l : Language Char} :
    text ∈ bodyPattern * (one (· = '/') * l) ↔
      ∃ body, ¬ ['*', '/'] <:+: body ++ ['*'] ∧ ∃ rest ∈ l, text = body ++ '*' :: '/' :: rest := by
  simp only [Language.mem_mul (l := bodyPattern), mem_bodyPattern_iff, mem_one_mul]
  constructor
  · rintro ⟨_, ⟨body, hbody, rfl⟩, _, ⟨_, rest, rfl, rfl, hrest⟩, rfl⟩
    exact ⟨body, hbody, rest, hrest, by simp⟩
  · rintro ⟨body, hbody, rest, hrest, rfl⟩
    exact ⟨_, ⟨body, hbody, rfl⟩, _, ⟨_, rest, rfl, rfl, hrest⟩, by simp⟩

/-- The pattern matches the texts of the grammar and no others. -/
theorem mem_trailerPattern_iff {text : List Char} : text ∈ trailerPattern ↔ Trailer text := by
  simp only [trailerPattern, add_mul, mul_assoc, Language.mem_add, mem_word_mul,
    mem_labelPattern_mul, mem_bodyPattern_mul, mem_kstar_one_mul, mem_kstar_one]
  constructor
  · rintro (⟨_, ⟨label, hlabel, _, ⟨body, hbody, rest, hrest, rfl⟩, rfl⟩, rfl⟩ |
      ⟨_, ⟨label, hlabel, _, ⟨line, behind, rfl, hline, hrest⟩, rfl⟩, rfl⟩)
    · exact .block hlabel hbody hrest
    · -- Blanks of the line itself may be taken for white space behind it.
      obtain ⟨rest, hafter⟩ : ∃ rest, afterLine (line ++ behind) = rest := ⟨_, rfl⟩
      have hmem : ∀ c ∈ rest, c ∈ behind := fun c hc => by
        rw [← hafter, afterLine, List.dropWhile_append_of_pos (by simpa using hline)] at hc
        exact (List.dropWhile_sublist _).subset hc
      obtain ⟨line', hline', hend, hsplit⟩ := afterLine_eq_iff.mp hafter
      change Trailer ('/' :: '/' :: (label ++ (line ++ behind)))
      rw [hsplit]
      exact .line hlabel hline' hend fun c hc => hrest c (hmem c hc)
  · intro h
    cases h with
    | line hlabel hline hend hrest =>
        exact .inr ⟨_, ⟨_, hlabel, _, ⟨_, _, rfl, hline, hrest⟩, rfl⟩, rfl⟩
    | block hlabel hbody hrest =>
        exact .inl ⟨_, ⟨_, hlabel, _, ⟨_, hbody, _, hrest, rfl⟩, rfl⟩, rfl⟩

/-! ## The text with fragments -/

theorem exists_parted (text : List Char) :
    ∃ head tail, Parted text head tail ∧ tail? text = if tail = [] then none else some tail := by
  cases htail : tail? text with
  | none =>
      refine ⟨text, [], ⟨(List.append_nil text).symm, .inl rfl, fun back hback ht => ?_⟩, rfl⟩
      exact absurd ht (not_trailer_of_tail?_eq_none htail hback)
  | some tail =>
      obtain ⟨⟨head, hwhole⟩, htrailer, hlongest⟩ := tail?_eq_some htail
      refine ⟨head, tail, ⟨hwhole.symm, .inr htrailer, hlongest⟩, ?_⟩
      rw [if_neg htrailer.ne_nil]

/-- Every text parts in one way into its longest end that the pattern matches and what stands in
front of it. Fragments go between the two, and that end stays the end, on a line of its own. -/
theorem splice_exact (text : String) (fragments : List String) (separator : String) :
    (∀ back, back ∈ trailerPattern ↔ Trailer back) ∧
    ∃ head tail : String,
      (∀ front back : List Char,
        Parted text.toList front back ↔ front = head.toList ∧ back = tail.toList) ∧
      text = head ++ tail ∧
      splice text fragments separator =
        head ++ (String.join (fragments.map (separator ++ ·)) ++ if tail = "" then "" else "\n") ++
          tail := by
  refine ⟨fun _ => mem_trailerPattern_iff, ?_⟩
  obtain ⟨head, tail, hparted, htail⟩ := exists_parted text.toList
  have hwhole : text = String.ofList head ++ String.ofList tail := by
    rw [← String.ofList_append, ← hparted.whole, String.ofList_toList]
  refine ⟨String.ofList head, String.ofList tail, fun front back => ?_, hwhole, ?_⟩
  · simp only [String.toList_ofList]
    constructor
    · exact fun h => h.unique hparted
    · rintro ⟨rfl, rfl⟩
      exact hparted
  · simp only [splice, htail, separated]
    by_cases hnil : tail = []
    · subst hnil
      rw [hwhole]
      simp
    · rw [if_neg hnil]
      simp [hparted.whole, hnil, String.append_assoc]

/-- A comment that another one follows is text like any other. -/
example : splice "a/*# sourceMappingURL=x*/ //@\tsourceMappingURL=*/\r\n" ["b", "c"] ";" =
    "a/*# sourceMappingURL=x*/ ;b;c\n//@\tsourceMappingURL=*/\r\n" := by
  decide +kernel

end Splice

end VendorBundle
