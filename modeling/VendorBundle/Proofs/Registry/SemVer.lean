import VendorBundle.Proofs.Registry.Equal

/-!
# Semantic versions

A semantic version has three numbers, maybe a prerelease and maybe build metadata, written with
dots, a hyphen and a plus sign. On the texts of any two of them the order of versions is told
exactly: it is their precedence unless the first parts that differ are compared wrongly, and that
takes a number that does not fit in 64 bits, which is read as a text.
-/

namespace VendorBundle

/-! ## What is written -/

namespace SemVer

/-- Letters, digits and hyphens, at least one. -/
def IsTag (text : String) : Prop :=
  text ≠ "" ∧ ∀ c ∈ text.toList, c.isAlphanum ∨ c = '-'

instance (text : String) : Decidable (IsTag text) :=
  decidable_of_iff (text ≠ "" ∧ text.toList.all fun c => c.isAlphanum || c == '-') (by simp [IsTag])

/-- A part of a prerelease: a number, or a tag that is not all digits. -/
inductive Identifier where
  | number (value : Nat)
  | word (text : String) (isTag : IsTag text) (named : ∃ c ∈ text.toList, ¬ c.isDigit)
  deriving DecidableEq

/-- Numbers are written in decimal, without zeros in front. -/
def Identifier.text : Identifier → String
  | number value => value.repr
  | word text _ _ => text

end SemVer

structure SemVer where
  major : Nat
  minor : Nat
  patch : Nat
  /-- Empty for a release. -/
  prerelease : List SemVer.Identifier := []
  build : List { tag : String // SemVer.IsTag tag } := []

namespace SemVer

def release (v : SemVer) : List Nat := [v.major, v.minor, v.patch]

/-- Parts with dots between them. -/
def dotted (parts : List String) : String := ".".intercalate parts

/-- Parts that follow a mark, which is left out together with them. -/
def marked (mark : String) (parts : List String) : String :=
  if parts = [] then "" else mark ++ dotted parts

def text (v : SemVer) : String :=
  dotted (v.release.map Nat.repr) ++ marked "-" (v.prerelease.map Identifier.text) ++
    marked "+" (v.build.map Subtype.val)

/-! ## Precedence -/

/-- Numbers go by value and come before words, which go by their characters. -/
def Identifier.compare : Identifier → Identifier → Ordering
  | number a, number b => Ord.compare a b
  | number _, word .. => .lt
  | word .., number _ => .gt
  | word s _ _, word t _ _ => Ord.compare s t

/-- A release comes after its prereleases; of these the first part that differs decides, and a list
comes after its beginnings. -/
def comparePrereleases : List Identifier → List Identifier → Ordering
  | [], [] => .eq
  | [], _ :: _ => .gt
  | _ :: _, [] => .lt
  | x :: xs, y :: ys => List.compareLex Identifier.compare (x :: xs) (y :: ys)

/-- The three numbers decide in their order, then the prereleases; build metadata does not count. -/
def precedence (v w : SemVer) : Ordering :=
  (Ord.compare v.major w.major).then <| (Ord.compare v.minor w.minor).then <|
    (Ord.compare v.patch w.patch).then <| comparePrereleases v.prerelease w.prerelease

theorem precedence_eq (v w : SemVer) : v.precedence w =
    (List.compareLex Ord.compare v.release w.release).then
      (comparePrereleases v.prerelease w.prerelease) := by
  simp only [precedence, release, List.compareLex_cons_cons, List.compareLex_nil_nil,
    Ordering.then_assoc, Ordering.eq_then]

/-! ## Reading -/

theorem mem_dotted {parts : List String} {c : Char} (h : c ∈ (dotted parts).toList) :
    c = '.' ∨ ∃ part ∈ parts, c ∈ part.toList := by
  induction parts with
  | nil => exact absurd h (by simp [dotted])
  | cons part parts ih =>
      cases parts with
      | nil => exact .inr ⟨part, List.mem_cons_self, by simpa [dotted] using h⟩
      | cons next parts =>
          rw [dotted, String.intercalate_cons_cons, String.toList_append, String.toList_append,
            List.mem_append, List.mem_append] at h
          rcases h with (h | h) | h
          · exact .inr ⟨part, List.mem_cons_self, h⟩
          · exact .inl (List.mem_singleton.mp h)
          · rcases ih h with h | ⟨part', hpart, h⟩
            · exact .inl h
            · exact .inr ⟨part', List.mem_cons_of_mem _ hpart, h⟩

theorem parts_dotted {parts : List String} (hne : parts ≠ [])
    (h : ∀ part ∈ parts, '.' ∉ part.toList) :
    Version.parts (dotted parts).toList = parts.map VersionPart.ofText := by
  have hdot : ".".toList = ['.'] := rfl
  rw [Version.parts, dotted, String.toList_intercalate, hdot, Text.pieces_eq_splitOn,
    List.splitOn_intercalate '.' (by simpa using h) (by simpa using hne), List.map_map]
  simp [Function.comp_def]

theorem isDigit_of_mem_repr {n : Nat} {c : Char} (h : c ∈ n.repr.toList) : c.isDigit := by
  rw [Nat.repr_eq_ofList_toDigits, String.toList_ofList] at h
  exact Nat.isDigit_of_mem_toDigits (by decide) (by decide) h

theorem digitsValue_repr (n : Nat) : Text.digitsValue n.repr.toList = n := by
  rw [Nat.repr_eq_ofList_toDigits, String.toList_ofList, Text.digitsValue]
  calc (Nat.toDigits 10 n).foldl (fun n c => n * 10 + (c.toNat - '0'.toNat)) 0
      = Nat.ofDigitChars 10 (Nat.toDigits 10 n) 0 := by
        simp only [Nat.ofDigitChars_eq_foldl, Nat.mul_comm]
    _ = n := Nat.ofDigitChars_ten_toDigits

theorem word?_of_head {text : List Char} (h : text.head? ≠ some '+') :
    Text.word? text = Text.digitsBelow? UInt64.size text := by
  rw [Text.word?]
  rintro digits rfl
  exact h rfl

/-- A number is read as such if it fits in 64 bits, and as a text otherwise. -/
theorem ofText_repr (n : Nat) : VersionPart.ofText n.repr =
    if n < UInt64.size then .number n else .text n.repr := by
  have hdigits : ∀ c ∈ n.repr.toList, c.isDigit := fun c => isDigit_of_mem_repr
  have hplus : n.repr.toList.head? ≠ some '+' := fun h =>
    absurd (hdigits '+' (List.mem_of_head? h)) (by decide)
  have hword : Text.word? n.repr.toList = if n < UInt64.size then some n else none := by
    rw [word?_of_head hplus, Text.digitsBelow?, digitsValue_repr, if_neg]
    simpa using hdigits
  rw [VersionPart.ofText, hword]
  by_cases hn : n < UInt64.size <;> simp [hn]

/-- A word is read as a text. -/
theorem ofText_word {text : String} (h : IsTag text) (hn : ∃ c ∈ text.toList, ¬ c.isDigit) :
    VersionPart.ofText text = .text text := by
  have hplus : text.toList.head? ≠ some '+' := fun hhead =>
    absurd (h.2 '+' (List.mem_of_head? hhead)) (by decide)
  have hword : Text.word? text.toList = none := by
    rw [word?_of_head hplus, Text.digitsBelow?, if_pos]
    obtain ⟨c, hc, hdigit⟩ := hn
    simpa using .inr ⟨c, hc, by simpa using hdigit⟩
  rw [VersionPart.ofText, hword]

/-- How a part of a prerelease is read. -/
def Identifier.part (x : Identifier) : VersionPart := VersionPart.ofText x.text

theorem Identifier.notMem_text (x : Identifier) {c : Char} (hc : c.isAlphanum = false)
    (hh : c ≠ '-') : c ∉ x.text.toList := by
  intro hm
  cases x with
  | number n =>
      have := isDigit_of_mem_repr hm
      simp [Char.isAlphanum, this] at hc
  | word text isTag named =>
      rcases isTag.2 c hm with h | h
      · exact absurd (hc.symm.trans h) Bool.false_ne_true
      · exact hh h

theorem notMem_numbers {numbers : List Nat} {c : Char} (hc : c.isDigit = false) (hdot : c ≠ '.') :
    c ∉ (dotted (numbers.map Nat.repr)).toList := by
  intro hm
  rcases mem_dotted hm with h | ⟨part, hpart, h⟩
  · exact hdot h
  · obtain ⟨n, -, rfl⟩ := List.mem_map.mp hpart
    exact absurd (hc.symm.trans (isDigit_of_mem_repr h)) Bool.false_ne_true

theorem ofText_marked_plus (front : String) (parts : List String) :
    Version.ofText (front ++ marked "+" parts) = Version.ofText front := by
  rw [marked]
  split
  · rw [String.append_empty]
  · rw [← String.append_assoc, Version.ofText_append_plus]

theorem parts_release (v : SemVer) : Version.parts (dotted (v.release.map Nat.repr)).toList =
    v.release.map fun n => VersionPart.ofText n.repr := by
  rw [parts_dotted (by simp [release]), List.map_map]
  · rfl
  · intro part hpart hdot
    obtain ⟨n, -, rfl⟩ := List.mem_map.mp hpart
    exact absurd (isDigit_of_mem_repr hdot) (by decide)

theorem parts_identifiers {xs : List Identifier} (hne : xs ≠ []) :
    Version.parts (dotted (xs.map Identifier.text)).toList = xs.map Identifier.part := by
  rw [parts_dotted (by simpa using hne), List.map_map]
  · rfl
  · intro part hpart
    obtain ⟨x, -, rfl⟩ := List.mem_map.mp hpart
    exact x.notMem_text (by decide) (by decide)

theorem plus_notMem_identifiers (xs : List Identifier) :
    '+' ∉ (dotted (xs.map Identifier.text)).toList := by
  intro hm
  rcases mem_dotted hm with h | ⟨part, hpart, h⟩
  · exact absurd h (by decide)
  · obtain ⟨x, -, rfl⟩ := List.mem_map.mp hpart
    exact x.notMem_text (by decide) (by decide) h

/-- The text of a version is read part by part, and its build metadata is not read. -/
theorem ofText_text (v : SemVer) : Version.ofText v.text =
    { release := v.release.map fun n => VersionPart.ofText n.repr
      prerelease :=
        if v.prerelease = [] then none else some (v.prerelease.map Identifier.part) } := by
  have hminus : '-' ∉ (dotted (v.release.map Nat.repr)).toList :=
    notMem_numbers (by decide) (by decide)
  have hplus : '+' ∉ (dotted (v.release.map Nat.repr)).toList :=
    notMem_numbers (by decide) (by decide)
  rw [text, ofText_marked_plus]
  by_cases hpre : v.prerelease = []
  · rw [hpre, List.map_nil, marked, if_pos rfl, String.append_empty, if_pos rfl, Version.ofText,
      Text.cut?_of_not_mem hplus]
    simp only [Text.cut?_of_not_mem hminus, parts_release]
  · have hfront : (dotted (v.release.map Nat.repr) ++
        marked "-" (v.prerelease.map Identifier.text)).toList =
          (dotted (v.release.map Nat.repr)).toList ++
            '-' :: (dotted (v.prerelease.map Identifier.text)).toList := by
      simp [marked, hpre, String.toList_append]
    have hwhole : Text.cut? '+' ((dotted (v.release.map Nat.repr)).toList ++
        '-' :: (dotted (v.prerelease.map Identifier.text)).toList) = none := by
      refine Text.cut?_of_not_mem ?_
      simp [hplus, plus_notMem_identifiers]
    rw [if_neg hpre, Version.ofText, hfront, hwhole]
    simp only [Text.cut?_append hminus, parts_release, parts_identifiers hpre]

/-! ## The first difference -/

/-- The first parts at the same place of two lists that differ. -/
def firstDifference {α : Type} [DecidableEq α] : List α → List α → Option (α × α)
  | a :: as, b :: bs => if a = b then firstDifference as bs else some (a, b)
  | _, _ => none

theorem then_eq_then_iff {x x' y y' : Ordering} (h : x = .eq ↔ x' = .eq) :
    x.then y = x'.then y' ↔ x = x' ∧ (x = .eq → y = y') := by
  cases x <;> cases x' <;> simp at h ⊢

/-- Two orders agree on two lists exactly when they do on the first parts that differ. -/
theorem compareLex_eq_iff {α : Type} [DecidableEq α] {cmp cmp' : α → α → Ordering}
    [Std.LawfulEqCmp cmp] [Std.LawfulEqCmp cmp'] {as bs : List α} :
    List.compareLex cmp as bs = List.compareLex cmp' as bs ↔
      ∀ a b, firstDifference as bs = some (a, b) → cmp a b = cmp' a b := by
  induction as generalizing bs with
  | nil =>
      cases bs with
      | nil => simp [List.compareLex_nil_nil, firstDifference]
      | cons b bs => simp [List.compareLex_nil_cons, firstDifference]
  | cons a as ih =>
      cases bs with
      | nil => simp [List.compareLex_cons_nil, firstDifference]
      | cons b bs =>
          rw [List.compareLex_cons_cons, List.compareLex_cons_cons, then_eq_then_iff
            (Std.LawfulEqCmp.compare_eq_iff_eq.trans Std.LawfulEqCmp.compare_eq_iff_eq.symm),
            Std.LawfulEqCmp.compare_eq_iff_eq, firstDifference]
          by_cases hab : a = b
          · rw [if_pos hab, hab, ← ih]
            simp [@Std.ReflCmp.compare_self _ cmp, @Std.ReflCmp.compare_self _ cmp']
          · simp [hab]

theorem compareLex_map {α β : Type} (cmp : β → β → Ordering) (f : α → β) (as bs : List α) :
    List.compareLex cmp (as.map f) (bs.map f) =
      List.compareLex (fun a b => cmp (f a) (f b)) as bs := by
  induction as generalizing bs with
  | nil => cases bs <;> rfl
  | cons a as ih =>
      cases bs with
      | nil => rfl
      | cons b bs =>
          rw [List.map_cons, List.map_cons, List.compareLex_cons_cons, List.compareLex_cons_cons,
            ih]

/-! ## The order of parts -/

instance : Std.LawfulEqCmp Identifier.compare where
  compare_self {x} := by
    cases x with
    | number n => exact Std.ReflOrd.compare_self
    | word t _ _ => exact Std.ReflOrd.compare_self
  eq_of_compare {x y} h := by
    cases x with
    | number a =>
        cases y with
        | number b => rw [Std.LawfulEqOrd.eq_of_compare (α := Nat) h]
        | word => exact absurd h nofun
    | word s _ _ =>
        cases y with
        | number b => exact absurd h nofun
        | word t _ _ =>
            obtain rfl := Std.LawfulEqOrd.eq_of_compare (α := String) h
            rfl

/-- How two numbers of a release are compared. -/
def compareNumbers (a b : Nat) : Ordering :=
  VersionPart.compareWith .gt (VersionPart.ofText a.repr) (VersionPart.ofText b.repr)

/-- How two parts of a prerelease are compared. -/
def compareIdentifiers (x y : Identifier) : Ordering :=
  VersionPart.compareWith .lt x.part y.part

theorem ofText_repr_injective {a b : Nat}
    (h : VersionPart.ofText a.repr = VersionPart.ofText b.repr) : a = b := by
  rw [ofText_repr, ofText_repr] at h
  split at h
  · split at h
    · exact VersionPart.number.inj h
    · cases h
  · split at h
    · cases h
    · rw [← digitsValue_repr a, VersionPart.text.inj h, digitsValue_repr]

theorem Identifier.part_number_ne_word (a : Nat) {t : String} (isTag : IsTag t)
    (named : ∃ c ∈ t.toList, ¬ c.isDigit) : (number a).part ≠ (word t isTag named).part := by
  intro h
  rw [part, part, text, text, ofText_repr, ofText_word isTag named] at h
  split at h
  · cases h
  · obtain ⟨c, hc, hdigit⟩ := named
    exact hdigit (isDigit_of_mem_repr (VersionPart.text.inj h ▸ hc))

theorem Identifier.part_injective {x y : Identifier} (h : x.part = y.part) : x = y := by
  cases x with
  | number a =>
      cases y with
      | number b => rw [ofText_repr_injective h]
      | word t isTag named => exact absurd h (part_number_ne_word a isTag named)
  | word s isTag named =>
      cases y with
      | number b => exact absurd h.symm (part_number_ne_word b isTag named)
      | word t isTag' named' =>
          rw [part, part, text, text, ofText_word isTag named, ofText_word isTag' named'] at h
          obtain rfl := VersionPart.text.inj h
          rfl

instance : Std.LawfulEqCmp compareNumbers where
  compare_self {_} := @Std.ReflCmp.compare_self _ (VersionPart.compareWith .gt) _ _
  eq_of_compare h := ofText_repr_injective (Std.LawfulEqCmp.eq_of_compare h)

instance : Std.LawfulEqCmp compareIdentifiers where
  compare_self {_} := @Std.ReflCmp.compare_self _ (VersionPart.compareWith .lt) _ _
  eq_of_compare h := Identifier.part_injective (Std.LawfulEqCmp.eq_of_compare h)

/-- Numbers that both fit in 64 bits go by value, numbers that both do not by their digits. -/
theorem compareWith_repr (mixed : Ordering) (a b : Nat) :
    VersionPart.compareWith mixed (VersionPart.ofText a.repr) (VersionPart.ofText b.repr) =
      if a < UInt64.size then if b < UInt64.size then compare a b else mixed
      else if b < UInt64.size then mixed.swap else compare a.repr b.repr := by
  rw [ofText_repr, ofText_repr]
  by_cases ha : a < UInt64.size <;> by_cases hb : b < UInt64.size <;>
    simp [ha, hb, VersionPart.compareWith]

/-- A number goes before a word if it fits in 64 bits, and by its digits otherwise. -/
theorem compareWith_repr_word (mixed : Ordering) (a : Nat) {t : String} (isTag : IsTag t)
    (named : ∃ c ∈ t.toList, ¬ c.isDigit) :
    VersionPart.compareWith mixed (VersionPart.ofText a.repr) (VersionPart.ofText t) =
      if a < UInt64.size then mixed else compare a.repr t := by
  rw [ofText_repr, ofText_word isTag named]
  by_cases ha : a < UInt64.size <;> simp [ha, VersionPart.compareWith]

/-! ## Where the order is the precedence -/

/-- Two numbers of a release are put into the order of their values: both fit in 64 bits, or neither
does and their digits as texts are in that order. -/
structure NumbersKept (a b : Nat) : Prop where
  alike : a < UInt64.size ↔ b < UInt64.size
  digits : UInt64.size ≤ a → UInt64.size ≤ b → compare a.repr b.repr = compare a b

theorem compareNumbers_eq_iff {a b : Nat} :
    compareNumbers a b = compare a b ↔ NumbersKept a b := by
  rw [compareNumbers, compareWith_repr]
  by_cases ha : a < UInt64.size
  · by_cases hb : b < UInt64.size
    · rw [if_pos ha, if_pos hb]
      exact ⟨fun _ => ⟨⟨fun _ => hb, fun _ => ha⟩, fun h => by omega⟩, fun _ => rfl⟩
    · rw [if_pos ha, if_neg hb, Nat.compare_eq_lt.mpr (by omega)]
      exact ⟨fun h => absurd h nofun, fun h => absurd (h.alike.mp ha) hb⟩
  · by_cases hb : b < UInt64.size
    · rw [if_neg ha, if_pos hb, Nat.compare_eq_gt.mpr (by omega)]
      exact ⟨fun h => absurd h nofun, fun h => absurd (h.alike.mpr hb) ha⟩
    · rw [if_neg ha, if_neg hb]
      exact ⟨fun h => ⟨⟨fun h => absurd h ha, fun h => absurd h hb⟩, fun _ _ => h⟩,
        fun h => h.digits (by omega) (by omega)⟩

/-- Two parts of a prerelease are put into their order: numbers that do not fit in 64 bits are in it
as texts. -/
def IdentifiersKept : Identifier → Identifier → Prop
  | .number a, .number b =>
      UInt64.size ≤ a → UInt64.size ≤ b → compare a.repr b.repr = compare a b
  | .number a, .word t _ _ => UInt64.size ≤ a → compare a.repr t = .lt
  | .word s _ _, .number b => UInt64.size ≤ b → compare s b.repr = .gt
  | .word .., .word .. => True

theorem compareIdentifiers_numbers_eq_iff {a b : Nat} :
    compareIdentifiers (.number a) (.number b) = compare a b ↔
      (UInt64.size ≤ a → UInt64.size ≤ b → compare a.repr b.repr = compare a b) := by
  simp only [compareIdentifiers, Identifier.part, Identifier.text, compareWith_repr]
  by_cases ha : a < UInt64.size
  · rw [if_pos ha]
    have hkept : (if b < UInt64.size then compare a b else .lt) = compare a b := by
      split
      · rfl
      · exact (Nat.compare_eq_lt.mpr (by omega)).symm
    exact ⟨fun _ h => by omega, fun _ => hkept⟩
  · rw [if_neg ha]
    by_cases hb : b < UInt64.size
    · rw [if_pos hb, Nat.compare_eq_gt.mpr (by omega)]
      exact ⟨fun _ _ h => by omega, fun _ => rfl⟩
    · rw [if_neg hb]
      exact ⟨fun h _ _ => h, fun h => h (by omega) (by omega)⟩

theorem compareIdentifiers_eq_iff {x y : Identifier} :
    compareIdentifiers x y = x.compare y ↔ IdentifiersKept x y := by
  cases x with
  | number a =>
      cases y with
      | number b => exact compareIdentifiers_numbers_eq_iff
      | word t isTag named =>
          simp only [compareIdentifiers, Identifier.part, Identifier.text,
            compareWith_repr_word .lt a isTag named, Identifier.compare, IdentifiersKept]
          by_cases ha : a < UInt64.size
          · simp [ha, Nat.not_le.mpr ha]
          · simp [ha, Nat.not_lt.mp ha]
  | word s isTag named =>
      cases y with
      | number b =>
          rw [compareIdentifiers, VersionPart.compareWith_swap]
          simp only [Identifier.part, Identifier.text,
            compareWith_repr_word .lt b isTag named, Identifier.compare, IdentifiersKept]
          by_cases hb : b < UInt64.size
          · simp [hb, Nat.not_le.mpr hb]
          · rw [if_neg hb, ← Std.OrientedOrd.eq_swap]
            simp [Nat.not_lt.mp hb]
      | word t isTag' named' =>
          simp only [compareIdentifiers, Identifier.part, Identifier.text, ofText_word isTag named,
            ofText_word isTag' named', Identifier.compare, IdentifiersKept,
            VersionPart.compareWith]

/-- The texts of two versions are compared part by part. -/
theorem compareVersions_text_eq (v w : SemVer) : compareVersions v.text w.text =
    (List.compareLex compareNumbers v.release w.release).then
      (Version.comparePrereleases (Version.ofText v.text).prerelease
        (Version.ofText w.text).prerelease) := by
  rw [compareVersions, Version.compare, Version.compareParts_eq]
  simp only [ofText_text]
  rw [compareLex_map]
  rfl

theorem comparePrereleases_eq_iff (v w : SemVer) :
    Version.comparePrereleases (Version.ofText v.text).prerelease
        (Version.ofText w.text).prerelease = comparePrereleases v.prerelease w.prerelease ↔
      ∀ x y, firstDifference v.prerelease w.prerelease = some (x, y) → IdentifiersKept x y := by
  simp only [ofText_text]
  cases hv : v.prerelease with
  | nil =>
      cases hw : w.prerelease with
      | nil => simp [firstDifference, Version.comparePrereleases, comparePrereleases]
      | cons y ys => simp [firstDifference, Version.comparePrereleases, comparePrereleases]
  | cons x xs =>
      cases hw : w.prerelease with
      | nil => simp [firstDifference, Version.comparePrereleases, comparePrereleases]
      | cons y ys =>
          have hparts : List.compareLex (VersionPart.compareWith .lt)
              ((x :: xs).map Identifier.part) ((y :: ys).map Identifier.part) =
                List.compareLex compareIdentifiers (x :: xs) (y :: ys) := compareLex_map _ _ _ _
          simp only [reduceCtorEq, if_false, Version.comparePrereleases, Version.compareParts_eq,
            comparePrereleases, hparts, compareLex_eq_iff, compareIdentifiers_eq_iff]

/-- The first parts that differ are put into their order. -/
structure Kept (v w : SemVer) : Prop where
  release : ∀ a b, firstDifference v.release w.release = some (a, b) → NumbersKept a b
  prerelease : v.release = w.release → ∀ x y,
    firstDifference v.prerelease w.prerelease = some (x, y) → IdentifiersKept x y

/-- All numbers of a version fit in 64 bits. -/
structure Fits (v : SemVer) : Prop where
  release : ∀ n ∈ v.release, n < UInt64.size
  prerelease : ∀ n, .number n ∈ v.prerelease → n < UInt64.size

theorem mem_of_firstDifference {α : Type} [DecidableEq α] {as bs : List α} {a b : α}
    (h : firstDifference as bs = some (a, b)) : a ∈ as ∧ b ∈ bs := by
  induction as generalizing bs with
  | nil => exact absurd h nofun
  | cons a' as ih =>
      cases bs with
      | nil => exact absurd h nofun
      | cons b' bs =>
          rw [firstDifference] at h
          split at h
          · exact ⟨List.mem_cons_of_mem _ (ih h).1, List.mem_cons_of_mem _ (ih h).2⟩
          · cases h
            exact ⟨List.mem_cons_self, List.mem_cons_self⟩

theorem Fits.kept {v w : SemVer} (hv : v.Fits) (hw : w.Fits) : Kept v w where
  release a b hab := by
    obtain ⟨ha, hb⟩ := mem_of_firstDifference hab
    have hfit := hv.release a ha
    exact ⟨⟨fun _ => hw.release b hb, fun _ => hfit⟩, fun h => by omega⟩
  prerelease _ x y hxy := by
    obtain ⟨hx, hy⟩ := mem_of_firstDifference hxy
    cases x with
    | number a =>
        have hfit := hv.prerelease a hx
        cases y <;> exact fun h => absurd hfit (Nat.not_lt.mpr h)
    | word =>
        cases y with
        | number b => exact fun h => absurd (hw.prerelease b hy) (Nat.not_lt.mpr h)
        | word => trivial

/-- The order of two semantic versions is their precedence exactly when the first parts that differ
are put into their order: numbers of a release both fit in 64 bits or are in order by their digits,
and a number of a prerelease that does not fit is in order by its digits. In particular it is the
precedence when all numbers fit. -/
theorem compareVersions_text (v w : SemVer) :
    (compareVersions v.text w.text = v.precedence w ↔ Kept v w) ∧
      (v.Fits → w.Fits → compareVersions v.text w.text = v.precedence w) := by
  have hequal {cmp : Nat → Nat → Ordering} [Std.LawfulEqCmp cmp] :
      List.compareLex cmp v.release w.release = .eq ↔ v.release = w.release :=
    Std.LawfulEqCmp.compare_eq_iff_eq
  have hkept : compareVersions v.text w.text = v.precedence w ↔ Kept v w := by
    rw [compareVersions_text_eq, precedence_eq, then_eq_then_iff (hequal.trans hequal.symm),
      compareLex_eq_iff, comparePrereleases_eq_iff, hequal]
    simp only [compareNumbers_eq_iff]
    exact ⟨fun h => ⟨h.1, h.2⟩, fun h => ⟨h.release, h.prerelease⟩⟩
  exact ⟨hkept, fun hv hw => hkept.mpr (hv.kept hw)⟩

namespace Overlong

def long : SemVer := { major := 18446744073709551616, minor := 0, patch := 0 }

def short : SemVer := { major := 9, minor := 0, patch := 0 }

def numbered : SemVer := { short with prerelease := [.number 18446744073709551616] }

def worded : SemVer :=
  { short with prerelease := [.word "-" (by decide) ⟨'-', by simp, by decide⟩] }

/-- A number that does not fit in 64 bits comes before one that does, and in a prerelease it can
come after a word. -/
theorem long_numbers_misplaced :
    (long.text = "18446744073709551616.0.0" ∧ short.text = "9.0.0" ∧
      compareVersions long.text short.text = .lt ∧ long.precedence short = .gt) ∧
    (numbered.text = "9.0.0-18446744073709551616" ∧ worded.text = "9.0.0--" ∧
      compareVersions numbered.text worded.text = .gt ∧ numbered.precedence worded = .lt) := by
  decide +kernel

end Overlong

end SemVer

end VendorBundle
