import Mathlib.Algebra.Order.BigOperators.Group.List
import Mathlib.Algebra.Order.Group.Nat
import Mathlib.Data.List.TakeWhile
import VendorBundle.Package
import VendorBundle.Proofs.Text.Split

/-!
# What a specifier may begin with

The leading text of a template is only the beginning of a specifier. When a slash in it ends a
package name, every specifier that begins with it names that package. Otherwise what follows goes on
with the name, and can make a name of it that no list of names has.
-/

namespace VendorBundle

namespace Specifier

/-- A slash in the text ends the package name. -/
def isPinned (text : String) : Bool := (splitPackage text.toList).2.isSome

/-! ## Package names -/

theorem splitPackage_of_not_mem {text : List Char} (h : '/' ∉ text) :
    splitPackage text = (text, none) := by
  unfold splitPackage
  split <;> rw [Text.cut?_of_not_mem h]

/-- The first slash of a scoped name belongs to it, the second one ends it. -/
theorem splitPackage_of_scoped {text scope behind : List Char} (h : text.head? = some '@')
    (hcut : Text.cut? '/' text = some (scope, behind)) :
    splitPackage text = match Text.cut? '/' behind with
      | none => (text, none)
      | some (name, rest) => (scope ++ '/' :: name, some rest) := by
  obtain ⟨text, rfl⟩ := List.head?_eq_some_iff.mp h
  cases hname : Text.cut? '/' behind with
  | none => simp [splitPackage, hcut, hname]
  | some parts => simp [splitPackage, hcut, hname]

/-- The first slash ends any other name. -/
theorem splitPackage_of_plain {text name rest : List Char} (h : text.head? ≠ some '@')
    (hcut : Text.cut? '/' text = some (name, rest)) : splitPackage text = (name, some rest) := by
  unfold splitPackage
  split
  · exact absurd rfl h
  · rw [hcut]

/-- A name that is ended stands in front of the slash that ends it, and any other text may stand
behind it. -/
theorem splitPackage_eq_some {text name rest : List Char}
    (h : splitPackage text = (name, some rest)) :
    text = name ++ '/' :: rest ∧
      ∀ rest', splitPackage (name ++ '/' :: rest') = (name, some rest') := by
  cases hcut : Text.cut? '/' text with
  | none =>
      rw [splitPackage_of_not_mem (Text.cut?_eq_none_iff.mp hcut)] at h
      cases h
  | some parts =>
      obtain ⟨front, behind⟩ := parts
      obtain ⟨hfront, rfl⟩ := Text.cut?_eq_some_iff.mp hcut
      have hhead : ∀ behind', (front ++ '/' :: behind').head? = (front ++ '/' :: behind).head? := by
        intro behind'
        cases front <;> rfl
      by_cases hscoped : (front ++ '/' :: behind).head? = some '@'
      · rw [splitPackage_of_scoped hscoped hcut] at h
        cases hname : Text.cut? '/' behind with
        | none => simp [hname] at h
        | some parts =>
            obtain ⟨inner, behind⟩ := parts
            obtain ⟨hinner, rfl⟩ := Text.cut?_eq_some_iff.mp hname
            simp only [hname, Prod.mk.injEq, Option.some.injEq] at h
            obtain ⟨rfl, rfl⟩ := h
            refine ⟨by simp, fun rest' => ?_⟩
            rw [List.append_assoc, List.cons_append,
              splitPackage_of_scoped ((hhead _).trans hscoped) (Text.cut?_append hfront _),
              Text.cut?_append hinner]
      · rw [splitPackage_of_plain hscoped hcut] at h
        obtain ⟨rfl, rfl⟩ : front = name ∧ behind = rest := by simpa using h
        refine ⟨rfl, fun rest' => ?_⟩
        exact splitPackage_of_plain (hhead rest' ▸ hscoped) (Text.cut?_append hfront rest')

/-- What follows a package name that is ended has no say in it. -/
theorem splitPackage_append_of_some {text name rest : List Char}
    (h : splitPackage text = (name, some rest)) (more : List Char) :
    splitPackage (text ++ more) = (name, some (rest ++ more)) := by
  obtain ⟨rfl, hany⟩ := splitPackage_eq_some h
  rw [List.append_assoc, List.cons_append, hany]

/-- What follows a text without an ended package name goes on with the name, up to a slash. -/
theorem splitPackage_append_of_none {text more : List Char} (h : (splitPackage text).2 = none)
    (hm : '/' ∉ more) : splitPackage (text ++ more) = (text ++ more, none) := by
  cases hcut : Text.cut? '/' text with
  | none =>
      have hnone : '/' ∉ text ++ more := by
        simp [Text.cut?_eq_none_iff.mp hcut, hm]
      exact splitPackage_of_not_mem hnone
  | some parts =>
      obtain ⟨front, behind⟩ := parts
      have hmore := Text.cut?_append_of_some hcut more
      have hhead : (text ++ more).head? = text.head? :=
        List.head?_append_of_ne_nil text (by rintro rfl; cases hcut)
      by_cases hscoped : text.head? = some '@'
      · rw [splitPackage_of_scoped hscoped hcut] at h
        rw [splitPackage_of_scoped (hhead.trans hscoped) hmore]
        cases hname : Text.cut? '/' behind with
        | none =>
            have hnone : '/' ∉ behind ++ more := by
              simp [Text.cut?_eq_none_iff.mp hname, hm]
            rw [Text.cut?_eq_none_iff.mpr hnone]
        | some parts => simp [hname] at h
      · rw [splitPackage_of_plain hscoped hcut] at h
        cases h

theorem splitPackage_fst_of_none {text : List Char} (h : (splitPackage text).2 = none) :
    (splitPackage text).1 = text := by
  have hnone := splitPackage_append_of_none h List.not_mem_nil
  rw [List.append_nil] at hnone
  rw [hnone]

/-! ## Kinds of specifiers -/

theorem isLocal_iff {text : List Char} : isLocal text ↔
    ['.', '/'] <+: text ∨ ['.', '.', '/'] <+: text ∨ ['/'] <+: text := by
  unfold isLocal
  split
  · simp
  · simp
  · simp
  · rename_i hhere hup hroot
    simp only [Bool.false_eq_true, false_iff, not_or]
    refine ⟨?_, ?_, ?_⟩
    · rintro ⟨rest, rfl⟩
      exact hhere rest rfl
    · rintro ⟨rest, rfl⟩
      exact hup rest rfl
    · rintro ⟨rest, rfl⟩
      exact hroot rest rfl

theorem isLocal_append {text : List Char} (h : '/' ∈ text) (more : List Char) :
    isLocal (text ++ more) = isLocal text := by
  rw [Bool.eq_iff_iff, isLocal_iff, isLocal_iff]
  -- No more than three characters decide, and one of the first two may be the slash.
  match text with
  | [c] =>
      obtain rfl : '/' = c := by simpa using h
      simp
  | [c, d] =>
      rcases List.mem_cons.mp h with rfl | h
      · simp
      · obtain rfl : '/' = d := by simpa using h
        simp
  | c :: d :: e :: rest => simp

/-- A text with a slash is not made a URL by what follows. -/
theorem isUrl_append {text : List Char} (h : '/' ∈ text) (hl : isLocal text = false)
    (more : List Char) : isUrl (text ++ more) = isUrl text := by
  cases text with
  | nil => exact absurd h List.not_mem_nil
  | cons c rest =>
      have hc : c ≠ '/' := by
        rintro rfl
        rw [isLocal_iff.mpr (.inr (.inr (by simp)))] at hl
        cases hl
      have hscheme : ∀ rest, isUrl (c :: rest) = hasScheme (c :: rest) := by
        intro rest
        unfold isUrl
        split
        · rename_i hslash
          exact absurd (List.cons.inj hslash).1 hc
        · rfl
      have hstops : rest.dropWhile isSchemeChar ≠ [] := by
        intro hnil
        have hslash := (List.mem_cons.mp h).resolve_left (Ne.symm hc)
        exact absurd (List.dropWhile_eq_nil_iff.mp hnil '/' hslash) (by decide)
      rw [List.cons_append, hscheme, hscheme, hasScheme, hasScheme, List.dropWhile_append]
      simp only [List.isEmpty_iff, hstops, if_false]
      rw [List.head?_append_of_ne_nil _ hstops]

/-! ## Completions -/

theorem slash_mem_of_isPinned {text : String} (h : isPinned text) : '/' ∈ text.toList := by
  by_contra hn
  rw [isPinned, splitPackage_of_not_mem hn] at h
  cases h

theorem isPinned_iff {text : String} :
    isPinned text ↔ ∃ name rest, splitPackage text.toList = (name, some rest) := by
  rw [isPinned, Option.isSome_iff_exists]
  constructor
  · rintro ⟨rest, h⟩
    exact ⟨_, rest, Prod.ext rfl h⟩
  · rintro ⟨name, rest, h⟩
    exact ⟨rest, by rw [h]⟩

theorem packageName?_eq_some_iff {text name : String} : packageName? text = some name ↔
    isUrl text.toList = false ∧ isLocal text.toList = false ∧
      String.ofList (splitPackage text.toList).1 = name := by
  rw [packageName?, ofText]
  cases isUrl text.toList with
  | true => simp
  | false => cases isLocal text.toList <;> simp

/-- A text in which a slash ends the package name names the same package whatever follows. -/
theorem packageName?_append {text : String} (h : isPinned text) (more : String) :
    packageName? (text ++ more) = packageName? text := by
  have hslash := slash_mem_of_isPinned h
  obtain ⟨name, rest, hname⟩ := isPinned_iff.mp h
  have hsplit : (splitPackage (text.toList ++ more.toList)).1 = (splitPackage text.toList).1 := by
    rw [splitPackage_append_of_some hname, hname]
  ext name
  rw [packageName?_eq_some_iff, packageName?_eq_some_iff, String.toList_append, hsplit,
    isLocal_append hslash]
  constructor
  · rintro ⟨hurl, hlocal, hname⟩
    exact ⟨isUrl_append hslash hlocal _ ▸ hurl, hlocal, hname⟩
  · rintro ⟨hurl, hlocal, hname⟩
    exact ⟨(isUrl_append hslash hlocal _).trans hurl, hlocal, hname⟩

theorem isPinned_append {text : String} (h : isPinned text) (more : String) :
    isPinned (text ++ more) := by
  obtain ⟨name, rest, hname⟩ := isPinned_iff.mp h
  rw [isPinned_iff, String.toList_append]
  exact ⟨name, rest ++ more.toList, splitPackage_append_of_some hname more.toList⟩

/-- The name that a pinned text names is pinned by a slash alone. -/
theorem isPinned_slash {text name : String} (h : isPinned text)
    (hn : packageName? text = some name) :
    isPinned (name ++ "/") ∧ packageName? (name ++ "/") = some name := by
  obtain ⟨front, rest, hsplit⟩ := isPinned_iff.mp h
  obtain ⟨-, -, hname⟩ := packageName?_eq_some_iff.mp hn
  obtain rfl : front = name.toList := by rw [← hname, hsplit, String.toList_ofList]
  obtain ⟨htext, hany⟩ := splitPackage_eq_some hsplit
  have hpinned : isPinned (name ++ "/") := by
    have hslash : (name ++ "/").toList = name.toList ++ '/' :: [] := by simp
    rw [isPinned_iff, hslash]
    exact ⟨name.toList, [], hany []⟩
  have hsame : name ++ "/" ++ String.ofList rest = text := by
    apply String.toList_injective
    simp [htext]
  exact ⟨hpinned, by rw [← packageName?_append hpinned (String.ofList rest), hsame, hn]⟩

/-- What leads to a package leads into it with a slash behind, if the package can be pinned. -/
theorem packageName?_slash {text target name : String} (h : isPinned text)
    (hn : packageName? text = some name) (ht : packageName? target = some name) (more : String) :
    packageName? (target ++ "/" ++ more) = some name := by
  cases hp : isPinned target with
  | true => rw [packageName?_append (isPinned_append hp "/"), packageName?_append hp, ht]
  | false =>
      -- Such a target is the bare name.
      obtain ⟨-, -, hname⟩ := packageName?_eq_some_iff.mp ht
      obtain ⟨hpinned, hslash⟩ := isPinned_slash h hn
      rw [splitPackage_fst_of_none (by simpa [isPinned] using hp), String.ofList_toList] at hname
      rw [hname, packageName?_append hpinned, hslash]

/-- What follows a text without an ended package name is part of the name, up to a slash. -/
theorem packageName?_append_of_not_isPinned {text more name : String} (h : isPinned text = false)
    (hm : '/' ∉ more.toList) (hn : packageName? (text ++ more) = some name) :
    name = text ++ more := by
  obtain ⟨-, -, hall⟩ := packageName?_eq_some_iff.mp hn
  rw [String.toList_append, splitPackage_append_of_none (by simpa [isPinned] using h) hm,
    ← String.toList_append, String.ofList_toList] at hall
  exact hall.symm

/-- There is a text without a slash that is longer than each of a list. -/
theorem exists_longer (texts : List String) :
    ∃ more : String, '/' ∉ more.toList ∧ ∀ text ∈ texts, text.length < more.length := by
  refine ⟨String.ofList (List.replicate ((texts.map String.length).sum + 1) 'x'), by simp, ?_⟩
  intro text ht
  have hshort : text.length ≤ (texts.map String.length).sum :=
    List.le_sum_of_mem (List.mem_map.mpr ⟨text, ht, rfl⟩)
  simp
  omega

/-- A text without an ended package name can be gone on with so that the name is none of a list. -/
theorem exists_completion {text : String} (h : isPinned text = false) (names : List String) :
    ∃ more : String, ∀ name, packageName? (text ++ more) = some name → name ∉ names := by
  obtain ⟨more, hmore, hlong⟩ := exists_longer names
  refine ⟨more, fun name hname hmem => ?_⟩
  have hname := packageName?_append_of_not_isPinned h hmore hname
  have hlonger := hlong name hmem
  rw [hname, String.length_append] at hlonger
  omega

end Specifier

namespace Package

/-- Every text that begins with this one names a package that is left alone. -/
def ExcludesAll (p : Package) (text : String) : Prop := ∀ more : String, p.excludes (text ++ more)

/-- A leading text that names an excluded package is sure to lead there exactly when a slash ends
the name. -/
theorem excludesAll_iff {p : Package} {text : String} :
    p.ExcludesAll text ↔ p.excludes text ∧ Specifier.isPinned text := by
  constructor
  · intro h
    refine ⟨by simpa using h "", ?_⟩
    by_contra hn
    obtain ⟨more, hmore⟩ := Specifier.exists_completion (Bool.eq_false_iff.mpr hn) p.exclude
    obtain ⟨name, hname, hmem⟩ := (Option.any_eq_true _ _).mp (h more)
    exact hmore name hname (List.contains_iff_mem.mp hmem)
  · rintro ⟨h, hpinned⟩ more
    rwa [excludes, Specifier.packageName?_append hpinned]

end Package

end VendorBundle
