import VendorBundle.Proofs.Package.Template

/-!
# Leading texts that decide on a package

A specifier that begins with a precise text names the package that the text names, and is looked for
in the same directories. A text that is not precise, and whose segments in front could be those of a
package name, decides on nothing: some two ways to go on with it name different packages, or one of
them names none.
-/

namespace VendorBundle

namespace Specifier

/-! ## Parts of a specifier -/

theorem ofText_eq_package_iff {text name : String} {subpath : Option String} :
    ofText text = .package name subpath ↔ isUrl text.toList = false ∧ isLocal text.toList = false ∧
      String.ofList (splitPackage text.toList).1 = name ∧
      ((splitPackage text.toList).2.filter (!·.isEmpty)).map String.ofList = subpath := by
  rw [ofText]
  cases isUrl text.toList with
  | true => simp
  | false => cases isLocal text.toList <;> simp

theorem packageName?_of_ofText {text name : String} {subpath : Option String}
    (h : ofText text = .package name subpath) : packageName? text = some name := by
  rw [packageName?, h]

theorem exists_ofText {text name : String} (h : packageName? text = some name) :
    ∃ subpath, ofText text = .package name subpath := by
  rw [packageName?] at h
  cases ho : ofText text with
  | package name' subpath =>
      rw [ho] at h
      exact ⟨subpath, by rw [Option.some.inj h]⟩
  | url => simp [ho] at h
  | localPath => simp [ho] at h

/-- The parts of a specifier make up its text: what stands behind the slash after the name is the
path in the package, and no path when it is empty. -/
theorem text_of_package {text name : String} {subpath : Option String}
    (h : ofText text = .package name subpath) :
    (text = name ∧ subpath = none) ∨ (text = name ++ "/" ∧ subpath = none) ∨
      ∃ path, path ≠ "" ∧ subpath = some path ∧ text = name ++ "/" ++ path := by
  obtain ⟨-, -, hname, hsubpath⟩ := ofText_eq_package_iff.mp h
  cases hrest : (splitPackage text.toList).2 with
  | none =>
      left
      rw [splitPackage_fst_of_none hrest, String.ofList_toList] at hname
      rw [hrest] at hsubpath
      exact ⟨hname, hsubpath.symm⟩
  | some rest =>
      obtain ⟨htext, -⟩ := splitPackage_eq_some (Prod.ext rfl hrest)
      have hwhole : text = name ++ "/" ++ String.ofList rest := by
        apply String.toList_injective
        rw [htext, ← hname]
        simp
      rw [hrest] at hsubpath
      right
      cases rest with
      | nil => exact .inl ⟨by simpa using hwhole, hsubpath.symm⟩
      | cons c rest => exact .inr ⟨String.ofList (c :: rest), by simp, hsubpath.symm, hwhole⟩

/-! ## Precise texts -/

/-- A precise text begins with a segment that is not empty and a slash. After a scope sign, the rest
of the segment and a second one with its slash have to follow. -/
theorem isPrecise_iff {text : String} : isPrecise text ↔
    ∃ c front behind, Text.cut? '/' text.toList = some (c :: front, behind) ∧
      (c = '@' → front ≠ [] ∧
        ∃ inner more, inner ≠ [] ∧ Text.cut? '/' behind = some (inner, more)) := by
  unfold isPrecise
  split
  · rename_i rest htext
    rw [htext]
    cases hrest : Text.cut? '/' rest with
    | none => simp [Text.cut?, hrest]
    | some parts =>
        obtain ⟨front, behind⟩ := parts
        cases front with
        | nil => simp [Text.cut?, hrest]
        | cons d front =>
            cases hbehind : Text.cut? '/' behind with
            | none => simp [Text.cut?, hrest, hbehind]
            | some parts =>
                obtain ⟨inner, more⟩ := parts
                cases inner <;> simp [Text.cut?, hrest, hbehind]
  · rename_i hplain
    have hhead : ∀ c front behind, Text.cut? '/' text.toList = some (c :: front, behind) →
        c ≠ '@' := by
      intro c front behind hcut hc
      rw [(Text.cut?_eq_some_iff.mp hcut).2, hc] at hplain
      exact hplain _ rfl
    cases hcut : Text.cut? '/' text.toList with
    | none => simp
    | some parts =>
        obtain ⟨front, behind⟩ := parts
        cases front with
        | nil => simp
        | cons c front => simp [hhead c front behind hcut]

/-- A slash that ends a package name makes a text precise when the segments in front are those of a
name. -/
theorem isPrecise_of_isPinned {text : String} (h : isPinned text)
    (hs : ∀ segment ∈ (Text.split '/' text).dropLast, segment ≠ "" ∧ segment ≠ "@") :
    isPrecise text := by
  have hwords : ∀ word ∈ (Text.pieces '/' text.toList).dropLast, word ≠ [] ∧ word ≠ ['@'] := by
    intro word hword
    have hsegment : String.ofList word ∈ (Text.split '/' text).dropLast := by
      rw [Text.split, ← List.map_dropLast]
      exact List.mem_map_of_mem hword
    obtain ⟨hne, hat⟩ := hs _ hsegment
    constructor
    · rintro rfl
      exact hne rfl
    · rintro rfl
      exact hat rfl
  obtain ⟨name, rest, hsplit⟩ := isPinned_iff.mp h
  cases hcut : Text.cut? '/' text.toList with
  | none =>
      rw [splitPackage_of_not_mem (Text.cut?_eq_none_iff.mp hcut)] at hsplit
      cases hsplit
  | some parts =>
      obtain ⟨front, behind⟩ := parts
      rw [Text.dropLast_pieces_of_cut hcut] at hwords
      obtain ⟨⟨hne, hat⟩, hbehind⟩ := List.forall_mem_cons.mp hwords
      obtain ⟨c, front, rfl⟩ := List.exists_cons_of_ne_nil hne
      refine isPrecise_iff.mpr ⟨c, front, behind, hcut, ?_⟩
      rintro rfl
      refine ⟨fun hnil => hat (by rw [hnil]), ?_⟩
      -- The slash that ends a scoped name is the second one.
      have hscoped : text.toList.head? = some '@' := by
        rw [(Text.cut?_eq_some_iff.mp hcut).2]
        rfl
      rw [splitPackage_of_scoped hscoped hcut] at hsplit
      cases hname : Text.cut? '/' behind with
      | none => simp [hname] at hsplit
      | some parts =>
          obtain ⟨inner, more⟩ := parts
          rw [Text.dropLast_pieces_of_cut hname] at hbehind
          exact ⟨inner, more, (hbehind inner List.mem_cons_self).1, rfl⟩

end Specifier

namespace Resolver

open Specifier (ofText packageName? isPrecise)

variable {σ : Type} [Files σ] {files : σ} {options : ResolveOptions} {root : Path}

/-! ## Where a package is looked for -/

/-- The directories where a package is looked for from a root, in order. -/
def candidates (root : Path) (name : String) : List Path :=
  root.ancestors.map fun dir => (dir.join "node_modules").join ⟨name⟩

/-- The first of the directories that stands decides where a specifier leads for a resolver without
memory: a template to a path in it, a literal to a file that is found from there, unless that search
fails. When none stands, the package is missing. -/
structure LooksIn (files : σ) (options : ResolveOptions) (root : Path) (dirs : List Path)
    (specifier : String) (template : Bool) : Prop where
  missing : dirs.find? (Files.isDir files ·) = none →
    answer files options root specifier template = .ok .notInstalled
  found : ∀ dir, dirs.find? (Files.isDir files ·) = some dir →
    if template then
      ∃ rest, answer files options root specifier template = .ok (.external (dir.join rest))
    else
      (∃ subpath file, findLiteral files options dir subpath = .ok (some file) ∧
        answer files options root specifier template = .ok (.external file)) ∨
      ∃ e, answer files options root specifier template = .error e

/-- What is looked for at all is looked for under the name that the specifier names. -/
theorem looksIn_candidates {specifier name : String} {template : Bool}
    (hn : packageName? specifier = some name)
    (hp : (template && !isPrecise specifier) = false) (files : σ) (options : ResolveOptions)
    (root : Path) : LooksIn files options root (candidates root name) specifier template := by
  obtain ⟨subpath, hs⟩ := Specifier.exists_ofText hn
  have hanswer := (answer_of_package hs hp root : answer files options root _ _ = _)
  constructor
  · intro hnone
    rw [hanswer, search]
    simp only [packageDir?]
    rw [show root.ancestors.map _ = candidates root name from rfl, hnone]
  · intro dir hdir
    have hfound : packageDir? files root name = some dir := hdir
    rw [hanswer, search, hfound]
    cases template with
    | true => exact ⟨_, rfl⟩
    | false =>
        simp only [Bool.false_eq_true, if_false]
        cases hf : findLiteral files options dir subpath with
        | error e => exact .inr ⟨e, rfl⟩
        | ok file? =>
            cases file? with
            | none => exact .inr ⟨_, rfl⟩
            | some file => exact .inl ⟨subpath, file, hf, rfl⟩

/-- A package is missing exactly when none of the directories stands. -/
theorem LooksIn.missing_iff {dirs : List Path} {specifier : String} {template : Bool}
    (h : LooksIn files options root dirs specifier template) :
    answer files options root specifier template = .ok .notInstalled ↔
      dirs.find? (Files.isDir files ·) = none := by
  constructor
  · intro hmissing
    by_contra hne
    obtain ⟨dir, hdir⟩ := Option.ne_none_iff_exists'.mp hne
    have hfound := h.found dir hdir
    rw [hmissing] at hfound
    cases template <;> simp at hfound
  · exact h.missing

/-- A specifier is the name of its package, with a slash or a path behind it. When a text that names
a package is precise, whatever begins with it names that package, and is looked for in the same
directories. When it is not, and no segment in front is empty or a bare scope sign, some way to go
on with it names no package, or some two ways name different ones. -/
theorem precise_decides_package {text name : String} {subpath : Option String}
    (h : ofText text = .package name subpath) :
    ((text = name ∧ subpath = none) ∨ (text = name ++ "/" ∧ subpath = none) ∨
      ∃ path, path ≠ "" ∧ subpath = some path ∧ text = name ++ "/" ++ path) ∧
    (isPrecise text → ∀ more : String,
      (∃ subpath', ofText (text ++ more) = .package name subpath') ∧
      ∀ {σ : Type} [Files σ] (files : σ) (options : ResolveOptions) (root : Path),
        LooksIn files options root (candidates root name) text true ∧
        LooksIn files options root (candidates root name) (text ++ more) false ∧
        (answer files options root text true = .ok .notInstalled ↔
          answer files options root (text ++ more) false = .ok .notInstalled)) ∧
    (¬ isPrecise text →
      (∀ segment ∈ (Text.split '/' text).dropLast, segment ≠ "" ∧ segment ≠ "@") →
      (∃ more : String, packageName? (text ++ more) = none) ∨
      ∃ more more' one other : String, packageName? (text ++ more) = some one ∧
        packageName? (text ++ more') = some other ∧ one ≠ other) := by
  have hname := Specifier.packageName?_of_ofText h
  refine ⟨Specifier.text_of_package h, fun hprecise more => ?_, fun himprecise hsegments => ?_⟩
  · have hmore : packageName? (text ++ more) = some name := by
      rw [Specifier.packageName?_append (Specifier.isPinned_of_isPrecise hprecise), hname]
    refine ⟨Specifier.exists_ofText hmore, fun {σ} _ files options root => ?_⟩
    have hleading : LooksIn files options root (candidates root name) text true :=
      looksIn_candidates hname (by simp [hprecise]) files options root
    have hwhole : LooksIn files options root (candidates root name) (text ++ more) false :=
      looksIn_candidates hmore rfl files options root
    exact ⟨hleading, hwhole, hleading.missing_iff.trans hwhole.missing_iff.symm⟩
  · have hopen : Specifier.isPinned text = false := by
      by_contra hpinned
      exact himprecise (Specifier.isPrecise_of_isPinned (by simpa using hpinned) hsegments)
    obtain ⟨more, hother⟩ := Specifier.exists_completion hopen [name]
    cases hmore : packageName? (text ++ more) with
    | none => exact .inl ⟨more, hmore⟩
    | some other =>
        refine .inr ⟨"", more, name, other, by rw [String.append_empty, hname], hmore, ?_⟩
        rintro rfl
        exact hother name hmore (List.mem_singleton_self name)

/-- With the slash behind it, a name stays what it is. With a scope alone, it is still open. -/
theorem slash_decides_package :
    (ofText "lodash/" = .package "lodash" none ∧ isPrecise "lodash/" ∧
      ∀ more, ∃ subpath, ofText ("lodash/" ++ more) = .package "lodash" subpath) ∧
    ofText "@scope/" = .package "@scope/" none ∧ ¬ isPrecise "@scope/" ∧
      ((∃ more : String, packageName? ("@scope/" ++ more) = none) ∨
        ∃ more more' one other : String, packageName? ("@scope/" ++ more) = some one ∧
          packageName? ("@scope/" ++ more') = some other ∧ one ≠ other) := by
  have hlodash : ofText "lodash/" = .package "lodash" none := by decide +kernel
  have hscope : ofText "@scope/" = .package "@scope/" none := by decide +kernel
  have hprecise : isPrecise "lodash/" := by decide +kernel
  have himprecise : ¬ isPrecise "@scope/" := by decide +kernel
  refine ⟨⟨hlodash, hprecise, fun more => ?_⟩, hscope, himprecise, ?_⟩
  · exact ((precise_decides_package hlodash).2.1 hprecise more).1
  · exact (precise_decides_package hscope).2.2 himprecise (by decide +kernel)

end Resolver

end VendorBundle
