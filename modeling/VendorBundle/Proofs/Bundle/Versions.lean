import VendorBundle.Proofs.Bundle.Accepted
import VendorBundle.Proofs.Resolver.Nearest

/-!
# Two installed versions of a package

Imports of one specifier have no plan when they lead into the directories of two versions of a
package and these directories decide on the versions of their entry files. With manifests of its own
between the two, an entry file may bear another version than the package it belongs to.
-/

namespace VendorBundle

open Effect
open Resolver (AnswersByPlace Declares Governs ManifestsByPlace answer)

namespace Splitter

/-- Two versions of a package are not merged under one specifier. -/
theorem Run.keeps_versions_apart {σ : Type} [Files σ] {files : σ} {options : ResolveOptions}
    {policy : BundlePolicy} {content : Nat → List Import} {s : Splitter}
    {lists : List (Shared (List Import))} (hm : ManifestsByPlace files)
    (ha : AnswersByPlace files options) (h : Run files options policy content s)
    (hl : Known content lists) {i j : LiteralImport}
    (hi : .literal i ∈ lists.flatMap (·.value)) (hj : .literal j ∈ lists.flatMap (·.value))
    (hni : i.site.package.excludes i.specifier = false)
    (hnj : j.site.package.excludes j.specifier = false) (hs : i.specifier = j.specifier)
    {p q dir dir' : Path} {v w : String}
    (hp : answer files options i.site.package.root (i.site.package.replaceAlias i.specifier) false =
      .ok (.external p))
    (hq : answer files options j.site.package.root (j.site.package.replaceAlias j.specifier) false =
      .ok (.external q))
    (hdir : Governs files dir p) (hdir' : Governs files dir' q) (hv : Declares files dir v)
    (hw : Declares files dir' w) (hne : v ≠ w) :
    ∃ e, (outcome (Splitter.plan files lists) s).1 = .error e := by
  have hversions := hm.versionsByPlace
  obtain ⟨as, bs, has, -, hdecides⟩ := h.decides hversions hl
  have hi : i ∈ Split.includedLiterals (lists.flatMap (·.value)) :=
    Split.mem_includedLiterals.mpr ⟨hi, by simp [Split.isIncluded, hni]⟩
  have hj : j ∈ Split.includedLiterals (lists.flatMap (·.value)) :=
    Split.mem_includedLiterals.mpr ⟨hj, by simp [Split.isIncluded, hnj]⟩
  obtain ⟨p', hpc, hpmem⟩ := has.exists_sighted ha hi hp
  obtain ⟨q', hqc, hqmem⟩ := has.exists_sighted ha hj hq
  cases ho : (outcome (Splitter.plan files lists) s).1 with
  | error e => exact ⟨e, rfl⟩
  | ok plan =>
      rw [ho] at hdecides
      cases hdecides with
      | plan hplanned =>
          have hsame := hplanned.literals.agree _ hpmem _ hqmem hs
          have hpq : Split.SameVersion files p q :=
            Split.SameVersion.trans hversions (.inl hpc) (hsame.trans hversions (.inl hqc.symm))
          have hqv := hpq.version_eq hversions (hv.searchVersion_eq hm hdir)
          exact absurd (Except.ok.inj (hqv.symm.trans (hw.searchVersion_eq hm hdir'))) hne

namespace TwoVersions

/-- Each of the two packages decides on the version of its entry file. -/
theorem governs_index : Governs installed ⟨"/a/node_modules/x"⟩ ⟨"/a/node_modules/x/index.js"⟩ ∧
    Governs installed ⟨"/b/node_modules/x"⟩ ⟨"/b/node_modules/x/index.js"⟩ := by
  have hm := Resolver.manifestsByPlace installed
  constructor
  · exact Resolver.governs_of_child hm (c := .name "index.js") (by decide +kernel)
      (by decide +kernel) (by decide +kernel)
  · exact Resolver.governs_of_child hm (c := .name "index.js") (by decide +kernel)
      (by decide +kernel) (by decide +kernel)

/-- The two packages declare different versions, and the imports lead to their entry files. -/
theorem installed_declares : Declares installed ⟨"/a/node_modules/x"⟩ "1" ∧
    Declares installed ⟨"/b/node_modules/x"⟩ "2" ∧
    answer installed {} ⟨"/a"⟩ "x" false = .ok (.external ⟨"/a/node_modules/x/index.js"⟩) ∧
    answer installed {} ⟨"/b"⟩ "x" false = .ok (.external ⟨"/b/node_modules/x/index.js"⟩) := by
  decide +kernel

theorem installed_keeps_versions_apart :
    (Declares installed ⟨"/a/node_modules/x"⟩ "1" ∧ Declares installed ⟨"/b/node_modules/x"⟩ "2") ∧
      ∃ e, (outcome (Splitter.plan installed lists) started).1 = .error e := by
  have hknown : Known (fun _ => [.literal (literal "a"), .literal (literal "b")]) lists :=
    known_singleton _
  have hrun : Run installed {} .standard (fun _ => [.literal (literal "a"), .literal (literal "b")])
      started := .new .new
  obtain ⟨hv, hw, hp, hq⟩ := installed_declares
  refine ⟨⟨hv, hw⟩, ?_⟩
  have hi : .literal (literal "a") ∈ lists.flatMap (·.value) := by simp [lists]
  have hj : .literal (literal "b") ∈ lists.flatMap (·.value) := by simp [lists]
  exact hrun.keeps_versions_apart (Resolver.manifestsByPlace installed)
    (Resolver.answersByPlace installed {}) hknown hi hj (by decide +kernel) (by decide +kernel) rfl
    hp hq governs_index.1 governs_index.2 hv hw (by decide)

/-- The second package leaves the installed one alone. -/
def spared : List (Shared (List Import)) :=
  let site := (literal "b").site
  let package := { site.package with exclude := ["x"] }
  [⟨1, [.literal (literal "a"), .literal { literal "b" with site := { site with package } }]⟩]

end TwoVersions

/-! ## Manifests inside of a package -/

namespace NestedManifests

open TwoVersions (started)

/-- Each of two packages has its own version of a package installed. In both, a directory of the
installed package has a manifest with a version of its own. -/
def installed : Memory :=
  ((((((Memory.empty ⟨"/"⟩).addFile
    ⟨"/a/node_modules/x/package.json"⟩ "\x7b\"version\":\"1\"\x7d".toUTF8).addFile
    ⟨"/a/node_modules/x/es/package.json"⟩ "\x7b\"version\":\"0\"\x7d".toUTF8).addFile
    ⟨"/a/node_modules/x/es/index.js"⟩ "".toUTF8).addFile
    ⟨"/b/node_modules/x/package.json"⟩ "\x7b\"version\":\"2\"\x7d".toUTF8).addFile
    ⟨"/b/node_modules/x/es/package.json"⟩ "\x7b\"version\":\"0\"\x7d".toUTF8).addFile
    ⟨"/b/node_modules/x/es/index.js"⟩ "".toUTF8

def literal (package : String) : LiteralImport :=
  { TwoVersions.literal package with specifier := "x/es/index.js" }

def lists : List (Shared (List Import)) :=
  [⟨1, [.literal (literal "a"), .literal (literal "b")]⟩]

/-- Between a directory and its entry file another manifest decides. And an import that its package
leaves alone is not compared. -/
theorem nested_and_spared_merged :
    (Declares installed ⟨"/a/node_modules/x"⟩ "1" ∧ Declares installed ⟨"/b/node_modules/x"⟩ "2" ∧
      answer installed {} ⟨"/a"⟩ "x/es/index.js" false =
        .ok (.external ⟨"/a/node_modules/x/es/index.js"⟩) ∧
      answer installed {} ⟨"/b"⟩ "x/es/index.js" false =
        .ok (.external ⟨"/b/node_modules/x/es/index.js"⟩) ∧
      (outcome (Splitter.plan installed lists) started).1.toOption.isSome) ∧
    Declares TwoVersions.installed ⟨"/a/node_modules/x"⟩ "1" ∧
      Declares TwoVersions.installed ⟨"/b/node_modules/x"⟩ "2" ∧
      answer TwoVersions.installed {} ⟨"/a"⟩ "x" false =
        .ok (.external ⟨"/a/node_modules/x/index.js"⟩) ∧
      answer TwoVersions.installed {} ⟨"/b"⟩ "x" false =
        .ok (.external ⟨"/b/node_modules/x/index.js"⟩) ∧
      (outcome (Splitter.plan TwoVersions.installed TwoVersions.spared)
        started).1.toOption.isSome := by
  obtain ⟨hv, hw, hp, hq⟩ := TwoVersions.installed_declares
  exact ⟨by decide +kernel, hv, hw, hp, hq, by decide +kernel⟩

end NestedManifests

end Splitter

end VendorBundle
