import VendorBundle.Proofs.Bundle.Accepted
import VendorBundle.Proofs.Text.Specifier

/-!
# Packages that are left alone

An import is left out by the package that its text names, before aliases are applied and, for a
template, before the name is known to be whole. The importers of a plan are exactly the others that
lead to an installed package. So the list of excluded packages is exact when no alias of an import
that remains leads to an excluded package, and no template is left out whose leading text is open.
-/

namespace VendorBundle

open Effect
open Resolver (AnswersByPlace answer)

namespace Import

/-- The text that tells the package of an import. -/
def text : Import → String
  | literal i => i.specifier
  | template i => i.leadingText

def isTemplate : Import → Bool
  | literal _ => false
  | template _ => true

/-- The import leads to a package that is to be left alone. -/
def leadsToExcluded (i : Import) : Bool :=
  i.site.package.excludes (i.site.package.replaceAlias i.text)

/-- The import leads to an installed package for a resolver without memory. -/
def isInstalled {σ : Type} [Files σ] (files : σ) (options : ResolveOptions) (i : Import) : Bool :=
  Split.Resolved.isExternal ⟨i, answer files options i.site.package.root
    (i.site.package.replaceAlias i.text) i.isTemplate⟩

end Import

namespace BundlePlan

/-- The imports that ask for what the bundles hold. -/
def importers (plan : BundlePlan) : List Import :=
  ((plan.groups (·.staticImports) ++ plan.groups (·.dynamicImports)).flatMap
    (·.importers)).map .literal ++
      ((plan.groups (·.templateImports)).flatMap (·.importers)).map .template

/-- Nothing is bundled for an import that leads to an excluded package, and a template is left out
for its leading text only if every text that begins with it names an excluded package. -/
structure ExcludesExactly (imports : List Import) (plan : BundlePlan) : Prop where
  kept : ∀ i ∈ plan.importers, ¬ i.leadsToExcluded
  left : ∀ i : TemplateImport, .template i ∈ imports →
    i.site.package.excludes i.leadingText → i.site.package.ExcludesAll i.leadingText

end BundlePlan

section

variable {σ : Type} [Files σ] {files : σ} {options : ResolveOptions} {policy : BundlePolicy}
  {imports : List Import} {plan : BundlePlan}

/-- The bundles together hold the imports that they are faithful to. -/
theorem BundlePlan.Faithful.perm_importers {ls : List LiteralImport} {ts : List TemplateImport}
    (h : plan.Faithful policy ls ts) :
    plan.importers.Perm (ls.map .literal ++ ts.map .template) := by
  have hliterals : ((plan.groups (·.staticImports) ++ plan.groups (·.dynamicImports)).flatMap
      (·.importers)).Perm ls := by
    rw [List.flatMap_append]
    refine (h.statics.grouped.once.append h.dynamics.grouped.once).trans ?_
    refine List.perm_append_comm.trans ?_
    exact List.filter_append_perm (·.isDynamic) ls
  exact (hliterals.map _).append (h.templates.grouped.once.map _)

/-- The imports that ask for what a plan holds are exactly those that lead to an installed package
and whose text names no excluded one. -/
theorem BundlePlan.Splits.mem_importers_iff (ha : AnswersByPlace files options)
    (h : plan.Splits files options policy imports) {i : Import} :
    i ∈ plan.importers ↔ i ∈ imports ∧ Split.isIncluded i ∧ i.isInstalled files options := by
  obtain ⟨ls, ts, hls, hts, hfaithful⟩ := h
  rw [hfaithful.perm_importers.mem_iff, hls.externals_eq ha, hts.externals_eq ha]
  cases i with
  | literal i =>
      simp [Split.mem_includedLiterals, Split.isIncluded, Import.isInstalled, Import.site,
        Import.text, Import.isTemplate, Split.literals, Split.Resolved.isExternal, and_assoc]
  | template i =>
      simp [Split.mem_includedTemplates, Split.isIncluded, Import.isInstalled, Import.site,
        Import.text, Import.isTemplate, Split.templates, Split.Resolved.isExternal, and_assoc]

theorem BundlePlan.Splits.exclusion_iff (ha : AnswersByPlace files options)
    (h : plan.Splits files options policy imports) :
    plan.ExcludesExactly imports ↔
      (∀ i ∈ imports, Split.isIncluded i → i.isInstalled files options → ¬ i.leadsToExcluded) ∧
      ∀ i : TemplateImport, .template i ∈ imports → i.site.package.excludes i.leadingText →
        Specifier.isPinned i.leadingText := by
  constructor
  · intro hexact
    refine ⟨fun i hi hincluded hinstalled => ?_, fun i hi hexcluded => ?_⟩
    · exact hexact.kept i ((h.mem_importers_iff ha).mpr ⟨hi, hincluded, hinstalled⟩)
    · exact (Package.excludesAll_iff.mp (hexact.left i hi hexcluded)).2
  · rintro ⟨hkept, hleft⟩
    refine ⟨fun i hi => ?_, fun i hi hexcluded => ?_⟩
    · obtain ⟨himport, hincluded, hinstalled⟩ := (h.mem_importers_iff ha).mp hi
      exact hkept i himport hincluded hinstalled
    · exact Package.excludesAll_iff.mpr ⟨hexcluded, hleft i hi hexcluded⟩

end

namespace Splitter

/-- The list of excluded packages is exact for a plan exactly when no import that remains leads to
an excluded package, and a slash ends the package name of each template that is left out. -/
theorem Run.excludesExactly_iff {σ : Type} [Files σ] {files : σ} {options : ResolveOptions}
    {policy : BundlePolicy} {content : Nat → List Import} {s : Splitter}
    {lists : List (Shared (List Import))} (ha : AnswersByPlace files options)
    (h : Run files options policy content s) (hl : Known content lists)
    {shared : Shared BundlePlan}
    (ho : (outcome (Splitter.plan files lists) s).1 = .ok shared) :
    shared.value.ExcludesExactly (lists.flatMap (·.value)) ↔
      (∀ i ∈ lists.flatMap (·.value), Split.isIncluded i → i.isInstalled files options →
        ¬ i.leadsToExcluded) ∧
      ∀ i : TemplateImport, .template i ∈ lists.flatMap (·.value) →
        i.site.package.excludes i.leadingText → Specifier.isPinned i.leadingText :=
  ((h.sound.plan hl).2 shared ho).exclusion_iff ha

namespace OnePackage

/-- There are no aliases, and no template is left out. -/
theorem split_excludesExactly :
    (outcome (Splitter.plan installed found) started).1 = .ok ⟨1, split⟩ ∧
      split.ExcludesExactly (found.flatMap (·.value)) := by
  have hrun : Run installed {} .standard (fun _ => imports) started := .new .new
  have hknown : Known (fun _ => imports) found := known_singleton _
  obtain ⟨s, ho⟩ := plan_started
  have hplan : (outcome (Splitter.plan installed found) started).1 = .ok ⟨1, split⟩ := by rw [ho]
  refine ⟨hplan, (hrun.excludesExactly_iff (Resolver.answersByPlace installed {}) hknown
    hplan).mpr ⟨by decide +kernel, fun i hi hexcluded => ?_⟩⟩
  obtain rfl : i = ⟨["x/", ".js"], [none], site "tests/a.js"⟩ := by simpa [found, imports] using hi
  exact absurd hexcluded (by decide +kernel)

end OnePackage

/-! ## An alias and an open name -/

namespace Aliased

def installed : Memory :=
  (Memory.empty ⟨"/"⟩).addFile ⟨"/app/node_modules/lodash-es/index.js"⟩ "".toUTF8

theorem exists_ok {ε α : Type} {x : Except ε α} (h : x.toOption.isSome) : ∃ a, x = .ok a := by
  cases x with
  | ok a => exact ⟨a, rfl⟩
  | error e => cases h

/-- The package that is to be left alone is imported under another name. -/
def literal : LiteralImport where
  specifier := "lodash"
  isDynamic := false
  site := {
    file := "a.js"
    package := {
      name := "app", root := ⟨"/app"⟩, aliases := Table.ofList [("lodash", "lodash-es")]
      exclude := ["lodash-es"] } }

/-- The name that the template begins with is open. -/
def template : TemplateImport where
  texts := ["lodash", ""]
  hints := [none]
  site := {
    file := "a.js"
    package := { name := "app", root := ⟨"/app"⟩, exclude := ["lodash"] } }

def started : Splitter := { policy := .standard, resolver := { options := {} } }

def aliased : List (Shared (List Import)) := [⟨1, [.literal literal]⟩]

def opened : List (Shared (List Import)) := [⟨1, [.template template]⟩]

/-- The excluded package is bundled under the other name. And the template is left out, though it
may name another package in the end. -/
theorem excludes_inexactly :
    (∃ plan, (outcome (Splitter.plan installed aliased) started).1 = .ok plan ∧
      .literal literal ∈ plan.value.importers ∧ (Import.literal literal).leadsToExcluded) ∧
    ∃ plan, (outcome (Splitter.plan installed opened) started).1 = .ok plan ∧
      template.site.package.excludes template.leadingText ∧
      ¬ template.site.package.excludes (template.leadingText ++ "-es/map.js") := by
  have hfacts : (outcome (Splitter.plan installed aliased) started).1.toOption.isSome ∧
      (outcome (Splitter.plan installed opened) started).1.toOption.isSome ∧
      Split.isIncluded (.literal literal) ∧
      (Import.literal literal).isInstalled installed {} := by decide +kernel
  obtain ⟨haliased, hopened, hincluded, hinstalled⟩ := hfacts
  constructor
  · obtain ⟨plan, ho⟩ := exists_ok haliased
    have hrun : Run installed {} .standard (fun _ => [.literal literal]) started := .new .new
    have hknown : Known (fun _ => [.literal literal]) aliased := known_singleton _
    have hsplits := (hrun.sound.plan hknown).2 plan ho
    exact ⟨plan, ho, (hsplits.mem_importers_iff (Resolver.answersByPlace installed {})).mpr
      ⟨by simp [aliased], hincluded, hinstalled⟩, by decide +kernel⟩
  · obtain ⟨plan, ho⟩ := exists_ok hopened
    exact ⟨plan, ho, by decide +kernel, by decide +kernel⟩

end Aliased

end Splitter

end VendorBundle
