import VendorBundle.Proofs.Bundle.Excluded
import VendorBundle.Proofs.Bundle.Gathered
import VendorBundle.Proofs.Bundle.InTurn

/-!
# Answers that make the same plan

A plan is a function of where the imports lead and of the versions that are told. So a resolver that
remembers answers from other days makes the plan of a new one exactly when it takes the same imports
for installed, leads the first of each key to the same place and tells versions that go together.
-/

namespace VendorBundle

open Effect
open List (Forall₂)
open Resolver (AnswersByPlace Echoes Question VersionsMatch)

/-! ## Plans by answers -/

/-- What is asked for an import. -/
def Import.question (i : Import) : Question :=
  ⟨i.site.package.root, i.site.package.replaceAlias i.text, i.isTemplate⟩

/-- Where an import leads for a resolver with its memory as it is. -/
def Resolver.leads {σ : Type} [Files σ] (files : σ) (r : Resolver) (i : Import) :
    Except ResolveError Target :=
  r.gives files i.question

namespace Split

variable {α : Type}

/-- Some imports with where each of them leads. -/
def resolvedBy (target : α → Except ResolveError Target) (imports : List α) : List (Resolved α) :=
  imports.map fun i => ⟨i, target i⟩

/-- The groups of some imports, by where they lead and by versions that are told. -/
def groupBy (version : Path → Except ResolveError String) (kind : Kind α)
    (target : α → Except ResolveError Target) (imports : List α) :
    Except SplitError (List (ImportGroup α)) :=
  (resolvedBy target imports).foldlM (takeBy version kind) []

def planBy (version : Path → Except ResolveError String)
    (leads : Import → Except ResolveError Target) (policy : BundlePolicy) (imports : List Import) :
    Except SplitError BundlePlan := do
  let ls ← groupBy version literals (fun i => leads (.literal i)) (includedLiterals imports)
  let ts ← groupBy version templates (fun i => leads (.template i)) (includedTemplates imports)
  assignAll policy ls ts

theorem matches_foldlM_takeBy {version version' : Path → Except ResolveError String}
    (hv : ∀ p q, p.components = q.components →
      Matches ResolveError.Same Eq (version p) (version' q)) {kind : Kind α}
    (hk : kind.TakesExternal) {as bs : List (Resolved α)}
    (h : Forall₂ (fun a b => a.i = b.i ∧ Matches Eq Target.Same a.target b.target) as bs)
    {gs hs : List (ImportGroup α)} (hg : Forall₂ ImportGroup.Same gs hs) :
    Matches SplitError.Same (Forall₂ ImportGroup.Same) (as.foldlM (takeBy version kind) gs)
      (bs.foldlM (takeBy version' kind) hs) := by
  induction h generalizing gs hs with
  | nil => exact .ok hg
  | @cons a b as bs hab _ ih =>
      obtain ⟨i, target⟩ := a
      obtain ⟨j, target'⟩ := b
      obtain ⟨rfl, htarget⟩ := hab
      rw [List.foldlM_cons, List.foldlM_cons]
      exact (matches_takeBy hv hk hg htarget).bind fun _ _ hgs => ih hgs

section

variable {σ : Type} [Files σ] {files : σ} {kind : Kind α} {specifier : α → String}
  {template : Bool} {r r₀ : Resolver}

/-- Groups depend on the answers that the resolver gave in the beginning. -/
theorem matches_group (ha : AnswersByPlace files r₀.options) (hv : VersionsMatch files)
    (hk : kind.TakesExternal) (specifier : α → String) (template : Bool) (imports : List α)
    (hr : Echoes files r₀ r) :
    Matches SplitError.Same (Forall₂ ImportGroup.Same)
        (outcome (group files kind specifier template imports) r).1
        (groupBy (r₀.tells files) kind
          (fun i => r₀.gives files (ask kind specifier template i)) imports) ∧
      Echoes files r₀ (outcome (group files kind specifier template imports) r).2 := by
  have har : AnswersByPlace files r.options := hr.options ▸ ha
  obtain ⟨hlearnt, -, hanswered⟩ := answered_resolveAll har kind specifier template
    (fun i hi => List.mem_map_of_mem hi) (.refl files r (imports.map _))
  have hechoes := hr.trans (hlearnt.echoes har)
  rw [outcome_group]
  generalize resolveAll files (fun i => (kind.site i).package) specifier template imports r =
    resolved at hanswered hechoes
  obtain ⟨as, r₁⟩ := resolved
  have htold := told_foldlM hv.byPlace kind as []
  refine ⟨?_, hechoes.trans (htold.echoes r₁)⟩
  rw [(htold r₁).1, hechoes.tells]
  refine matches_foldlM_takeBy (Resolver.matches_tells hv r₀) hk ?_ .nil
  refine List.forall₂_map_right_iff.mpr (List.Forall₂.flip (hanswered.imp fun i a hia => ?_))
  exact ⟨hia.1, hia.2.result.trans (fun h h' => h.trans h') (fun h h' => h.trans h') (hr.gives _)⟩

/-- What comes of making a plan depends on the answers that the resolver gave in the beginning. -/
theorem matches_planBy (hr : Echoes files r₀ r) (ha : AnswersByPlace files r₀.options)
    (hv : VersionsMatch files) (policy : BundlePolicy) (imports : List Import) :
    Matches SplitError.Same BundlePlan.Same (outcome (plan files policy imports) r).1
        (planBy (r₀.tells files) (r₀.leads files) policy imports) ∧
      Echoes files r₀ (outcome (plan files policy imports) r).2 := by
  obtain ⟨hliterals, hechoes⟩ := matches_group ha hv takesExternal_literals (·.specifier) false
    (includedLiterals imports) hr
  rw [plan, outcome_bind, planBy]
  generalize outcome (group files literals (·.specifier) false (includedLiterals imports)) r = found
    at hliterals hechoes ⊢
  obtain ⟨result, r₁⟩ := found
  change Matches _ _ result
    (groupBy (r₀.tells files) literals (fun i => r₀.leads files (.literal i)) _) at hliterals
  generalize groupBy (r₀.tells files) literals (fun i => r₀.leads files (.literal i)) _ = result'
    at hliterals ⊢
  cases hliterals with
  | error he => exact ⟨.error he, hechoes⟩
  | @ok ls ls' hls =>
      obtain ⟨htemplates, hechoes'⟩ := matches_group ha hv takesExternal_templates
        TemplateImport.leadingText true (includedTemplates imports) hechoes
      simp only [outcome_bind]
      generalize outcome (group files templates TemplateImport.leadingText true
        (includedTemplates imports)) r₁ = found at htemplates hechoes' ⊢
      obtain ⟨result, r₂⟩ := found
      change Matches _ _ result
        (groupBy (r₀.tells files) templates (fun i => r₀.leads files (.template i)) _) at htemplates
      change Matches _ _ _ (groupBy (r₀.tells files) templates
        (fun i => r₀.leads files (.template i)) _ >>= _) ∧ _
      generalize groupBy (r₀.tells files) templates (fun i => r₀.leads files (.template i)) _ =
        result' at htemplates ⊢
      cases htemplates with
      | error he => exact ⟨.error he, hechoes'⟩
      | ok hts =>
          simp only [outcome_look]
          exact ⟨(matches_assignAll policy hls hts).mono fun he => he ▸ .refl _, hechoes'⟩

end

/-! ## When there is a plan -/

variable {version version' : Path → Except ResolveError String} {policy : BundlePolicy}

/-- The entry files that imports lead to, in the order of discovery. -/
def seen (target : α → Except ResolveError Target) (imports : List α) : List (α × Path) :=
  sighted (resolvedBy target imports)

theorem map_fst_seen (target : α → Except ResolveError Target) (imports : List α) :
    (seen target imports).map (·.1) =
      imports.filter fun i => Resolved.isExternal ⟨i, target i⟩ := by
  rw [seen, map_fst_sighted, externals, resolvedBy, List.filter_map, List.map_map]
  exact List.map_id _

/-- Where imports lead makes groups: each may stand where it does and goes with the first of its
key. -/
structure Groups (version : Path → Except ResolveError String) (kind : Kind α)
    (target : α → Except ResolveError Target) (imports : List α) : Prop where
  taken : ∀ i ∈ imports, Resolved.Taken kind ⟨i, target i⟩
  coherent : Coherent version kind (seen target imports)

theorem groupBy_eq_ok_iff {kind : Kind α} (hk : kind.TakesExternal)
    {target : α → Except ResolveError Target} {imports : List α} {gs : List (ImportGroup α)} :
    groupBy version kind target imports = .ok gs ↔
      Groups version kind target imports ∧ gs = gathered kind (seen target imports) := by
  rw [groupBy, foldlM_takeBy_eq_ok_iff hk, resolvedBy, List.forall_mem_map]
  exact ⟨fun ⟨ht, hc, hg⟩ => ⟨⟨ht, hc⟩, hg⟩, fun ⟨⟨ht, hc⟩, hg⟩ => ⟨ht, hc, hg⟩⟩

variable {leads leads' : Import → Except ResolveError Target} {imports : List Import}

theorem planBy_eq_ok_iff {plan : BundlePlan} : planBy version leads policy imports = .ok plan ↔
    Groups version literals (fun i => leads (.literal i)) (includedLiterals imports) ∧
    Groups version templates (fun i => leads (.template i)) (includedTemplates imports) ∧
    assignAll policy (gathered literals (seen (fun i => leads (.literal i))
        (includedLiterals imports)))
      (gathered templates (seen (fun i => leads (.template i)) (includedTemplates imports))) =
        .ok plan := by
  simp only [planBy, bind_eq_ok_iff, groupBy_eq_ok_iff takesExternal_literals,
    groupBy_eq_ok_iff takesExternal_templates]
  constructor
  · rintro ⟨_, ⟨hl, rfl⟩, _, ⟨ht, rfl⟩, h⟩
    exact ⟨hl, ht, h⟩
  · rintro ⟨hl, ht, h⟩
    exact ⟨_, ⟨hl, rfl⟩, _, ⟨ht, rfl⟩, h⟩

/-! ## Answers that come to the same -/

/-- Two ways in which imports lead somewhere come to the same groups: they take the same imports for
installed, and lead the first of each key to the same place. -/
structure Concordant (kind : Kind α) (target target' : α → Except ResolveError Target)
    (imports : List α) : Prop where
  installed : ∀ i ∈ imports,
    Resolved.isExternal ⟨i, target' i⟩ = Resolved.isExternal ⟨i, target i⟩
  first : ∀ i ∈ imports, (leader? kind (seen target' imports) (kind.key i)).map Path.components =
    (leader? kind (seen target imports) (kind.key i)).map Path.components

theorem map_fst_seen_congr {target target' : α → Except ResolveError Target} {imports : List α}
    (h : ∀ i ∈ imports, Resolved.isExternal ⟨i, target' i⟩ = Resolved.isExternal ⟨i, target i⟩) :
    (seen target' imports).map (·.1) = (seen target imports).map (·.1) := by
  rw [map_fst_seen, map_fst_seen]
  exact List.filter_congr h

theorem mem_of_mem_seen {target : α → Except ResolveError Target} {imports : List α}
    {x : α × Path} (h : x ∈ seen target imports) : x.1 ∈ imports := by
  have hx := List.mem_map_of_mem (f := (·.1)) h
  rw [map_fst_seen] at hx
  exact List.mem_of_mem_filter hx

theorem Concordant.same {kind : Kind α} {target target' : α → Except ResolveError Target}
    {imports : List α} (h : Concordant kind target target' imports) :
    Forall₂ ImportGroup.Same (gathered kind (seen target' imports))
      (gathered kind (seen target imports)) :=
  same_gathered (map_fst_seen_congr h.installed) fun x hx => h.first x.1 (mem_of_mem_seen hx)

end Split

/-! ## What plans tell -/

namespace BundlePlan.Same

variable {plan plan' : BundlePlan}

theorem groups {α : Type} (h : plan.Same plan') {pick : BundleContents → List (ImportGroup α)}
    (hp : ∀ c d : BundleContents, c.Same d → Forall₂ ImportGroup.Same (pick c) (pick d)) :
    Forall₂ ImportGroup.Same (plan.groups pick) (plan'.groups pick) := by
  obtain ⟨bundles⟩ := plan
  obtain ⟨bundles'⟩ := plan'
  have hbundles : Forall₂ (fun a b : String × BundleContents => a.1 = b.1 ∧ a.2.Same b.2)
    bundles bundles' := h
  rw [BundlePlan.groups, BundlePlan.groups, parts, parts, List.flatMap_map, List.flatMap_map]
  clear h
  induction hbundles with
  | nil => exact .nil
  | cons hab _ ih =>
      rw [List.flatMap_cons, List.flatMap_cons]
      exact List.rel_append (hp _ _ hab.2) ih

theorem literals (h : plan.Same plan') : Forall₂ ImportGroup.Same
    (plan.groups (·.staticImports) ++ plan.groups (·.dynamicImports))
    (plan'.groups (·.staticImports) ++ plan'.groups (·.dynamicImports)) :=
  List.rel_append (h.groups fun _ _ h => h.staticImports) (h.groups fun _ _ h => h.dynamicImports)

theorem templates (h : plan.Same plan') : Forall₂ ImportGroup.Same
    (plan.groups (·.templateImports)) (plan'.groups (·.templateImports)) :=
  h.groups fun _ _ h => h.templateImports

theorem importers_eq (h : plan.Same plan') : plan.importers = plan'.importers := by
  have hflat : ∀ {α : Type} {gs hs : List (ImportGroup α)}, Forall₂ ImportGroup.Same gs hs →
      gs.flatMap (·.importers) = hs.flatMap (·.importers) := by
    intro α gs hs hg
    induction hg with
    | nil => rfl
    | @cons g g' gs hs hsame _ ih =>
        rw [List.flatMap_cons, List.flatMap_cons, ih, ImportGroup.importers, ImportGroup.importers,
          hsame.first, hsame.more]
  rw [importers, importers, hflat h.literals, hflat h.templates]

end BundlePlan.Same

namespace Split

variable {α : Type} {version version' : Path → Except ResolveError String} {policy : BundlePolicy}
  {leads leads' : Import → Except ResolveError Target} {imports : List Import}
  {plan plan' : BundlePlan}

/-- A plan is asked for by the imports that lead to an installed package and are not left alone. -/
theorem mem_importers_of_planBy (h : planBy version leads policy imports = .ok plan) {i : Import} :
    i ∈ plan.importers ↔
      i ∈ imports ∧ isIncluded i ∧ Resolved.isExternal ⟨i, leads i⟩ := by
  obtain ⟨-, -, hassign⟩ := planBy_eq_ok_iff.mp h
  have hfaithful := faithful_of_assignAll (grouped_gathered _ _) (grouped_gathered _ _) hassign
  rw [hfaithful.perm_importers.mem_iff, map_fst_seen, map_fst_seen]
  cases i with
  | literal i => simp [mem_includedLiterals, Resolved.isExternal, and_assoc]
  | template i => simp [mem_includedTemplates, Resolved.isExternal, and_assoc]

/-- Where plans are the same, the first import of each key leads to the same place. -/
theorem first_of_same {kind : Kind α} {xs ys : List (α × Path)}
    (hfst : xs.map (·.1) = ys.map (·.1)) {gs hs : List (ImportGroup α)}
    (h : Forall₂ ImportGroup.Same gs hs)
    (hgs : ∀ g' ∈ gs, ∃ g ∈ gathered kind xs, g'.key = g.key ∧ g'.entrypoint = g.entrypoint)
    (hhs : ∀ g' ∈ hs, ∃ g ∈ gathered kind ys, g'.key = g.key ∧ g'.entrypoint = g.entrypoint)
    (hall : ∀ g ∈ gathered kind xs, ∃ g' ∈ gs, g'.key = g.key) (key : String) :
    (leader? kind xs key).map Path.components = (leader? kind ys key).map Path.components := by
  cases hentry : leader? kind xs key with
  | none =>
      have hnone : leader? kind ys key = none := by
        refine leader?_eq_none_iff.mpr fun y hy hk => ?_
        have hmem : y.1 ∈ xs.map (·.1) := hfst ▸ List.mem_map_of_mem hy
        obtain ⟨x, hx, hxy⟩ := List.mem_map.mp hmem
        exact leader?_eq_none_iff.mp hentry x hx (hxy ▸ hk)
      rw [hnone]
  | some p =>
      obtain ⟨g, hg, rfl, -⟩ := exists_group_of_leader? hentry
      obtain ⟨g', hg', hkey⟩ := hall g hg
      obtain ⟨a, ha, hak, hae⟩ := hgs g' hg'
      obtain ⟨h', hmem, hsame⟩ := exists_related h hg'
      obtain ⟨b, hb, hbk, hbe⟩ := hhs h' hmem
      have hx := leader?_of_mem_gathered ha
      have hy := leader?_of_mem_gathered hb
      rw [← hak, ← hae, hkey, hentry] at hx
      rw [← hbk, ← hbe, ← hsame.key, hkey] at hy
      rw [hy, Option.map_some, Option.map_some, Option.some.inj hx,
        Path.same_iff.mp hsame.entrypoint]

theorem concordant_of_same (h : planBy version leads policy imports = .ok plan)
    (h' : planBy version' leads' policy imports = .ok plan') (hs : plan'.Same plan) :
    Concordant literals (fun i => leads (.literal i)) (fun i => leads' (.literal i))
        (includedLiterals imports) ∧
      Concordant templates (fun i => leads (.template i)) (fun i => leads' (.template i))
        (includedTemplates imports) := by
  have hinstalled : ∀ i ∈ imports, isIncluded i →
      Resolved.isExternal ⟨i, leads' i⟩ = Resolved.isExternal ⟨i, leads i⟩ := by
    intro i hi hincluded
    have hmem := mem_importers_of_planBy h (i := i)
    have hmem' := mem_importers_of_planBy h' (i := i)
    rw [hs.importers_eq] at hmem'
    exact Bool.eq_iff_iff.mpr ⟨fun he => (hmem.mp (hmem'.mpr ⟨hi, hincluded, he⟩)).2.2,
      fun he => (hmem'.mp (hmem.mpr ⟨hi, hincluded, he⟩)).2.2⟩
  obtain ⟨-, -, hassign⟩ := planBy_eq_ok_iff.mp h
  obtain ⟨-, -, hassign'⟩ := planBy_eq_ok_iff.mp h'
  have hliterals : ∀ i ∈ includedLiterals imports,
      Resolved.isExternal ⟨i, leads' (.literal i)⟩ = Resolved.isExternal ⟨i, leads (.literal i)⟩ :=
    fun i hi => hinstalled _ (mem_includedLiterals.mp hi).1 (mem_includedLiterals.mp hi).2
  have htemplates : ∀ i ∈ includedTemplates imports,
      Resolved.isExternal ⟨i, leads' (.template i)⟩ =
        Resolved.isExternal ⟨i, leads (.template i)⟩ :=
    fun i hi => hinstalled _ (mem_includedTemplates.mp hi).1 (mem_includedTemplates.mp hi).2
  refine ⟨⟨hliterals, fun i _ => ?_⟩, ⟨htemplates, fun i _ => ?_⟩⟩
  · exact first_of_same (map_fst_seen_congr hliterals) hs.literals
      (fun _ => exists_of_mem_literals hassign') (fun _ => exists_of_mem_literals hassign)
      (fun _ => exists_mem_literals hassign') _
  · obtain ⟨-, -, hperm⟩ := perm_groups_of_assignAll hassign
    obtain ⟨-, -, hperm'⟩ := perm_groups_of_assignAll hassign'
    exact first_of_same (map_fst_seen_congr htemplates) hs.templates
      (fun g hg => ⟨g, hperm'.mem_iff.mp hg, rfl, rfl⟩)
      (fun g hg => ⟨g, hperm.mem_iff.mp hg, rfl, rfl⟩)
      (fun g hg => ⟨g, hperm'.mem_iff.mpr hg, rfl⟩) _

/-- Answers make the plan that others make exactly when they make groups and come to the same. -/
theorem exists_same_iff (h : planBy version leads policy imports = .ok plan) :
    (∃ plan', planBy version' leads' policy imports = .ok plan' ∧ plan'.Same plan) ↔
      (Groups version' literals (fun i => leads' (.literal i)) (includedLiterals imports) ∧
        Concordant literals (fun i => leads (.literal i)) (fun i => leads' (.literal i))
          (includedLiterals imports)) ∧
      Groups version' templates (fun i => leads' (.template i)) (includedTemplates imports) ∧
        Concordant templates (fun i => leads (.template i)) (fun i => leads' (.template i))
          (includedTemplates imports) := by
  constructor
  · rintro ⟨plan', h', hs⟩
    obtain ⟨hliterals, htemplates⟩ := concordant_of_same h h' hs
    obtain ⟨hl, ht, -⟩ := planBy_eq_ok_iff.mp h'
    exact ⟨⟨hl, hliterals⟩, ht, htemplates⟩
  · rintro ⟨⟨hl, hliterals⟩, ht, htemplates⟩
    obtain ⟨-, -, hassign⟩ := planBy_eq_ok_iff.mp h
    obtain ⟨plan', hassign', hs⟩ :=
      (matches_assignAll policy hliterals.same htemplates.same).agree.of_ok_right hassign
    exact ⟨plan', planBy_eq_ok_iff.mpr ⟨hl, ht, hassign'⟩, hs⟩

/-- Two plans for the same imports are the same exactly when their answers come to the same. -/
theorem same_iff_concordant (h : planBy version leads policy imports = .ok plan)
    (h' : planBy version' leads' policy imports = .ok plan') : plan'.Same plan ↔
      Concordant literals (fun i => leads (.literal i)) (fun i => leads' (.literal i))
        (includedLiterals imports) ∧
      Concordant templates (fun i => leads (.template i)) (fun i => leads' (.template i))
        (includedTemplates imports) := by
  refine ⟨concordant_of_same h h', fun ⟨hliterals, htemplates⟩ => ?_⟩
  obtain ⟨hl, ht, -⟩ := planBy_eq_ok_iff.mp h'
  obtain ⟨made, hmade, hs⟩ := (exists_same_iff h).mpr ⟨⟨hl, hliterals⟩, ht, htemplates⟩
  exact Except.ok.inj (hmade.symm.trans h') ▸ hs

/-- Where all that is installed stays in its place, answers come to the same exactly when nothing
more is installed. -/
theorem concordant_iff_of_kept {kind : Kind α} {target target' : α → Except ResolveError Target}
    {imports : List α}
    (hk : ∀ i ∈ imports, Resolved.isExternal ⟨i, target i⟩ → target' i = target i) :
    Concordant kind target target' imports ↔
      ∀ i ∈ imports, Resolved.isExternal ⟨i, target' i⟩ → Resolved.isExternal ⟨i, target i⟩ := by
  constructor
  · intro h i hi he
    rwa [h.installed i hi] at he
  · intro h
    have hsighted : ∀ i ∈ imports, Resolved.isExternal ⟨i, target' i⟩ = Resolved.isExternal
        ⟨i, target i⟩ := by
      intro i hi
      refine Bool.eq_iff_iff.mpr ⟨h i hi, fun he => ?_⟩
      rwa [hk i hi he]
    have hseen : seen target' imports = seen target imports := by
      rw [seen, seen, sighted, sighted, resolvedBy, resolvedBy, List.filterMap_map,
        List.filterMap_map]
      refine List.filterMap_congr fun i hi => ?_
      by_cases he : Resolved.isExternal ⟨i, target i⟩
      · simp only [Function.comp_apply, hk i hi he]
      · have he' : ¬ Resolved.isExternal ⟨i, target' i⟩ := hsighted i hi ▸ he
        simp only [Function.comp_apply]
        split
        · next h => exact absurd (by rw [h]; rfl) he'
        · split
          · next h => exact absurd (by rw [h]; rfl) he
          · rfl
    exact ⟨hsighted, fun i _ => by rw [hseen]⟩

end Split

/-! ## What a resolver remembers -/

namespace Resolver

variable {α σ : Type} [Files σ] {files : σ} {options : ResolveOptions} {r r' : Resolver}

/-- A resolver that remembers of targets only the paths of entry files. -/
structure Regular (options : ResolveOptions) (r : Resolver) : Prop where
  uses : r.options = options
  external : ∀ key target, r.targets.lookup key = some target → ∃ path, target = .external path

theorem regular_create (options : ResolveOptions) : Regular options { options } :=
  ⟨rfl, fun _ _ h => absurd h nofun⟩

theorem Regular.resolve (h : Regular options r) (files : σ) (root : Path) (specifier : String)
    (template : Bool) : Regular options (r.resolve files root specifier template).2 := by
  obtain ⟨hr, -⟩ | ⟨path, -, hr⟩ := resolve_cases r files root specifier template
  · rw [hr]
    exact h
  · rw [hr]
    refine ⟨h.uses, fun key target hl => ?_⟩
    simp only [List.lookup_cons] at hl
    split at hl
    · exact ⟨path, (Option.some.inj hl).symm⟩
    · exact h.external key target hl

/-- An import leads where it leads for a new resolver, or to a path. -/
theorem Regular.leads_cases (h : Regular options r) (files : σ) (i : Import) :
    r.leads files i = leads files { options } i ∨
      ∃ path, r.leads files i = .ok (.external path) := by
  rw [leads, leads]
  by_cases hs : Searched i.question.specifier i.question.template
  · rw [gives_of_searched hs, gives_of_searched hs, h.uses]
    cases hl : r.targets.lookup i.question.key with
    | none => exact .inl rfl
    | some target =>
        obtain ⟨path, rfl⟩ := h.external _ _ hl
        exact .inr ⟨path, rfl⟩
  · rw [gives_of_not_searched hs files r options, gives_of_not_searched hs files _ options]
    exact .inl rfl

/-- What a resolver remembers makes no difference to some imports: it takes for installed what a new
one finds, leads the first of each key there, and tells of all of one key the same version. -/
structure Consistent (files : σ) (r : Resolver) (kind : Split.Kind α) (form : α → Import)
    (imports : List α) : Prop where
  concordant : Split.Concordant kind (fun i => leads files { options := r.options } (form i))
    (fun i => r.leads files (form i)) imports
  coherent : Split.Coherent (r.tells files) kind
    (Split.seen (fun i => r.leads files (form i)) imports)

end Resolver

namespace Split

open Resolver (Consistent Regular)

variable {α σ : Type} [Files σ] {files : σ} {options : ResolveOptions} {r : Resolver}

theorem regular_resolveAll (files : σ) (h : Regular options r) (package : α → Package)
    (specifier : α → String) (template : Bool) (imports : List α) :
    Regular options (resolveAll files package specifier template imports r).2 := by
  induction imports generalizing r with
  | nil => exact h
  | cons i imports ih => exact ih (h.resolve files _ _ _)

theorem regular_group (hv : Resolver.VersionsByPlace files) (h : Regular options r)
    (kind : Kind α) (specifier : α → String) (template : Bool) (imports : List α) :
    Regular options (outcome (group files kind specifier template imports) r).2 := by
  rw [outcome_group]
  obtain ⟨-, -, htargets, hoptions⟩ := told_foldlM hv kind _ [] _
  have hresolved := regular_resolveAll files h (fun i => (kind.site i).package) specifier
    template imports
  exact ⟨hoptions.trans hresolved.uses, fun key target hl =>
    hresolved.external key target (htargets ▸ hl)⟩

theorem regular_plan (hv : Resolver.VersionsByPlace files) (h : Regular options r)
    (policy : BundlePolicy) (imports : List Import) :
    Regular options (outcome (plan files policy imports) r).2 := by
  have hkeeps : ∀ {β : Type} (kind : Kind β) (specifier : β → String) (template : Bool) (imports),
      Keeps (fun r r' => Regular options r → Regular options r')
        (group files kind specifier template imports) :=
    fun kind specifier template imports r h => regular_group hv h kind specifier template imports
  exact Keeps.bind (fun h h' hr => h' (h hr)) (hkeeps _ _ _ _)
    (fun ls => Keeps.bind (fun h h' hr => h' (h hr)) (hkeeps _ _ _ _)
      fun ts => Keeps.look (fun _ h => h) _) r h

/-- A regular resolver makes groups of imports of which a new one does. -/
theorem groups_of_coherent (h : Regular options r) {kind : Kind α} (hk : kind.TakesExternal)
    {form : α → Import} {imports : List α} {version : Path → Except ResolveError String}
    (hfresh : Groups version kind (fun i => Resolver.leads files { options } (form i)) imports)
    (hc : Coherent (r.tells files) kind (seen (fun i => r.leads files (form i)) imports)) :
    Groups (r.tells files) kind (fun i => r.leads files (form i)) imports := by
  refine ⟨fun i hi => ?_, hc⟩
  rcases h.leads_cases files (form i) with hl | ⟨path, hl⟩
  · rw [hl]
    exact hfresh.taken i hi
  · rw [hl]
    exact ⟨_, some path, rfl, (hk i _ path).mpr rfl⟩

/-- Where a new resolver makes a plan, one with a memory makes the same plan exactly when what it
remembers makes no difference. -/
theorem plan_same_iff (ha : AnswersByPlace files options) (hv : VersionsMatch files)
    (hr : Regular options r) {policy : BundlePolicy} {imports : List Import} {fresh : BundlePlan}
    (hfresh : (outcome (plan files policy imports) { options }).1 = .ok fresh) :
    (∃ made, (outcome (plan files policy imports) r).1 = .ok made ∧ made.Same fresh) ↔
      Consistent files r literals .literal (includedLiterals imports) ∧
      Consistent files r templates .template (includedTemplates imports) := by
  have hfreshBy := (matches_planBy (.refl files { options }) ha hv policy imports).1.agree
  have hmadeBy := (matches_planBy (.refl files r) (hr.uses ▸ ha) hv policy imports).1.agree
  obtain ⟨freshBy, hby, hsame⟩ := hfreshBy.of_ok hfresh
  have hmade : (∃ made, (outcome (plan files policy imports) r).1 = .ok made ∧ made.Same fresh) ↔
      ∃ made, planBy (r.tells files) (r.leads files) policy imports = .ok made ∧
        made.Same freshBy := by
    constructor
    · rintro ⟨made, h, hs⟩
      obtain ⟨madeBy, h', hs'⟩ := hmadeBy.of_ok h
      exact ⟨madeBy, h', hs'.symm.trans (hs.trans hsame)⟩
    · rintro ⟨madeBy, h, hs⟩
      obtain ⟨made, h', hs'⟩ := hmadeBy.of_ok_right h
      exact ⟨made, h', hs'.trans (hs.trans hsame.symm)⟩
  obtain ⟨hl, ht, -⟩ := planBy_eq_ok_iff.mp hby
  rw [hmade, exists_same_iff hby]
  constructor
  · rintro ⟨⟨hgl, hcl⟩, hgt, hct⟩
    exact ⟨⟨hr.uses ▸ hcl, hgl.coherent⟩, hr.uses ▸ hct, hgt.coherent⟩
  · rintro ⟨⟨hcl, hgl⟩, hct, hgt⟩
    exact ⟨⟨groups_of_coherent hr takesExternal_literals hl hgl, hr.uses ▸ hcl⟩,
      groups_of_coherent hr takesExternal_templates ht hgt, hr.uses ▸ hct⟩

end Split

end VendorBundle
