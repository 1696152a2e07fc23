import VendorBundle.Proofs.Bundle.Assign
import VendorBundle.Proofs.Pipeline.Build
import VendorBundle.Proofs.Resolver.Consulted

/-!
# A plan loses no import and invents none

A splitter may have made plans before, may have failed, and may share its resolver with others, as
long as the resolver was only asked about one state of the file system. The plan that it then gives
holds every import of an installed package once, in the group of its key and in the bundle that its
importers choose, and holds no other.
-/

namespace VendorBundle

open Effect
open Resolver (AnswersByPlace Consulted Leads Recalls answer)

namespace Split

variable {α σ : Type} [Files σ] {files : σ} {options : ResolveOptions}

/-! ## What remains of a resolver -/

/-- Whatever the result, the resolver still recalls only where specifiers lead. -/
def Remains (files : σ) (options : ResolveOptions) {ε β : Type} (x : Effect Resolver ε β) : Prop :=
  Keeps (fun r r' => Recalls files options r → Recalls files options r') x

section

variable {ε β γ : Type}

theorem Remains.pure (b : β) : Remains files options (pure b : Effect Resolver ε β) := fun _ h => h

theorem Remains.throw (e : ε) : Remains files options (throw e : Effect Resolver ε β) :=
  fun _ h => h

theorem Remains.bind {x : Effect Resolver ε β} {f : β → Effect Resolver ε γ}
    (hx : Remains files options x) (hf : ∀ b, Remains files options (f b)) :
    Remains files options (x >>= f) :=
  Keeps.bind (fun h h' hr => h' (h hr)) hx hf

theorem Remains.foldlM {f : γ → β → Effect Resolver ε γ}
    (hf : ∀ c b, Remains files options (f c b)) (bs : List β) (c : γ) :
    Remains files options (bs.foldlM f c) := by
  induction bs generalizing c with
  | nil => exact .pure c
  | cons b bs ih =>
      rw [List.foldlM_cons]
      exact (hf c b).bind ih

end

theorem remains_versionOf (path : Path) : Remains files options (versionOf files path) := by
  intro r hr
  rw [outcome_versionOf]
  exact (hr.versionOf path).2.2

theorem remains_checkVersions (specifier : String) (first second : String × Path) :
    Remains files options (checkVersions files specifier first second) := by
  refine (remains_versionOf first.2).bind fun a => (remains_versionOf second.2).bind fun b => ?_
  split
  · exact .pure _
  · exact .throw _

theorem remains_gather (kind : Kind α) (i : α) (entrypoint : Path) (gs : List (ImportGroup α)) :
    Remains files options (gather files kind i entrypoint gs) := by
  induction gs with
  | nil => exact .pure _
  | cons g gs ih =>
      rw [gather]
      split
      · split
        · exact (remains_checkVersions _ _ _).bind fun _ => .pure _
        · exact .pure _
      · exact ih.bind fun _ => .pure _

theorem remains_take (kind : Kind α) (gs : List (ImportGroup α)) (a : Resolved α) :
    Remains files options (take files kind gs a) := by
  rw [take]
  split
  · exact .throw _
  · split
    · exact .throw _
    · exact .pure _
    · exact remains_gather _ _ _ _

/-! ## What a list of imports leads to -/

/-- Every import comes with where it leads. -/
structure Resolves (files : σ) (options : ResolveOptions) (kind : Kind α) (specifier : α → String)
    (template : Bool) (imports : List α) (as : List (Resolved α)) : Prop where
  imports : as.map (·.i) = imports
  leads : ∀ a ∈ as, Leads files options (kind.site a.i).package.root
    ((kind.site a.i).package.replaceAlias (specifier a.i)) template a.target

section

variable (kind : Kind α) (specifier : α → String) (template : Bool)

theorem resolves_resolveAll (imports : List α) {r : Resolver} (hr : Recalls files options r) :
    Resolves files options kind specifier template imports
      (resolveAll files (fun i => (kind.site i).package) specifier template imports r).1 ∧
    Recalls files options
      (resolveAll files (fun i => (kind.site i).package) specifier template imports r).2 := by
  induction imports generalizing r with
  | nil => exact ⟨⟨rfl, nofun⟩, hr⟩
  | cons i imports ih =>
      obtain ⟨hleads, hnext⟩ := hr.resolve (kind.site i).package.root
        ((kind.site i).package.replaceAlias (specifier i)) template
      obtain ⟨⟨himports, hall⟩, hlast⟩ := ih hnext
      exact ⟨⟨congrArg (i :: ·) himports, List.forall_mem_cons.mpr ⟨hleads, hall⟩⟩, hlast⟩

/-- When the way a root is written has no say, the imports that lead to an installed package are
those that a resolver without memory leads there. -/
theorem Resolves.externals_eq (ha : AnswersByPlace files options) {kind : Kind α}
    {specifier : α → String} {template : Bool} {imports : List α} {as : List (Resolved α)}
    (h : Resolves files options kind specifier template imports as) :
    externals as = imports.filter fun i =>
      Resolved.isExternal ⟨i, answer files options (kind.site i).package.root
        ((kind.site i).package.replaceAlias (specifier i)) template⟩ := by
  have hsame : ∀ a ∈ as, a.isExternal =
      Resolved.isExternal ⟨a.i, answer files options (kind.site a.i).package.root
        ((kind.site a.i).package.replaceAlias (specifier a.i)) template⟩ := by
    intro a hmem
    obtain ⟨i, target⟩ := a
    have hagree : Agree Target.Same target (answer files options (kind.site i).package.root
        ((kind.site i).package.replaceAlias (specifier i)) template) :=
      (h.leads ⟨i, target⟩ hmem).agree ha ⟨_, rfl, rfl⟩
    simp only
    generalize answer files options (kind.site i).package.root
      ((kind.site i).package.replaceAlias (specifier i)) template = target' at hagree ⊢
    cases hagree with
    | error => rfl
    | ok ht => cases ht <;> rfl
  rw [externals, List.filter_congr hsame, ← h.imports, List.filter_map]
  rfl

theorem remains_group (imports : List α) :
    Remains files options (group files kind specifier template imports) := by
  intro r hr
  rw [outcome_group]
  exact Remains.foldlM (remains_take kind) _ _ _
    (resolves_resolveAll kind specifier template imports hr).2

/-- The groups of a list hold the imports that lead to an installed package. -/
theorem grouped_of_group (hk : kind.TakesExternal) {imports : List α} {r r' : Resolver}
    (hr : Recalls files options r) {gs : List (ImportGroup α)}
    (h : outcome (group files kind specifier template imports) r = (.ok gs, r')) :
    ∃ as, Resolves files options kind specifier template imports as ∧
      Grouped kind.key (externals as) gs := by
  rw [outcome_group] at h
  exact ⟨_, (resolves_resolveAll kind specifier template imports hr).1,
    (grouped_of_foldlM hk (.nil kind.key) h).1⟩

end

theorem remains_plan (policy : BundlePolicy) (imports : List Import) :
    Remains files options (plan files policy imports) := by
  refine (remains_group _ _ _ _).bind fun ls => (remains_group _ _ _ _).bind fun ts => ?_
  intro r hr
  rw [outcome_look]
  exact hr

end Split

/-! ## Faithful plans -/

namespace ImportGroup

def byKey {α : Type} : ImportGroup α → ImportGroup α → Ordering := compareOn (·.key)

def byLeadingText : ImportGroup TemplateImport → ImportGroup TemplateImport → Ordering :=
  compareLex (compareOn (·.first.leadingText)) byKey

end ImportGroup

/-- The groups that each bundle has hold the imports. They are in the bundles that their own
importers choose, and in each bundle they strictly ascend. -/
structure Distributed {α : Type} (policy : BundlePolicy) (kind : Split.Kind α)
    (cmp : ImportGroup α → ImportGroup α → Ordering) (imports : List α)
    (parts : List (String × List (ImportGroup α))) : Prop where
  grouped : Grouped kind.key imports (parts.flatMap (·.2))
  chosen : ∀ part ∈ parts, ∀ g ∈ part.2, policy.Chooses (g.importers.map kind.site) part.1
  ascending : ∀ part ∈ parts, part.2.Pairwise fun a b => cmp a b = .lt

namespace BundlePlan

/-- What the bundles have of one sort of groups. -/
def parts {α : Type} (plan : BundlePlan) (pick : BundleContents → List (ImportGroup α)) :
    List (String × List (ImportGroup α)) :=
  plan.bundles.map fun (name, c) => (name, pick c)

/-- The plan has the declared bundles in their order, and these hold the imports: static and
dynamic uses of literal specifiers apart, and templates. -/
structure Faithful (policy : BundlePolicy) (ls : List LiteralImport) (ts : List TemplateImport)
    (plan : BundlePlan) : Prop where
  bundles : plan.bundles.map (·.1) = policy.names.eraseDups
  statics : Distributed policy Split.literals ImportGroup.byKey (ls.filter (!·.isDynamic))
    (plan.parts (·.staticImports))
  dynamics : Distributed policy Split.literals ImportGroup.byKey (ls.filter (·.isDynamic))
    (plan.parts (·.dynamicImports))
  templates : Distributed policy Split.templates ImportGroup.byLeadingText ts
    (plan.parts (·.templateImports))

/-- The plan is faithful to the imports that no package leaves alone and that lead to an installed
package. -/
def Splits {σ : Type} [Files σ] (files : σ) (options : ResolveOptions) (policy : BundlePolicy)
    (imports : List Import) (plan : BundlePlan) : Prop :=
  ∃ ls ts,
    Split.Resolves files options Split.literals (·.specifier) false
      (Split.includedLiterals imports) ls ∧
    Split.Resolves files options Split.templates TemplateImport.leadingText true
      (Split.includedTemplates imports) ts ∧
    plan.Faithful policy (Split.externals ls) (Split.externals ts)

end BundlePlan

namespace Split

variable {policy : BundlePolicy}

/-- Groups that are put where they go and sorted are distributed. -/
theorem distributed_sorted {α : Type} {kind : Kind α} {imports : List α}
    {gs : List (ImportGroup α)} (h : Grouped kind.key imports gs) (hp : Placed policy kind gs)
    (cmp : ImportGroup α → ImportGroup α → Ordering) [Std.TransCmp cmp]
    (hcmp : ∀ a b, cmp a b = .eq → a.key = b.key) :
    Distributed policy kind cmp imports (policy.names.eraseDups.map fun name =>
      (name, (gs.filter (goesTo? policy kind · = some name)).mergeSort
        fun a b => (cmp a b).isLE)) where
  grouped := by
    rw [List.flatMap_map]
    exact h.perm (perm_flatMap_sorted hp _)
  chosen := by
    intro part hpart g hg
    obtain ⟨name, -, rfl⟩ := List.mem_map.mp hpart
    have hgoes := (List.mem_filter.mp (List.mem_mergeSort.mp hg)).2
    exact chooses_of_goesTo? (of_decide_eq_true hgoes)
  ascending := by
    intro part hpart
    obtain ⟨name, -, rfl⟩ := List.mem_map.mp hpart
    have hkeys : gs.Pairwise fun a b => cmp a b ≠ .eq :=
      (List.pairwise_map.mp h.keys).imp fun hne he => hne (hcmp _ _ he)
    exact ascending_mergeSort cmp (hkeys.filter _)

theorem key_eq_of_byKey {α : Type} (a b : ImportGroup α) (h : ImportGroup.byKey a b = .eq) :
    a.key = b.key :=
  Std.LawfulEqCmp.eq_of_compare h

theorem key_eq_of_byLeadingText (a b : ImportGroup TemplateImport)
    (h : ImportGroup.byLeadingText a b = .eq) : a.key = b.key :=
  key_eq_of_byKey a b (Ordering.then_eq_eq.mp h).2

instance {α : Type} : Std.TransCmp (ImportGroup.byKey (α := α)) := by
  unfold ImportGroup.byKey
  infer_instance

instance : Std.TransCmp ImportGroup.byLeadingText := by
  unfold ImportGroup.byLeadingText
  infer_instance

theorem faithful_of_assignAll {imports : List LiteralImport} {patterns : List TemplateImport}
    {ls : List (ImportGroup LiteralImport)} {ts : List (ImportGroup TemplateImport)}
    (hl : Grouped literals.key imports ls) (ht : Grouped templates.key patterns ts)
    {plan : BundlePlan} (h : assignAll policy ls ts = .ok plan) :
    plan.Faithful policy imports patterns := by
  obtain ⟨rfl, hstatics, hdynamics, htemplates⟩ := filled_of_assignAll h
  constructor
  · rw [filled, BundlePlan.sorted, List.map_map, List.map_map]
    exact List.map_id _
  · have hparts := distributed_sorted (hl.parts (!·.isDynamic)) hstatics ImportGroup.byKey
      key_eq_of_byKey
    rw [BundlePlan.parts, BundlePlan.sorted, filled, List.map_map, List.map_map]
    exact hparts
  · have hparts := distributed_sorted (hl.parts (·.isDynamic)) hdynamics ImportGroup.byKey
      key_eq_of_byKey
    rw [BundlePlan.parts, BundlePlan.sorted, filled, List.map_map, List.map_map]
    exact hparts
  · have hparts := distributed_sorted ht htemplates ImportGroup.byLeadingText
      key_eq_of_byLeadingText
    rw [BundlePlan.parts, BundlePlan.sorted, filled, List.map_map, List.map_map]
    exact hparts

variable {σ : Type} [Files σ] {files : σ} {options : ResolveOptions}

/-- A plan that is made is faithful to the imports. -/
theorem splits_of_plan {imports : List Import} {r r' : Resolver} (hr : Recalls files options r)
    {plan : BundlePlan} (h : outcome (Split.plan files policy imports) r = (.ok plan, r')) :
    plan.Splits files options policy imports := by
  obtain ⟨ls, r₁, hls, h⟩ := outcome_bind_eq_ok_iff.mp h
  obtain ⟨ts, r₂, hts, h⟩ := outcome_bind_eq_ok_iff.mp h
  have hr₁ : Recalls files options r₁ := by
    have hremains := remains_group literals (·.specifier) false (includedLiterals imports) r hr
    rwa [hls] at hremains
  obtain ⟨as, has, hl⟩ := grouped_of_group literals _ _ takesExternal_literals hr hls
  obtain ⟨bs, hbs, ht⟩ := grouped_of_group templates _ _ takesExternal_templates hr₁ hts
  rw [outcome_look, Prod.mk.injEq] at h
  exact ⟨as, bs, has, hbs, faithful_of_assignAll hl ht h.1⟩

end Split

/-! ## A splitter at work -/

namespace Splitter

variable {σ : Type} [Files σ] {files : σ} {options : ResolveOptions} {policy : BundlePolicy}
  {content : Nat → List Import} {s s' : Splitter} {lists : List (Shared (List Import))}

/-- The lists are those with their stamps. -/
def Known (content : Nat → List Import) (lists : List (Shared (List Import))) : Prop :=
  ∀ list ∈ lists, list.value = content list.stamp

/-- A splitter for one policy, asked about one state of the file system for lists that keep their
stamps. Others may ask its resolver in between. -/
inductive Run (files : σ) (options : ResolveOptions) (policy : BundlePolicy)
    (content : Nat → List Import) : Splitter → Prop where
  | new {r : Resolver} (hr : Consulted files options r) :
      Run files options policy content { policy, resolver := r }
  | share {s : Splitter} {r : Resolver} (h : Run files options policy content s)
      (hr : Consulted files options r) : Run files options policy content { s with resolver := r }
  | plan {s : Splitter} {lists : List (Shared (List Import))}
      (h : Run files options policy content s) (hl : Known content lists) :
      Run files options policy content (outcome (Splitter.plan files lists) s).2

/-- What holds of a splitter at work: the plan that it keeps is right for the lists it is kept
for. -/
structure Sound (files : σ) (options : ResolveOptions) (policy : BundlePolicy)
    (content : Nat → List Import) (s : Splitter) : Prop where
  uses : s.policy = policy
  recalls : Recalls files options s.resolver
  last : ∀ last, s.last = some last → Known content last.inputs ∧
    last.plan.value.Splits files options policy (last.inputs.flatMap (·.value))

theorem flatMap_eq_of_sameLists {inputs : List (Shared (List Import))}
    (hi : Known content inputs) (hl : Known content lists) (h : sameLists inputs lists) :
    inputs.flatMap (·.value) = lists.flatMap (·.value) := by
  have hstamps : inputs.map (·.stamp) = lists.map (·.stamp) := eq_of_beq h
  rw [List.flatMap_congr hi, List.flatMap_congr hl]
  have hmap := congrArg (List.flatMap content) hstamps
  rwa [List.flatMap_map, List.flatMap_map] at hmap

/-- Asked for a plan, a splitter stays as it has to be, and a plan that it gives is faithful. -/
theorem Sound.plan (h : Sound files options policy content s) (hl : Known content lists) :
    Sound files options policy content (outcome (Splitter.plan files lists) s).2 ∧
    ∀ shared, (outcome (Splitter.plan files lists) s).1 = .ok shared →
      shared.value.Splits files options policy (lists.flatMap (·.value)) := by
  cases hk : s.known? lists with
  | some known =>
      rw [outcome_plan_of_known hk]
      refine ⟨h, fun shared hs => ?_⟩
      obtain rfl := Except.ok.inj hs
      obtain ⟨last, hlast, rfl, hsame⟩ := known?_eq_some_iff.mp hk
      obtain ⟨hinputs, hsplits⟩ := h.last last hlast
      rwa [flatMap_eq_of_sameLists hinputs hl hsame] at hsplits
  | none =>
      have hremains : Recalls files options
          (outcome (Split.plan files s.policy (lists.flatMap (·.value))) s.resolver).2 :=
        Split.remains_plan _ _ _ h.recalls
      rw [outcome_plan_of_unknown hk]
      split
      · rename_i made r hmade
        have hsplits : made.Splits files options policy (lists.flatMap (·.value)) :=
          h.uses ▸ Split.splits_of_plan h.recalls hmade
        rw [hmade] at hremains
        refine ⟨⟨h.uses, hremains, fun last hlast => ?_⟩, fun shared hs => ?_⟩
        · obtain rfl := Option.some.inj hlast
          exact ⟨hl, hsplits⟩
        · obtain rfl := Except.ok.inj hs
          exact hsplits
      · rename_i e r hfailed
        rw [hfailed] at hremains
        refine ⟨⟨h.uses, hremains, h.last⟩, fun shared hs => ?_⟩
        cases hs

theorem Run.sound (h : Run files options policy content s) :
    Sound files options policy content s := by
  induction h with
  | new hr => exact ⟨rfl, hr.recalls, nofun⟩
  | share _ hr ih => exact ⟨ih.uses, hr.recalls, ih.last⟩
  | plan _ hl ih => exact (ih.plan hl).1

/-- Every plan that a splitter gives has the declared bundles in their order. They hold each import
that no package leaves alone and that leads to an installed package once, in the one group of its
key, in the bundle that the importers of the group choose, and they hold nothing else. -/
theorem Run.splits (h : Run files options policy content s) (hl : Known content lists)
    {shared : Shared BundlePlan}
    (ho : outcome (Splitter.plan files lists) s = (.ok shared, s')) :
    shared.value.Splits files options policy (lists.flatMap (·.value)) :=
  (h.sound.plan hl).2 shared (by rw [ho])

/-! ## A package that an application and its tests import -/

namespace OnePackage

def installed : Memory :=
  (Memory.empty ⟨"/"⟩).addFile ⟨"/app/node_modules/x/index.js"⟩ "".toUTF8

def site (file : String) : ImportSite where
  file
  package := { name := "app", root := ⟨"/app"⟩, exclude := ["y"] }

/-- Static and dynamic uses of one package, a template, and imports that no bundle has to hold. -/
def imports : List Import := [
  .literal ⟨"x", false, site "tests/a.js"⟩,
  .literal ⟨"x", true, site "tests/a.js"⟩,
  .literal ⟨"y", false, site "b.js"⟩,
  .literal ⟨"./b.js", false, site "b.js"⟩,
  .literal ⟨"x", false, site "b.js"⟩,
  .template ⟨["x/", ".js"], [none], site "tests/a.js"⟩]

/-- The list that the index of the tree gives out. -/
def found : List (Shared (List Import)) := [⟨1, imports⟩]

def uses (first : LiteralImport) (more : List LiteralImport) : ImportGroup LiteralImport where
  key := "x"
  entrypoint := ⟨"/app/node_modules/x/index.js"⟩
  first
  more

def template : ImportGroup TemplateImport where
  key := "x/$\x7be\x7d.js"
  entrypoint := ⟨"/app/node_modules/x/"⟩
  first := ⟨["x/", ".js"], [none], site "tests/a.js"⟩

/-- The application takes the static uses, since one of them is its own. -/
def split : BundlePlan := .sorted ⟨[
  ("app", {
    staticImports := [uses ⟨"x", false, site "tests/a.js"⟩ [⟨"x", false, site "b.js"⟩]] }),
  ("tests", {
    dynamicImports := [uses ⟨"x", true, site "tests/a.js"⟩ []]
    templateImports := [template] })]⟩

def started : Splitter := { policy := .standard, resolver := { options := {} } }

/-- What the resolver knows once it has seen the literal imports. -/
def learnt : Resolver :=
  (outcome (Split.group installed Split.literals (·.specifier) false
    (Split.includedLiterals imports)) started.resolver).2

theorem plan_started :
    ∃ s, outcome (Splitter.plan installed found) started = (.ok ⟨1, split⟩, s) := by
  have hliterals : outcome (Split.group installed Split.literals (·.specifier) false
      (Split.includedLiterals imports)) started.resolver =
        (.ok [uses ⟨"x", false, site "tests/a.js"⟩
          [⟨"x", true, site "tests/a.js"⟩, ⟨"x", false, site "b.js"⟩]], learnt) :=
    Prod.ext (by decide +kernel) (by rw [learnt])
  obtain ⟨r, htemplates⟩ : ∃ r, outcome (Split.group installed Split.templates
      TemplateImport.leadingText true (Split.includedTemplates imports)) learnt =
        (.ok [template], r) := by
    have hfirst : (outcome (Split.group installed Split.templates TemplateImport.leadingText true
        (Split.includedTemplates imports)) learnt).1 = .ok [template] := by decide +kernel
    exact ⟨_, by rw [← hfirst]⟩
  have hassign : Split.assignAll .standard [uses ⟨"x", false, site "tests/a.js"⟩
      [⟨"x", true, site "tests/a.js"⟩, ⟨"x", false, site "b.js"⟩]] [template] = .ok split := rfl
  have hplan : outcome (Split.plan installed started.policy
      (found.flatMap (·.value))) started.resolver = (.ok split, r) := by
    rw [found, List.flatMap_singleton, ← hassign]
    exact Split.outcome_plan_of_groups hliterals htemplates
  exact ⟨_, Splitter.plan_of_new rfl hplan⟩

theorem split_splits :
    Run installed {} .standard (fun _ => imports) started ∧
      Known (fun _ => imports) found ∧
      (∃ s, outcome (Splitter.plan installed found) started = (.ok ⟨1, split⟩, s)) ∧
      split.Splits installed {} .standard (found.flatMap (·.value)) := by
  have hrun : Run installed {} .standard (fun _ => imports) started := .new .new
  have hknown : Known (fun _ => imports) found := by
    intro list hlist
    obtain rfl := List.mem_singleton.mp hlist
    rfl
  obtain ⟨s, ho⟩ := plan_started
  exact ⟨hrun, hknown, ⟨s, ho⟩, hrun.splits hknown ho⟩

end OnePackage

end Splitter

end VendorBundle
