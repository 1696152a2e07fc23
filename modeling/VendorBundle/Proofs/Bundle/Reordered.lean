import Mathlib.Data.List.Forall2
import VendorBundle.Proofs.Bundle.Accepted

/-!
# The order of discovery

The same imports in another order have a plan as well, or again have none. The two plans hold the
same groups of the same importers in the same bundles. Only the first import of a key has a say in
the entry file of its group, so this may be another one, but of the same version.
-/

namespace VendorBundle

open Effect
open List (Forall₂)
open Resolver (AnswersByPlace Consulted Recalls VersionsByPlace)

/-! ## Plans that differ in the order of importers -/

namespace ImportGroup

variable {α σ : Type} [Files σ]

/-- Groups of the same importers that lead to the same version. -/
structure Alike (files : σ) (g h : ImportGroup α) : Prop where
  key : g.key = h.key
  importers : g.importers.Perm h.importers
  entrypoint : Split.SameVersion files g.entrypoint h.entrypoint

/-- Each group has one in the other list that is alike, whatever the order. -/
def Matched (files : σ) (gs hs : List (ImportGroup α)) : Prop :=
  ∃ hs', hs'.Perm hs ∧ Forall₂ (Alike files) gs hs'

/-- Lists of the same keys match when the groups of one key are alike. -/
theorem matched_of_keys {files : σ} {gs hs : List (ImportGroup α)} (hg : (gs.map (·.key)).Nodup)
    (hh : (hs.map (·.key)).Nodup) (hkeys : ∀ key, key ∈ gs.map (·.key) ↔ key ∈ hs.map (·.key))
    (halike : ∀ g ∈ gs, ∀ h ∈ hs, g.key = h.key → Alike files g h) : Matched files gs hs := by
  have hperm : (gs.map (·.key)).Perm (hs.map (·.key)) :=
    (List.perm_ext_iff_of_nodup hg hh).mpr hkeys
  have hown : Forall₂ (fun key h => key = h.key) (hs.map (·.key)) hs :=
    List.forall₂_map_left_iff.mpr (List.forall₂_same.mpr fun _ _ => rfl)
  obtain ⟨hs', hpaired, hs'perm⟩ := List.perm_comp_forall₂ hperm hown
  obtain ⟨hlength, hpairs⟩ := List.forall₂_iff_zip.mp (List.forall₂_map_left_iff.mp hpaired)
  refine ⟨hs', hs'perm, List.forall₂_iff_zip.mpr ⟨hlength, fun {g h} hmem => ?_⟩⟩
  obtain ⟨hgmem, hhmem⟩ := List.of_mem_zip hmem
  exact halike g hgmem h (hs'perm.subset hhmem) (hpairs hmem)

end ImportGroup

/-- The three sections match. -/
structure BundleContents.Alike {σ : Type} [Files σ] (files : σ) (c d : BundleContents) : Prop where
  statics : ImportGroup.Matched files c.staticImports d.staticImports
  dynamics : ImportGroup.Matched files c.dynamicImports d.dynamicImports
  templates : ImportGroup.Matched files c.templateImports d.templateImports

/-- The plans have the same bundles, and each has the same contents in both. -/
structure BundlePlan.Alike {σ : Type} [Files σ] (files : σ) (plan plan' : BundlePlan) : Prop where
  names : plan.bundles.map (·.1) = plan'.bundles.map (·.1)
  contents : ∀ name c d, (name, c) ∈ plan.bundles → (name, d) ∈ plan'.bundles → c.Alike files d

/-- Files in another order choose the same bundle. -/
theorem BundlePolicy.Chooses.unique {policy : BundlePolicy} {sites sites' : List ImportSite}
    {bundle bundle' : String} (h : policy.Chooses sites bundle)
    (h' : policy.Chooses sites' bundle') (hp : sites.Perm sites') : bundle = bundle' := by
  obtain ⟨index, hindex, hleast⟩ := h.least
  obtain ⟨index', hindex', hleast'⟩ := h'.least
  simp only [hp.mem_iff] at hleast
  obtain rfl := hleast.unique hleast'
  exact Option.some.inj (hindex.symm.trans hindex')

/-! ## Groups of imports in another order -/

section

variable {α σ : Type} [Files σ] {files : σ} {policy : BundlePolicy} {imports imports' : List α}

theorem Grouped.perm_importers {key : α → String} {gs hs : List (ImportGroup α)}
    (h : Grouped key imports gs) (h' : Grouped key imports' hs) (hp : imports.Perm imports')
    {g g' : ImportGroup α} (hg : g ∈ gs) (hg' : g' ∈ hs) (hkey : g.key = g'.key) :
    g.importers.Perm g'.importers := by
  rw [h.importers g hg, h'.importers g' hg', hkey]
  exact hp.filter _

variable {kind : Split.Kind α} {cmp cmp' : ImportGroup α → ImportGroup α → Ordering}
  {parts parts' : List (String × List (ImportGroup α))} {name : String}
  {gs hs : List (ImportGroup α)}

/-- A group is in the same bundle when the imports are in another order. -/
theorem Distributed.exists_key (h : Distributed policy kind cmp imports parts)
    (h' : Distributed policy kind cmp' imports' parts') (hp : imports.Perm imports')
    (hnames' : (parts'.map (·.1)).Nodup) (hgs : (name, gs) ∈ parts) (hhs : (name, hs) ∈ parts')
    {g : ImportGroup α} (hg : g ∈ gs) : ∃ g' ∈ hs, g.key = g'.key := by
  have hmem : g ∈ parts.flatMap (·.2) := List.mem_flatMap.mpr ⟨_, hgs, hg⟩
  have hfirst : g.first ∈ g.importers := List.mem_cons_self
  have himport : g.first ∈ imports' := hp.subset (h.grouped.subset hmem hfirst)
  obtain ⟨g', hmem', hfirst'⟩ := List.mem_flatMap.mp (h'.grouped.once.symm.subset himport)
  have hkey : g.key = g'.key :=
    (h.grouped.key_eq hmem hfirst).symm.trans (h'.grouped.key_eq hmem' hfirst')
  obtain ⟨part, hpart, hg'⟩ := List.mem_flatMap.mp hmem'
  have himporters := h.grouped.perm_importers h'.grouped hp hmem hmem' hkey
  have hname : name = part.1 :=
    (h.chosen _ hgs g hg).unique (h'.chosen part hpart g' hg') (himporters.map _)
  obtain rfl : part = (name, hs) := List.inj_on_of_nodup_map hnames' hpart hhs hname.symm
  exact ⟨g', hg', hkey⟩

theorem Distributed.nodup_keys (h : Distributed policy kind cmp imports parts)
    (hgs : (name, gs) ∈ parts) : (gs.map (·.key)).Nodup := by
  have hsub : gs.Sublist (parts.flatMap (·.2)) :=
    List.sublist_flatten_of_mem (List.mem_map.mpr ⟨_, hgs, rfl⟩)
  exact (hsub.map _).nodup h.grouped.keys

/-- In another order the imports make groups of the same importers, which go to the same bundles. -/
theorem Distributed.matched (h : Distributed policy kind cmp imports parts)
    (h' : Distributed policy kind cmp' imports' parts') (hp : imports.Perm imports')
    (hnames : (parts.map (·.1)).Nodup) (hnames' : (parts'.map (·.1)).Nodup)
    (hentry : ∀ g ∈ parts.flatMap (·.2), ∀ g' ∈ parts'.flatMap (·.2), g.key = g'.key →
      Split.SameVersion files g.entrypoint g'.entrypoint)
    (hgs : (name, gs) ∈ parts) (hhs : (name, hs) ∈ parts') : ImportGroup.Matched files gs hs := by
  refine ImportGroup.matched_of_keys (h.nodup_keys hgs) (h'.nodup_keys hhs) (fun key => ⟨?_, ?_⟩)
    fun g hg g' hg' hkey => ?_
  · intro hk
    obtain ⟨g, hg, rfl⟩ := List.mem_map.mp hk
    obtain ⟨g', hg', hkey⟩ := h.exists_key h' hp hnames' hgs hhs hg
    exact List.mem_map.mpr ⟨g', hg', hkey.symm⟩
  · intro hk
    obtain ⟨g', hg', rfl⟩ := List.mem_map.mp hk
    obtain ⟨g, hg, hkey⟩ := h'.exists_key h hp.symm hnames hhs hgs hg'
    exact List.mem_map.mpr ⟨g, hg, hkey.symm⟩
  · have hmem : g ∈ parts.flatMap (·.2) := List.mem_flatMap.mpr ⟨_, hgs, hg⟩
    have hmem' : g' ∈ parts'.flatMap (·.2) := List.mem_flatMap.mpr ⟨_, hhs, hg'⟩
    have himporters := h.grouped.perm_importers h'.grouped hp hmem hmem' hkey
    exact ⟨hkey, himporters, hentry g hmem g' hmem' hkey⟩

/-- What the bundles of a plan have is a part of each. -/
theorem BundlePlan.mem_parts {plan : BundlePlan} (pick : BundleContents → List (ImportGroup α))
    {name : String} {c : BundleContents} (h : (name, c) ∈ plan.bundles) :
    (name, pick c) ∈ plan.parts pick :=
  List.mem_map.mpr ⟨_, h, rfl⟩

theorem BundlePlan.Faithful.nodup_parts {ls : List LiteralImport} {ts : List TemplateImport}
    {plan : BundlePlan} (h : plan.Faithful policy ls ts)
    (pick : BundleContents → List (ImportGroup α)) :
    ((plan.parts pick).map (·.1)).Nodup := by
  have hnames : (plan.parts pick).map (·.1) = plan.bundles.map (·.1) := by
    rw [BundlePlan.parts, List.map_map]
    rfl
  rw [hnames, h.bundles]
  exact Split.nodup_eraseDups _

end

namespace Split

variable {α σ : Type} [Files σ] {files : σ} {options : ResolveOptions} {policy : BundlePolicy}

/-! ## Imports in another order -/

section

variable {kind : Kind α} {specifier : α → String} {template : Bool} {imports imports' : List α}
  {as bs : List (Resolved α)}

/-- Each import leads to the same place, also among other imports. -/
theorem Resolves.exists_same (ha : AnswersByPlace files options)
    (h : Resolves files options kind specifier template imports as)
    (h' : Resolves files options kind specifier template imports' bs) (hsub : imports' ⊆ imports) :
    ∀ b ∈ bs, ∃ a ∈ as, a.Same b := by
  intro b hb
  have hmem : b.i ∈ as.map (·.i) := by
    rw [h.imports]
    exact hsub (h'.imports ▸ List.mem_map.mpr ⟨b, hb, rfl⟩)
  obtain ⟨a, hamem, hi⟩ := List.mem_map.mp hmem
  have hleads := h.leads a hamem
  rw [hi] at hleads
  exact ⟨a, hamem, hi, hleads.agree ha (h'.leads b hb)⟩

theorem exists_sighted_of_same (hsame : ∀ b ∈ bs, ∃ a ∈ as, a.Same b) {y : α × Path}
    (hy : y ∈ sighted bs) : ∃ x ∈ sighted as, x.1 = y.1 ∧ x.2.components = y.2.components := by
  obtain ⟨b, hb, hi, htarget⟩ := exists_of_mem_sighted hy
  obtain ⟨a, ha, hsi, hst⟩ := hsame b hb
  obtain ⟨target, ht, hst⟩ := (hst.symm Target.Same.symm).of_ok htarget
  cases hst with
  | refl => exact ⟨_, mem_sighted_of_external ha ht, hsi.trans hi, rfl⟩
  | external hc => exact ⟨_, mem_sighted_of_external ha ht, hsi.trans hi, hc.symm⟩

/-- Whether imports are acceptable depends on where each of them leads. -/
theorem Acceptable.of_same (hv : VersionsByPlace files) (hk : kind.Respects)
    (h : Acceptable files policy kind as) (hsame : ∀ b ∈ bs, ∃ a ∈ as, a.Same b) :
    Acceptable files policy kind bs := by
  refine ⟨fun b hb => ?_, fun x hx y hy hkey => ?_, fun y hy => ?_⟩
  · obtain ⟨a, ha, hi, ht⟩ := hsame b hb
    obtain ⟨target, entry?, htarget, hentry⟩ := h.taken a ha
    obtain ⟨target', htarget', hst⟩ := ht.of_ok htarget
    obtain ⟨entry?', hentry', -⟩ := (hk a.i target target' hst).of_ok hentry
    exact ⟨target', entry?', htarget', hi ▸ hentry'⟩
  · obtain ⟨x', hx', hxi, hxc⟩ := exists_sighted_of_same hsame hx
    obtain ⟨y', hy', hyi, hyc⟩ := exists_sighted_of_same hsame hy
    have hagree := h.agree x' hx' y' hy' (by rw [hxi, hyi, hkey])
    exact SameVersion.trans hv (.inl hxc.symm) (hagree.trans hv (.inl hyc))
  · obtain ⟨x, hx, hi, -⟩ := exists_sighted_of_same hsame hy
    exact hi ▸ h.declared x hx

theorem Resolves.perm_externals (ha : AnswersByPlace files options)
    (h : Resolves files options kind specifier template imports as)
    (h' : Resolves files options kind specifier template imports' bs) (hp : imports.Perm imports') :
    (externals as).Perm (externals bs) := by
  rw [h.externals_eq ha, h'.externals_eq ha]
  exact hp.filter _

/-- Groups of one key lead to the same version, also among other imports. -/
theorem Settles.sameVersion_entrypoint (hv : VersionsByPlace files) {gs hs : List (ImportGroup α)}
    (h : Settles files kind (sighted as) gs) (h' : Settles files kind (sighted bs) hs)
    (hsame : ∀ b ∈ bs, ∃ a ∈ as, a.Same b) {g g' : ImportGroup α} (hg : g ∈ gs) (hg' : g' ∈ hs)
    (hkey : g.key = g'.key) : SameVersion files g.entrypoint g'.entrypoint := by
  obtain ⟨i, hfirst⟩ := h'.first g' hg'
  have hi : kind.key i = g'.key := by simpa using List.find?_some hfirst
  obtain ⟨x, hx, hxi, hxc⟩ := exists_sighted_of_same hsame (List.mem_of_find?_eq_some hfirst)
  have hagree := h.agree g hg x hx (by rw [hxi, hi, hkey])
  exact hagree.trans hv (.inl hxc)

end

/-! ## Plans for imports in another order -/

theorem perm_includedLiterals {imports imports' : List Import} (h : imports.Perm imports') :
    (includedLiterals imports).Perm (includedLiterals imports') := h.filterMap _

theorem perm_includedTemplates {imports imports' : List Import} (h : imports.Perm imports') :
    (includedTemplates imports).Perm (includedTemplates imports') := h.filterMap _

theorem Planned.alike (hv : VersionsByPlace files) {as as' : List (Resolved LiteralImport)}
    {bs bs' : List (Resolved TemplateImport)} {plan plan' : BundlePlan}
    (h : Planned files policy as bs plan) (h' : Planned files policy as' bs' plan')
    (hl : (externals as).Perm (externals as')) (ht : (externals bs).Perm (externals bs'))
    (hlsame : ∀ b ∈ as', ∃ a ∈ as, a.Same b) (htsame : ∀ b ∈ bs', ∃ a ∈ bs, a.Same b) :
    plan.Alike files plan' := by
  refine ⟨h.faithful.bundles.trans h'.faithful.bundles.symm, fun name c d hc hd => ⟨?_, ?_, ?_⟩⟩
  · refine h.faithful.statics.matched h'.faithful.statics (hl.filter _) (h.faithful.nodup_parts _)
      (h'.faithful.nodup_parts _) (fun g hg g' hg' => ?_) (BundlePlan.mem_parts _ hc)
      (BundlePlan.mem_parts _ hd)
    exact h.settled.sameVersion_entrypoint hv h'.settled hlsame (List.mem_append_left _ hg)
      (List.mem_append_left _ hg')
  · refine h.faithful.dynamics.matched h'.faithful.dynamics (hl.filter _) (h.faithful.nodup_parts _)
      (h'.faithful.nodup_parts _) (fun g hg g' hg' => ?_) (BundlePlan.mem_parts _ hc)
      (BundlePlan.mem_parts _ hd)
    exact h.settled.sameVersion_entrypoint hv h'.settled hlsame (List.mem_append_right _ hg)
      (List.mem_append_right _ hg')
  · refine h.faithful.templates.matched h'.faithful.templates ht (h.faithful.nodup_parts _)
      (h'.faithful.nodup_parts _) (fun g hg g' hg' => ?_) (BundlePlan.mem_parts _ hc)
      (BundlePlan.mem_parts _ hd)
    exact h.settledTemplates.sameVersion_entrypoint hv h'.settledTemplates htsame hg hg'

/-- Plans for imports in two orders, made by resolvers that recall only where specifiers lead. -/
theorem agree_plan (policy : BundlePolicy) (hv : VersionsByPlace files)
    (ha : AnswersByPlace files options) {r r' : Resolver} (hr : Recalls files options r)
    (hr' : Recalls files options r') {imports imports' : List Import}
    (hp : imports.Perm imports') :
    Agree (BundlePlan.Alike files) (outcome (plan files policy imports) r).1
      (outcome (plan files policy imports') r').1 := by
  obtain ⟨as, bs, has, hbs, hdecides⟩ := decides_plan policy hv hr imports
  obtain ⟨as', bs', has', hbs', hdecides'⟩ := decides_plan policy hv hr' imports'
  have hl := perm_includedLiterals hp
  have ht := perm_includedTemplates hp
  have hlsame := has.exists_same ha has' hl.symm.subset
  have htsame := hbs.exists_same ha hbs' ht.symm.subset
  generalize (outcome (plan files policy imports) r).1 = result at hdecides
  generalize (outcome (plan files policy imports') r').1 = result' at hdecides'
  cases hdecides with
  | plan h =>
      cases hdecides' with
      | plan h' =>
          exact .ok (h.alike hv h' (has.perm_externals ha has' hl) (hbs.perm_externals ha hbs' ht)
            hlsame htsame)
      | refused h' =>
          exact absurd ⟨h.literals.of_same hv respects_literals hlsame,
            h.templates.of_same hv respects_templates htsame⟩ h'
  | refused h =>
      cases hdecides' with
      | plan h' =>
          have hlsame' := has'.exists_same ha has hl.subset
          have htsame' := hbs'.exists_same ha hbs ht.subset
          exact absurd ⟨h'.literals.of_same hv respects_literals hlsame',
            h'.templates.of_same hv respects_templates htsame'⟩ h
      | refused => exact .error

end Split

namespace Splitter

variable {σ : Type} [Files σ] {files : σ} {options : ResolveOptions}

/-- New splitters, whose resolvers were at most asked about the same state of the file system, agree
on imports in different orders: both have a plan with the same groups in the same bundles, or
neither has one. -/
theorem plan_perm (policy : BundlePolicy) (hv : VersionsByPlace files)
    (ha : AnswersByPlace files options) {r r' : Resolver} (hr : Consulted files options r)
    (hr' : Consulted files options r') {lists lists' : List (Shared (List Import))}
    (hp : (lists.flatMap (·.value)).Perm (lists'.flatMap (·.value))) :
    Agree (fun plan plan' => plan.value.Alike files plan'.value)
      (outcome (Splitter.plan files lists) { policy, resolver := r }).1
      (outcome (Splitter.plan files lists') { policy, resolver := r' }).1 := by
  have hagree := Split.agree_plan policy hv ha hr.recalls hr'.recalls hp
  rw [← outcome_plan_of_new, ← outcome_plan_of_new] at hagree
  generalize (outcome (Splitter.plan files lists) { policy, resolver := r }).1 = result at hagree ⊢
  generalize (outcome (Splitter.plan files lists') { policy, resolver := r' }).1 = result'
    at hagree ⊢
  cases result with
  | ok plan =>
      cases result' with
      | ok plan' =>
          cases hagree with
          | ok h => exact .ok h
      | error e => cases hagree
  | error e =>
      cases result' with
      | ok plan' => cases hagree
      | error e' => exact .error

/-! ## One version in two places -/

namespace OneVersion

open TwoVersions (literal started)

/-- Each of two packages has installed the same version. -/
def installed : Memory :=
  ((((Memory.empty ⟨"/"⟩).addFile ⟨"/a/node_modules/x/index.js"⟩ "".toUTF8).addFile
    ⟨"/a/node_modules/x/package.json"⟩ "\x7b\"version\":\"1\"\x7d".toUTF8).addFile
    ⟨"/b/node_modules/x/index.js"⟩ "".toUTF8).addFile
    ⟨"/b/node_modules/x/package.json"⟩ "\x7b\"version\":\"1\"\x7d".toUTF8

def found : List (Shared (List Import)) := [⟨1, [.literal (literal "a"), .literal (literal "b")]⟩]

def swapped : List (Shared (List Import)) :=
  [⟨1, [.literal (literal "b")]⟩, ⟨2, [.literal (literal "a")]⟩]

/-- The group of the imports of the two packages, the given one first. -/
def uses (first second : String) : ImportGroup LiteralImport where
  key := "x"
  entrypoint := ⟨"/" ++ first ++ "/node_modules/x/index.js"⟩
  first := literal first
  more := [literal second]

def split (first second : String) : BundlePlan :=
  .sorted ⟨[("app", { staticImports := [uses first second] }), ("tests", {})]⟩

theorem plan_found : ∃ s, outcome (Splitter.plan installed found) started =
    (.ok ⟨1, split "a" "b"⟩, s) := by
  obtain ⟨r, hliterals⟩ : ∃ r, outcome (Split.group installed Split.literals (·.specifier) false
      (Split.includedLiterals (found.flatMap (·.value)))) started.resolver =
        (.ok [uses "a" "b"], r) := by
    have hfirst : (outcome (Split.group installed Split.literals (·.specifier) false
        (Split.includedLiterals (found.flatMap (·.value)))) started.resolver).1 =
          .ok [uses "a" "b"] := by decide +kernel
    exact ⟨_, by rw [← hfirst]⟩
  have htemplates : outcome (Split.group installed Split.templates TemplateImport.leadingText true
      (Split.includedTemplates (found.flatMap (·.value)))) r = (.ok [], r) := rfl
  have hassign : Split.assignAll .standard [uses "a" "b"] [] = .ok (split "a" "b") := rfl
  have hplan : outcome (Split.plan installed started.policy
      (found.flatMap (·.value))) started.resolver = (.ok (split "a" "b"), r) := by
    rw [← hassign]
    exact Split.outcome_plan_of_groups hliterals htemplates
  exact ⟨_, Splitter.plan_of_new rfl hplan⟩

/-- In the other order there is a plan as well. -/
theorem found_swapped : (found.flatMap (·.value)).Perm (swapped.flatMap (·.value)) ∧
    ∃ plan, (outcome (Splitter.plan installed found) started).1 = .ok ⟨1, split "a" "b"⟩ ∧
      (outcome (Splitter.plan installed swapped) started).1 = .ok plan ∧
      (split "a" "b").Alike installed plan.value := by
  have hperm : (found.flatMap (·.value)).Perm (swapped.flatMap (·.value)) := .swap _ _ _
  have hagree : Agree (fun plan plan' => plan.value.Alike installed plan'.value)
      (outcome (Splitter.plan installed found) started).1
      (outcome (Splitter.plan installed swapped) started).1 :=
    plan_perm .standard (Resolver.versionsByPlace installed)
      (Resolver.answersByPlace installed {}) .new .new hperm
  obtain ⟨s, hfound⟩ := plan_found
  have hfirst : (outcome (Splitter.plan installed found) started).1 = .ok ⟨1, split "a" "b"⟩ := by
    rw [hfound]
  obtain ⟨plan, hswapped, halike⟩ := hagree.of_ok hfirst
  exact ⟨hperm, plan, hfirst, hswapped, halike⟩

end OneVersion

end Splitter

end VendorBundle
