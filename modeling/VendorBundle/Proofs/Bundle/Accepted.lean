import VendorBundle.Proofs.Bundle.Conflicts

/-!
# When there is a plan

There is a plan exactly when the imports are acceptable: each is resolved and may stand where it
does, any two of one key lead to the same version, and their files are in declared bundles. None of
this looks at the order of the imports, or at what was compared with what.
-/

namespace VendorBundle

open Effect
open Resolver (AnswersByPlace Recalls VersionsByPlace answer searchVersion)

namespace Split

variable {α σ : Type} [Files σ] {files : σ} {options : ResolveOptions} {policy : BundlePolicy}

/-! ## Equal versions -/

namespace SameVersion

variable {p q p' : Path}

theorem refl (files : σ) (p : Path) : SameVersion files p p := .inl rfl

theorem symm (h : SameVersion files p q) : SameVersion files q p := by
  rcases h with hc | ⟨v, hp, hq⟩
  · exact .inl hc.symm
  · exact .inr ⟨v, hq, hp⟩

/-- The second of two entry files has the version that the first has. -/
theorem version_eq (hv : VersionsByPlace files) (h : SameVersion files p q) {v : String}
    (hp : searchVersion files p = .ok v) : searchVersion files q = .ok v := by
  rcases h with hc | ⟨w, hp', hq⟩
  · obtain ⟨w, hq, rfl⟩ := (hv p q hc).of_ok hp
    exact hq
  · rw [hq, ← hp', hp]

theorem trans (hv : VersionsByPlace files) (h : SameVersion files p q)
    (h' : SameVersion files q p') : SameVersion files p p' := by
  rcases h with hc | ⟨v, hp, hq⟩
  · rcases h' with hc' | ⟨v, hq, hp'⟩
    · exact .inl (hc.trans hc')
    · exact .inr ⟨v, version_eq hv (.inl hc.symm) hq, hp'⟩
  · exact .inr ⟨v, hp, h'.version_eq hv hq⟩

end SameVersion

/-! ## What imports have to be -/

/-- Nothing is wrong with some imports: each is resolved and may stand where it does, those of one
key lead to the same version, and the files of those that have to be bundled are in declared
bundles. -/
structure Acceptable (files : σ) (policy : BundlePolicy) (kind : Kind α) (as : List (Resolved α)) :
    Prop where
  taken : ∀ a ∈ as, ∃ target entry?, a.target = .ok target ∧ kind.entry? a.i target = .ok entry?
  agree : ∀ x ∈ sighted as, ∀ y ∈ sighted as, kind.key x.1 = kind.key y.1 →
    SameVersion files x.2 y.2
  declared : ∀ x ∈ sighted as,
    policy.bundleFor (kind.site x.1).file (kind.site x.1).treeKind ∈ policy.names

theorem Acceptable.faultless {kind : Kind α} {as : List (Resolved α)}
    (h : Acceptable files policy kind as) : Faultless files policy kind as := by
  refine ⟨h.taken, fun x hx y hy hkey hne => ?_, h.declared⟩
  rcases h.agree x hx y hy hkey with hc | ⟨v, hv, -⟩
  · exact absurd hc hne
  · exact ⟨v, hv⟩

theorem Acceptable.not_conflicted (hv : VersionsByPlace files) {kind : Kind α}
    {as : List (Resolved α)} (h : Acceptable files policy kind as) :
    ¬ Conflicted files kind (sighted as) := by
  rintro ⟨x, hx, y, hy, hkey, v, w, hxv, hyw, hne⟩
  have hyv := (h.agree x hx y hy hkey).version_eq hv hxv
  exact hne (Except.ok.inj (hyv.symm.trans hyw))

/-- Gathering imports fails for no other reason than that they are not acceptable. -/
theorem Ends.not_acceptable (hv : VersionsByPlace files) {kind : Kind α} {as : List (Resolved α)}
    {e : SplitError} (h : Ends files policy kind as (.error e)) :
    ¬ Acceptable files policy kind as := by
  intro hacceptable
  cases h with
  | clash hclash => exact hacceptable.not_conflicted hv hclash.conflicted
  | fault hfault => exact hfault hacceptable.faultless

/-- Imports that lead to the version of their group lead to the same version. -/
theorem Settles.sameVersion (hv : VersionsByPlace files) {kind : Kind α} {xs : List (α × Path)}
    {gs : List (ImportGroup α)} (h : Settles files kind xs gs) {x y : α × Path} (hx : x ∈ xs)
    (hy : y ∈ xs) (hkey : kind.key x.1 = kind.key y.1) : SameVersion files x.2 y.2 := by
  obtain ⟨g, hg, hgk⟩ := h.covers x hx
  have hgx := h.agree g hg x hx hgk.symm
  have hgy := h.agree g hg y hy (hkey.symm.trans hgk.symm)
  exact hgx.symm.trans hv hgy

/-! ## Imports that are looked at -/

theorem mem_sighted_of_external {as : List (Resolved α)} {a : Resolved α} (ha : a ∈ as) {p : Path}
    (h : a.target = .ok (.external p)) : (a.i, p) ∈ sighted as :=
  List.mem_filterMap.mpr ⟨a, ha, by rw [h]⟩

/-- An import that leads to an entry file for a resolver without memory leads there. -/
theorem Resolves.exists_sighted (ha : AnswersByPlace files options) {kind : Kind α}
    {specifier : α → String} {template : Bool} {imports : List α} {as : List (Resolved α)}
    (h : Resolves files options kind specifier template imports as) {i : α} (hi : i ∈ imports)
    {p : Path} (hp : answer files options (kind.site i).package.root
      ((kind.site i).package.replaceAlias (specifier i)) template = .ok (.external p)) :
    ∃ p' : Path, p.components = p'.components ∧ (i, p') ∈ sighted as := by
  rw [← h.imports] at hi
  obtain ⟨a, hmem, rfl⟩ := List.mem_map.mp hi
  have hagree := Resolver.Leads.agree ha ⟨_, rfl, hp⟩ (h.leads a hmem)
  obtain ⟨target, htarget, hsame⟩ := hagree.of_ok rfl
  cases hsame with
  | refl => exact ⟨p, rfl, mem_sighted_of_external hmem htarget⟩
  | external hc => exact ⟨_, hc, mem_sighted_of_external hmem htarget⟩

/-! ## Taking imports up -/

theorem taken_of_take {kind : Kind α} {gs gs' : List (ImportGroup α)} {a : Resolved α}
    {r r' : Resolver} (h : outcome (take files kind gs a) r = (.ok gs', r')) :
    ∃ target entry?, a.target = .ok target ∧ kind.entry? a.i target = .ok entry? := by
  cases ht : a.target with
  | error e => simp [take, ht] at h
  | ok target =>
      cases he : kind.entry? a.i target with
      | error e => simp [take, ht, he] at h
      | ok entry? => exact ⟨target, entry?, rfl, he⟩

theorem taken_of_foldlM {kind : Kind α} {gs gs' : List (ImportGroup α)} {as : List (Resolved α)}
    {r r' : Resolver} (h : outcome (as.foldlM (take files kind) gs) r = (.ok gs', r')) :
    ∀ a ∈ as, ∃ target entry?, a.target = .ok target ∧ kind.entry? a.i target = .ok entry? := by
  induction as generalizing gs r with
  | nil => exact nofun
  | cons a as ih =>
      rw [List.foldlM_cons] at h
      obtain ⟨next, r₁, hfirst, hrest⟩ := outcome_bind_eq_ok_iff.mp h
      exact List.forall_mem_cons.mpr ⟨taken_of_take hfirst, ih hrest⟩

/-- How gathering imports comes out: with settled groups of all that have to be bundled, or they are
not acceptable. -/
inductive Gathers (files : σ) (policy : BundlePolicy) (kind : Kind α) (as : List (Resolved α)) :
    Except SplitError (List (ImportGroup α)) → Prop where
  | groups {gs}
      (ht : ∀ a ∈ as, ∃ target entry?, a.target = .ok target ∧ kind.entry? a.i target = .ok entry?)
      (hs : Settles files kind (sighted as) gs) (hg : Grouped kind.key (externals as) gs) :
      Gathers files policy kind as (.ok gs)
  | refused {e} (h : ¬ Acceptable files policy kind as) : Gathers files policy kind as (.error e)

theorem gathers_group (policy : BundlePolicy) (hv : VersionsByPlace files) (kind : Kind α)
    (specifier : α → String) (template : Bool) (hk : kind.TakesExternal) (imports : List α)
    {r : Resolver} (hr : Recalls files options r) : ∃ as,
      Resolves files options kind specifier template imports as ∧
      Gathers files policy kind as (outcome (group files kind specifier template imports) r).1 := by
  obtain ⟨hresolves, hr'⟩ := resolves_resolveAll kind specifier template imports hr
  refine ⟨_, hresolves, ?_⟩
  rw [outcome_group]
  generalize (resolveAll files (fun i => (kind.site i).package) specifier template imports r).1 = as
  have hstart : Anchored files kind (sighted []) [] := .nil files kind
  have hends := ends_foldlM policy hv hstart hr' hk as
  rw [List.nil_append] at hends
  generalize ho : outcome (as.foldlM (take files kind) []) _ = found at hends ⊢
  obtain ⟨result, r₁⟩ := found
  cases result with
  | ok gs =>
      cases hends with
      | settled hanchored =>
          exact .groups (taken_of_foldlM ho) hanchored.settles
            (grouped_of_foldlM hk (.nil kind.key) ho).1
  | error e => exact .refused (hends.not_acceptable hv)

/-! ## Plans -/

/-- The plan holds the imports, and these are acceptable. -/
structure Planned (files : σ) (policy : BundlePolicy) (as : List (Resolved LiteralImport))
    (bs : List (Resolved TemplateImport)) (plan : BundlePlan) : Prop where
  literals : Acceptable files policy Split.literals as
  templates : Acceptable files policy Split.templates bs
  faithful : plan.Faithful policy (externals as) (externals bs)
  settled : Settles files Split.literals (sighted as)
    (plan.groups (·.staticImports) ++ plan.groups (·.dynamicImports))
  settledTemplates : Settles files Split.templates (sighted bs) (plan.groups (·.templateImports))

/-- What asking for a plan comes to: a plan, or the imports are not acceptable. -/
inductive Decides (files : σ) (policy : BundlePolicy) (as : List (Resolved LiteralImport))
    (bs : List (Resolved TemplateImport)) : Except SplitError BundlePlan → Prop where
  | plan {plan} (h : Planned files policy as bs plan) : Decides files policy as bs (.ok plan)
  | refused {e} (h : ¬ (Acceptable files policy literals as ∧
      Acceptable files policy templates bs)) : Decides files policy as bs (.error e)

/-- The importers of all groups are in declared bundles when the groups are in bundles. -/
theorem declared_of_distributed {kind : Kind α}
    {cmp : ImportGroup α → ImportGroup α → Ordering} {imports : List α}
    {parts : List (String × List (ImportGroup α))} (h : Distributed policy kind cmp imports parts)
    {i : α} (hi : i ∈ imports) :
    policy.bundleFor (kind.site i).file (kind.site i).treeKind ∈ policy.names := by
  obtain ⟨g, hg, hig⟩ := List.mem_flatMap.mp (h.grouped.once.symm.subset hi)
  obtain ⟨part, hpart, hg⟩ := List.mem_flatMap.mp hg
  exact (h.chosen part hpart g hg).declared _ (List.mem_map.mpr ⟨i, hig, rfl⟩)

theorem mem_externals_of_mem_sighted {as : List (Resolved α)} {x : α × Path}
    (h : x ∈ sighted as) : x.1 ∈ externals as :=
  map_fst_sighted as ▸ List.mem_map.mpr ⟨x, h, rfl⟩

/-- The files of literal imports are in declared bundles when the imports are in bundles. -/
theorem declared_of_faithful {plan : BundlePlan} {is : List LiteralImport}
    {ts : List TemplateImport} (h : plan.Faithful policy is ts) {i : LiteralImport} (hi : i ∈ is) :
    policy.bundleFor (literals.site i).file (literals.site i).treeKind ∈ policy.names := by
  cases hd : i.isDynamic with
  | false => exact declared_of_distributed h.statics (List.mem_filter.mpr ⟨hi, by simp [hd]⟩)
  | true => exact declared_of_distributed h.dynamics (List.mem_filter.mpr ⟨hi, hd⟩)

/-- Groups that were gathered are put into bundles exactly when the imports are acceptable. -/
theorem Gathers.decides (hv : VersionsByPlace files) {as : List (Resolved LiteralImport)}
    {bs : List (Resolved TemplateImport)} {result : Except SplitError _}
    {result' : Except SplitError _} (hl : Gathers files policy literals as result)
    (ht : Gathers files policy templates bs result') :
    Decides files policy as bs (result >>= fun ls => result' >>= fun ts =>
      assignAll policy ls ts) := by
  cases hl with
  | refused h => exact .refused fun hboth => h hboth.1
  | @groups ls htaken hsettles hgrouped =>
      cases ht with
      | refused h => exact .refused fun hboth => h hboth.2
      | @groups ts htaken' hsettles' hgrouped' =>
          change Decides files policy as bs (assignAll policy ls ts)
          cases hassign : assignAll policy ls ts with
          | error e =>
              refine .refused fun hboth => ?_
              obtain ⟨plan, ho⟩ := assignAll_succeeds
                (hboth.1.faultless.declared_groups hgrouped)
                (hboth.2.faultless.declared_groups hgrouped')
              cases ho.symm.trans hassign
          | ok plan =>
              have hfaithful := faithful_of_assignAll hgrouped hgrouped' hassign
              exact .plan
                { literals := ⟨htaken, fun x hx y hy => hsettles.sameVersion hv hx hy, fun x hx =>
                    declared_of_faithful hfaithful (mem_externals_of_mem_sighted hx)⟩
                  templates := ⟨htaken', fun x hx y hy => hsettles'.sameVersion hv hx hy,
                    fun x hx => declared_of_distributed hfaithful.templates
                      (mem_externals_of_mem_sighted hx)⟩
                  faithful := hfaithful
                  settled := hsettles.literals_of_assignAll hassign
                  settledTemplates := hsettles'.templates_of_assignAll hassign }

/-- There is a plan exactly for acceptable imports. -/
theorem decides_plan (policy : BundlePolicy) (hv : VersionsByPlace files) {r : Resolver}
    (hr : Recalls files options r) (imports : List Import) : ∃ as bs,
      Resolves files options literals (·.specifier) false (includedLiterals imports) as ∧
      Resolves files options templates TemplateImport.leadingText true (includedTemplates imports)
        bs ∧
      Decides files policy as bs (outcome (plan files policy imports) r).1 := by
  obtain ⟨as, has, hliterals⟩ := gathers_group policy hv literals (·.specifier) false
    takesExternal_literals (includedLiterals imports) hr
  have hremains := remains_group literals (·.specifier) false (includedLiterals imports) r hr
  obtain ⟨bs, hbs, htemplates⟩ := gathers_group policy hv templates TemplateImport.leadingText true
    takesExternal_templates (includedTemplates imports) hremains
  refine ⟨as, bs, has, hbs, ?_⟩
  rw [plan_eq_bind]
  exact hliterals.decides hv htemplates

end Split

/-! ## Splitters -/

namespace Splitter

variable {σ : Type} [Files σ] {files : σ} {options : ResolveOptions} {policy : BundlePolicy}
  {content : Nat → List Import} {s : Splitter} {lists : List (Shared (List Import))}

/-- A single list is the only one with its stamp. -/
theorem known_singleton (list : Shared (List Import)) : Known (fun _ => list.value) [list] := by
  intro l hl
  rw [List.mem_singleton.mp hl]

/-- A splitter without a plan makes one. -/
theorem outcome_plan_of_new (policy : BundlePolicy) (r : Resolver)
    (lists : List (Shared (List Import))) :
    (outcome (Splitter.plan files lists) { policy, resolver := r }).1.map (·.value) =
      (outcome (Split.plan files policy (lists.flatMap (·.value))) r).1 := by
  rw [outcome_plan_of_unknown (s := { policy, resolver := r }) rfl]
  generalize outcome (Split.plan files policy (lists.flatMap (·.value))) r = found
  obtain ⟨result, r'⟩ := found
  cases result <;> rfl

/-- A plan that a splitter keeps was made from the lists it is kept for. -/
theorem Run.made (h : Run files options policy content s) :
    ∀ last, s.last = some last → Known content last.inputs ∧ ∃ r, Recalls files options r ∧
      (outcome (Split.plan files policy (last.inputs.flatMap (·.value))) r).1 =
        .ok last.plan.value := by
  induction h with
  | new hr => exact nofun
  | share _ hr ih => exact ih
  | @plan s lists h hl ih =>
      have hsound := h.sound
      intro last hlast
      cases hk : s.known? lists with
      | some known =>
          rw [outcome_plan_of_known hk] at hlast
          exact ih last hlast
      | none =>
          rw [outcome_plan_of_unknown hk, hsound.uses] at hlast
          generalize ho : outcome (Split.plan files policy (lists.flatMap (·.value))) s.resolver =
            found at hlast
          obtain ⟨result, r⟩ := found
          cases result with
          | error e => exact ih last hlast
          | ok plan =>
              obtain rfl := Option.some.inj hlast
              exact ⟨hl, s.resolver, hsound.recalls, by rw [ho]⟩

/-- What a splitter at work answers is what making a plan from the same imports comes to. -/
theorem Run.answers (h : Run files options policy content s) (hl : Known content lists) :
    ∃ r, Recalls files options r ∧
      (outcome (Splitter.plan files lists) s).1.map (·.value) =
        (outcome (Split.plan files policy (lists.flatMap (·.value))) r).1 := by
  cases hk : s.known? lists with
  | some known =>
      rw [outcome_plan_of_known hk]
      obtain ⟨last, hlast, rfl, hsame⟩ := known?_eq_some_iff.mp hk
      obtain ⟨hinputs, r, hr, hmade⟩ := h.made last hlast
      rw [flatMap_eq_of_sameLists hinputs hl hsame] at hmade
      exact ⟨r, hr, hmade.symm⟩
  | none =>
      refine ⟨s.resolver, h.sound.recalls, ?_⟩
      rw [outcome_plan_of_unknown hk, h.sound.uses]
      generalize outcome (Split.plan files policy (lists.flatMap (·.value))) s.resolver = found
      obtain ⟨result, r⟩ := found
      cases result <;> rfl

/-- A splitter at work gives a plan exactly for acceptable imports. -/
theorem Run.decides (hv : Resolver.VersionsByPlace files) (h : Run files options policy content s)
    (hl : Known content lists) : ∃ as bs,
      Split.Resolves files options Split.literals (·.specifier) false
        (Split.includedLiterals (lists.flatMap (·.value))) as ∧
      Split.Resolves files options Split.templates TemplateImport.leadingText true
        (Split.includedTemplates (lists.flatMap (·.value))) bs ∧
      Split.Decides files policy as bs
        ((outcome (Splitter.plan files lists) s).1.map (·.value)) := by
  obtain ⟨r, hr, ho⟩ := h.answers hl
  rw [ho]
  exact Split.decides_plan policy hv hr _

end Splitter

end VendorBundle
