import VendorBundle.Proofs.Bundle.Conflicts

/-!
# Policies that declare all of their bundles

With a policy that gives files only to bundles that it declares, whatever a splitter has seen before
and wherever the imports come from, no bundle is unknown, and each import that is kept is in a
declared bundle.
-/

namespace VendorBundle

open Effect

/-- All bundles that files can belong to are declared. -/
def BundlePolicy.Total (policy : BundlePolicy) : Prop :=
  ∀ path kind, policy.bundleFor path kind ∈ policy.names

/-- The error is not about a bundle that is not declared. -/
def SplitError.KnowsBundles (e : SplitError) : Prop :=
  ∀ path bundle declared, e ≠ .unknownBundle path bundle declared

/-- The declared bundles hold the groups, each in the bundle that its importers choose. -/
structure BundlePlan.Within (policy : BundlePolicy) (plan : BundlePlan) : Prop where
  names : plan.bundles.map (·.1) = policy.names.eraseDups
  statics : ∀ part ∈ plan.parts (·.staticImports), ∀ g ∈ part.2,
    policy.Chooses (g.importers.map Split.literals.site) part.1
  dynamics : ∀ part ∈ plan.parts (·.dynamicImports), ∀ g ∈ part.2,
    policy.Chooses (g.importers.map Split.literals.site) part.1
  templates : ∀ part ∈ plan.parts (·.templateImports), ∀ g ∈ part.2,
    policy.Chooses (g.importers.map Split.templates.site) part.1

namespace Split

variable {α σ : Type} [Files σ] {files : σ} {policy : BundlePolicy}

/-! ## Where bundles are looked up -/

theorem throws_versionOf (path : Path) :
    Throws SplitError.KnowsBundles (versionOf files path) := by
  intro r e r' ho
  rw [outcome_versionOf, Prod.mk.injEq] at ho
  cases hv : (r.versionOf files path).1 with
  | ok version => simp [hv, Except.mapError] at ho
  | error e' =>
      rw [hv] at ho
      obtain rfl := Except.error.inj ho.1
      exact nofun

theorem throws_checkVersions (specifier : String) (first second : String × Path) :
    Throws SplitError.KnowsBundles (checkVersions files specifier first second) := by
  refine (throws_versionOf first.2).bind fun a => (throws_versionOf second.2).bind fun b => ?_
  split
  · exact .pure _
  · exact .throw nofun

theorem throws_gather (kind : Kind α) (i : α) (entrypoint : Path) (gs : List (ImportGroup α)) :
    Throws SplitError.KnowsBundles (gather files kind i entrypoint gs) := by
  induction gs with
  | nil => exact .pure _
  | cons g gs ih =>
      rw [gather]
      split
      · split
        · exact (throws_checkVersions g.key _ _).bind fun _ => .pure _
        · exact .pure _
      · exact ih.bind fun _ => .pure _

/-- The kinds of imports know nothing of bundles. -/
theorem literalEntry?_error {i : LiteralImport} {target : Target} {e : SplitError}
    (h : literalEntry? i target = .error e) : e.KnowsBundles := by
  cases target with
  | localPath path =>
      change (if i.isDynamic then .error (.relativeDynamic i.specifier i.site.file) else .ok none) =
        Except.error e at h
      split at h
      · obtain rfl := Except.error.inj h
        exact nofun
      · cases h
  | _ => cases h

theorem templateEntry?_error {i : TemplateImport} {target : Target} {e : SplitError}
    (h : templateEntry? i target = .error e) : e.KnowsBundles := by
  cases target with
  | external entrypoint => cases h
  | url => cases h
  | notInstalled => cases h
  | localPath path =>
      obtain rfl := Except.error.inj h
      exact nofun
  | imprecise =>
      obtain rfl := Except.error.inj h
      exact nofun

theorem throws_group {kind : Kind α}
    (hk : ∀ i target e, kind.entry? i target = .error e → e.KnowsBundles)
    (specifier : α → String) (template : Bool) (imports : List α) :
    Throws SplitError.KnowsBundles (group files kind specifier template imports) := by
  have htake : ∀ groups r, Throws SplitError.KnowsBundles (take files kind groups r) := by
    intro groups r
    rw [take]
    split
    · exact .throw (by simp [SplitError.KnowsBundles])
    · split
      · rename_i e he
        exact .throw (hk _ _ _ he)
      · exact .pure _
      · exact throws_gather kind r.i _ groups
  have hget : Throws SplitError.KnowsBundles (get : Effect Resolver SplitError Resolver) :=
    .of_ok fun r => ⟨r, r, rfl⟩
  have hset (r : Resolver) :
      Throws SplitError.KnowsBundles (set r : Effect Resolver SplitError PUnit) :=
    .of_ok fun _ => ⟨⟨⟩, r, rfl⟩
  exact hget.bind fun _ => (hset _).bind fun _ => .foldlM htake _ _

/-- Making a plan fails with an unknown bundle only if the policy does not declare it. -/
theorem throws_plan (hp : policy.Total) (imports : List Import) :
    Throws SplitError.KnowsBundles (plan files policy imports) := by
  have hassign (ls : List (ImportGroup LiteralImport)) (ts : List (ImportGroup TemplateImport)) :
      Throws SplitError.KnowsBundles
        (Files.look fun _ => assignAll policy ls ts : Effect Resolver SplitError BundlePlan) := by
    obtain ⟨made, hmade⟩ := assignAll_succeeds
      (fun _ _ _ _ => hp _ _) fun _ _ _ _ => hp _ _
    exact .of_ok fun r => ⟨made, r, by rw [outcome_look, hmade]⟩
  exact (throws_group (fun _ _ _ => literalEntry?_error) _ _ _).bind fun ls =>
    (throws_group (fun _ _ _ => templateEntry?_error) _ _ _).bind fun ts => hassign ls ts

/-! ## Where groups are put -/

theorem chooses_of_mem_sorted {kind : Kind α} {gs : List (ImportGroup α)}
    {name : String} {le : ImportGroup α → ImportGroup α → Bool} {g : ImportGroup α}
    (hg : g ∈ (gs.filter (goesTo? policy kind · = some name)).mergeSort le) :
    policy.Chooses (g.importers.map kind.site) name := by
  have hgoes := (List.mem_filter.mp (List.mem_mergeSort.mp hg)).2
  exact chooses_of_goesTo? (of_decide_eq_true hgoes)

theorem within_of_assignAll {ls : List (ImportGroup LiteralImport)}
    {ts : List (ImportGroup TemplateImport)} {made : BundlePlan}
    (h : assignAll policy ls ts = .ok made) : made.Within policy := by
  obtain ⟨rfl, -, -, -⟩ := filled_of_assignAll h
  constructor
  · rw [filled, BundlePlan.sorted, List.map_map, List.map_map]
    exact List.map_id _
  all_goals
    rw [BundlePlan.parts, BundlePlan.sorted, filled, List.map_map, List.map_map]
    intro part hpart g hg
    obtain ⟨name, -, rfl⟩ := List.mem_map.mp hpart
    exact chooses_of_mem_sorted hg

theorem within_of_plan {imports : List Import} {made : BundlePlan} {r r' : Resolver}
    (h : outcome (plan files policy imports) r = (.ok made, r')) : made.Within policy := by
  obtain ⟨ls, r₁, -, h⟩ := outcome_bind_eq_ok_iff.mp h
  obtain ⟨ts, r₂, -, h⟩ := outcome_bind_eq_ok_iff.mp h
  rw [outcome_look, Prod.mk.injEq] at h
  exact within_of_assignAll h.1

end Split

namespace Splitter

variable {policy : BundlePolicy} {s : Splitter}

/-- A splitter for one policy. Its calls may be about different states of the file system, and for
any lists of imports, and its resolver may have learnt anything in between. -/
inductive InUse (policy : BundlePolicy) : Splitter → Prop where
  | new (r : Resolver) : InUse policy { policy, resolver := r }
  | share {s : Splitter} (h : InUse policy s) (r : Resolver) : InUse policy { s with resolver := r }
  | plan {σ : Type} [Files σ] {s : Splitter} (h : InUse policy s) (files : σ)
      (lists : List (Shared (List Import))) : InUse policy (outcome (Splitter.plan files lists) s).2

/-- What holds of a splitter in use: the plan that it keeps is within the policy. -/
structure Guarded (policy : BundlePolicy) (s : Splitter) : Prop where
  uses : s.policy = policy
  last : ∀ last, s.last = some last → last.plan.value.Within policy

/-- Asked for a plan, a splitter stays as it has to be, and a plan that it gives is within the
policy. -/
theorem Guarded.plan {σ : Type} [Files σ] (h : Guarded policy s) (files : σ)
    (lists : List (Shared (List Import))) :
    Guarded policy (outcome (Splitter.plan files lists) s).2 ∧
      ∀ shared, (outcome (Splitter.plan files lists) s).1 = .ok shared →
        shared.value.Within policy := by
  obtain rfl := h.uses
  cases ho : outcome (Splitter.plan files lists) s with
  | mk result s' =>
      cases result with
      | ok shared =>
          obtain ⟨rfl, last, hlast, rfl, -⟩ | ⟨-, r, hmade, -, rfl⟩ := plan_cases ho
          · exact ⟨h, fun _ hs => Except.ok.inj hs ▸ h.last last hlast⟩
          · have hwithin := Split.within_of_plan hmade
            exact ⟨⟨rfl, fun _ hlast => Option.some.inj hlast ▸ hwithin⟩,
              fun _ hs => Except.ok.inj hs ▸ hwithin⟩
      | error e =>
          obtain ⟨-, r, -, rfl⟩ := plan_failed ho
          exact ⟨⟨rfl, h.last⟩, nofun⟩

theorem InUse.guarded (h : InUse policy s) : Guarded policy s := by
  induction h with
  | new r => exact ⟨rfl, nofun⟩
  | share _ r ih => exact ⟨ih.uses, ih.last⟩
  | plan _ files lists ih => exact (ih.plan files lists).1

/-- A policy that gives files to declared bundles only has no unknown bundles. -/
theorem InUse.knowsBundles {σ : Type} [Files σ] (hp : policy.Total) (h : InUse policy s)
    (files : σ) (lists : List (Shared (List Import))) {e : SplitError}
    (he : (outcome (Splitter.plan files lists) s).1 = .error e) : e.KnowsBundles := by
  obtain ⟨-, r, hfailed, -⟩ := plan_failed (Prod.ext he rfl)
  rw [h.guarded.uses] at hfailed
  exact Split.throws_plan hp _ _ _ _ hfailed

end Splitter

end VendorBundle
