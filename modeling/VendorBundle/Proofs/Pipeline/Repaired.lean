import VendorBundle.Proofs.Pipeline.Again

/-!
# Builds after a failed split

When a split fails, its splitter keeps what its resolver has found by then. If installed packages are
edited until a new pipeline can be built, the next build gives the plan of the new pipeline exactly
when nothing that is remembered makes a difference to the imports.
-/

namespace VendorBundle

open Effect Memory Relation
open List (Forall₂)
open Resolver (AnswersByPlace Consistent Regular Sound VersionsMatch)

/-- A splitter that has to make a plan makes the one of a new resolver exactly when what its own
remembers makes no difference. -/
theorem Splitter.plan_same_iff {σ : Type} [Files σ] {files : σ} {options : ResolveOptions}
    (ha : AnswersByPlace files options) (hv : VersionsMatch files) {s : Splitter}
    (hr : Regular options s.resolver) {lists : List (Shared (List Import))}
    (hk : s.known? lists = none) {fresh : BundlePlan}
    (hfresh : (outcome (Split.plan files s.policy (lists.flatMap (·.value))) { options }).1 =
      .ok fresh) :
    (∃ made s', outcome (Splitter.plan files lists) s = (.ok made, s') ∧ made.value.Same fresh) ↔
      Consistent files s.resolver Split.literals .literal
        (Split.includedLiterals (lists.flatMap (·.value))) ∧
      Consistent files s.resolver Split.templates .template
        (Split.includedTemplates (lists.flatMap (·.value))) := by
  rw [← Split.plan_same_iff ha hv hr hfresh, outcome_plan_of_unknown hk]
  generalize outcome (Split.plan files s.policy (lists.flatMap (·.value))) s.resolver = made
  obtain ⟨result, r⟩ := made
  cases result with
  | error e => simp
  | ok plan => simp

/-- What a resolver remembers makes no difference when it is still so. -/
theorem Resolver.consistent_of_sound {m : Memory} {options : ResolveOptions} {r : Resolver}
    (hr : Regular options r) (hs : Sound m options r) {policy : BundlePolicy}
    {imports : List Import} {fresh : BundlePlan}
    (hfresh : (outcome (Split.plan m policy imports) { options }).1 = .ok fresh) :
    Consistent m r Split.literals .literal (Split.includedLiterals imports) ∧
      Consistent m r Split.templates .template (Split.includedTemplates imports) := by
  obtain ⟨made, r', hmade, hsame, -⟩ := Split.repeats_plan policy (fun _ _ _ => rfl) { options }
    fresh _ r (sound_create m options) (Prod.ext hfresh rfl)
    (Split.learns_plan policy imports _ (sound_create m options)).1 hs
  exact (Split.plan_same_iff (answersByPlace m options) (versionsMatch m) hr hfresh).mp
    ⟨made, congrArg Prod.fst hmade, hsame.symm⟩

namespace Pipeline

variable {c : Settings} {m m' : Memory} {p p₁ q : Pipeline}

/-! ## What builds leave -/

/-- The lists that indexes have handed out are handed out again. -/
theorem imports_of_indexes {indexes : List ImportIndex}
    (h : p.indexes = indexes.map (·.imports.2)) : p.imports.1 = indexes.map (·.imports.1) := by
  rw [Pipeline.imports, h]
  simp only [List.map_map]
  exact List.map_congr_left fun index _ => congrArg Prod.fst (ImportIndex.imports_imports index)

theorem flatten_lists (p : Pipeline) : p.lists.flatten = p.imports.1.flatMap (·.value) := by
  rw [lists, List.flatMap_def]

/-- The plan of a new pipeline is the one that a new resolver makes for its lists. -/
theorem split_of_build_create {o : BuildOutcome}
    (h : outcome (Pipeline.build m) c.create = (.ok o, q)) :
    (outcome (Split.plan m c.policy q.lists.flatten) { options := c.resolve }).1 =
      .ok o.plan.value := by
  obtain ⟨indexes, splitter, -, hplan, rfl, -⟩ := outcome_build_eq_ok_iff.mp h
  rw [flatten_lists, imports_of_indexes rfl]
  rcases Splitter.plan_cases hplan with ⟨-, last, hl, -⟩ | ⟨-, r, hmade, -⟩
  · exact absurd hl nofun
  · exact congrArg Prod.fst hmade

/-- Indexes are never the reason that a split fails. -/
theorem updateIndexes_ne_split {σ : Type} [Files σ] (files : σ)
    (pairs : List (ImportIndex × Except FileError (List Entry))) (e : SplitError) :
    (updateIndexes files pairs).1 ≠ .error (.split e) := by
  induction pairs with
  | nil => exact nofun
  | cons pair pairs ih =>
      obtain ⟨index, listing⟩ := pair
      cases listing with
      | error e => exact nofun
      | ok listing =>
          rcases ho : outcome (ImportIndex.update files listing) index with ⟨e | _, index'⟩
          · rw [updateIndexes_of_error _ ho]
            exact nofun
          · rw [updateIndexes_of_ok _ ho]
            exact ih

/-- A build whose split fails has read all trees, and has no plan for their lists. -/
theorem split_failed (hm : m.Named) {e : SplitError}
    (h : outcome (Pipeline.build m) p = (.error (.split e), p₁)) :
    UpToDate m p₁ ∧ p₁.splitter.known? p₁.imports.1 = none := by
  rcases hu : updateIndexes m (p.listed m) with ⟨e' | ⟨⟩, indexes⟩
  · rw [outcome_build_of_failed hu] at h
    have hne := updateIndexes_ne_split m (p.listed m) e
    rw [hu] at hne
    exact absurd (Prod.mk.inj h).1 (fun he => hne (by rw [Except.error.inj he]))
  · rw [outcome_build_of_updated hu] at h
    cases hk : p.splitter.known? (indexes.map (·.imports.1)) with
    | some known =>
        rw [Splitter.outcome_plan_of_known hk] at h
        exact absurd (Prod.mk.inj h).1 nofun
    | none =>
        rw [Splitter.outcome_plan_of_unknown hk] at h
        generalize outcome (Split.plan m p.splitter.policy
          ((indexes.map (·.imports.1)).flatMap (·.value))) p.splitter.resolver = made at h
        obtain ⟨result, r⟩ := made
        cases result with
        | ok plan => exact absurd (Prod.mk.inj h).1 nofun
        | error e' =>
            obtain ⟨-, rfl⟩ := Prod.mk.inj h
            refine ⟨upToDate_of_updated hm hu rfl rfl, ?_⟩
            rw [imports_of_indexes rfl]
            exact hk

/-! ## After a repair -/

/-- After a build whose split has failed, and with the trees listed as they were, the next build
gives the lists and the plan of a new pipeline exactly when the failed one had these lists, and what
it has left in the memory of the resolver makes no difference to them. -/
theorem Course.repaired_iff (h : Course c (m, p)) {e : SplitError}
    (ho : outcome (Pipeline.build m) p = (.error (.split e), p₁)) (hs : c.ListsAlike m m')
    {fresh : BuildOutcome} (hf : outcome (Pipeline.build m') c.create = (.ok fresh, q)) :
    (∃ o p₂, outcome (Pipeline.build m') p₁ = (.ok o, p₂) ∧ p₂.lists = q.lists ∧
        o.plan.value.Same fresh.plan.value) ↔
      p₁.lists = q.lists ∧
      Consistent m' p₁.splitter.resolver Split.literals .literal
        (Split.includedLiterals q.lists.flatten) ∧
      Consistent m' p₁.splitter.resolver Split.templates .template
        (Split.includedTemplates q.lists.flatten) := by
  have hp := h.follows.of_build ho
  obtain ⟨huptodate, hk⟩ := split_failed h.reachable.named ho
  have hsplit := split_of_build_create hf
  rw [← hp.policy] at hsplit
  -- A plan that is made again is for the lists of the failed build.
  have hsame (hl : p₁.lists = q.lists) := Splitter.plan_same_iff
    (Resolver.answersByPlace m' c.resolve) (Resolver.versionsMatch m') hp.regular hk
    (by rw [← flatten_lists, hl]; exact hsplit)
  simp only [← flatten_lists] at hsame
  rw [(huptodate.of_listsAlike hp hs).outcome_build]
  generalize outcome (Splitter.plan m' p₁.imports.1) p₁.splitter = planned at hsame
  obtain ⟨result, splitter⟩ := planned
  have hkept : ∀ last, ({ p₁ with splitter, last } : Pipeline).lists = p₁.lists := fun _ => rfl
  constructor
  · rintro ⟨o, p₂, hbuilt, hl, hplan⟩
    cases result with
    | error e => exact absurd (Prod.mk.inj hbuilt).1 nofun
    | ok plan =>
        obtain ⟨hout, rfl⟩ := Prod.mk.inj hbuilt
        obtain rfl := Except.ok.inj hout
        rw [hkept] at hl
        have hc := (hsame hl).mp ⟨plan, splitter, rfl, hplan⟩
        rw [hl] at hc
        exact ⟨hl, hc⟩
  · rintro ⟨hl, hc⟩
    rw [← hl] at hc
    obtain ⟨plan, s', hplanned, hplan⟩ := (hsame hl).mpr hc
    obtain ⟨rfl, rfl⟩ := Prod.mk.inj hplanned
    exact ⟨_, _, rfl, (hkept _).trans hl, hplan⟩

/-! ## New pipelines -/

/-- The indexes of a new pipeline that have followed their trees, as walks find them. -/
def Settings.followed (c : Settings) (m : Memory) : List ImportIndex :=
  c.create.indexes.map (caughtUp m)

/-- The lists of a new pipeline that has read its trees. -/
def Settings.listsOn (c : Settings) (m : Memory) : List (List Import) :=
  (c.followed m).map (·.imports.1.value)

/-- A new pipeline that has read its trees, with what its splitter has come to. -/
def Settings.read (c : Settings) (m : Memory) (splitter : Splitter)
    (last : Option (Shared BundlePlan)) : Pipeline where
  indexes := (c.followed m).map (·.imports.2)
  listOptions := c.listOptions
  splitter
  last

theorem lists_read (c : Settings) (m : Memory) (splitter : Splitter)
    (last : Option (Shared BundlePlan)) : (c.read m splitter last).lists = c.listsOn m := by
  rw [lists, imports_of_indexes rfl, List.map_map]
  rfl

section

variable (hm : m.Named) (ho : c.listOptions = {})
  (hf : ∀ index ∈ c.create.indexes, Followable m index)

include hm ho hf

/-- What comes of the first build is up to the plan for the lists of the trees. -/
theorem outcome_build_create : outcome (Pipeline.build m) c.create =
    match outcome (Split.plan m c.policy (c.listsOn m).flatten) { options := c.resolve } with
    | (.error e, r) => (.error (.split e), c.read m { c.create.splitter with resolver := r } none)
    | (.ok plan, r) => (.ok ⟨⟨1, plan⟩, true⟩, c.read m
        (c.create.splitter.made ((c.followed m).map (·.imports.1)) plan r) (some ⟨1, plan⟩)) := by
  have hu : updateIndexes m (c.create.listed m) = (.ok (), c.followed m) :=
    updateIndexes_of_followable hm ho hf
  have himports : ((c.followed m).map (·.imports.1)).flatMap (·.value) = (c.listsOn m).flatten := by
    rw [Settings.listsOn, List.flatMap_def, List.map_map]
    rfl
  have hpolicy : c.create.splitter.policy = c.policy := rfl
  have hresolver : c.create.splitter.resolver = { options := c.resolve } := rfl
  rw [outcome_build_of_updated hu, Splitter.outcome_plan_of_unknown rfl, himports, hpolicy,
    hresolver]
  generalize outcome (Split.plan m c.policy (c.listsOn m).flatten) { options := c.resolve } = made
  obtain ⟨result, r⟩ := made
  cases result <;> rfl

theorem exists_build_create (h : (outcome (Split.plan m c.policy (c.listsOn m).flatten)
    { options := c.resolve }).1.toOption.isSome) :
    ∃ fresh q, outcome (Pipeline.build m) c.create = (.ok fresh, q) ∧ q.lists = c.listsOn m := by
  rw [outcome_build_create hm ho hf]
  generalize outcome (Split.plan m c.policy (c.listsOn m).flatten) { options := c.resolve } = made
    at h ⊢
  obtain ⟨result, r⟩ := made
  cases result with
  | error e => exact absurd h nofun
  | ok plan => exact ⟨_, _, rfl, lists_read c m _ _⟩

end

/-! ## A package that gets its entry file -/

namespace OneTree

/-- The directory of the package is there, but no file that it could be entered by. -/
def hollow : Memory :=
  (Memory.empty ⟨"/"⟩).addFiles [(⟨"/app/node_modules/x/readme.md"⟩, "".toUTF8),
    (⟨"/app/src/a.js"⟩, "import 'x';".toUTF8)]

theorem reachable_hollow : hollow.Reachable :=
  (Reachable.empty ⟨"/"⟩).addFiles _ (by decide)

def filled : Memory :=
  (Memory.empty ⟨"/"⟩).addFiles [(⟨"/app/node_modules/x/readme.md"⟩, "".toUTF8),
    (⟨"/app/src/a.js"⟩, "import 'x';".toUTF8), (⟨"/app/node_modules/x/index.js"⟩, "".toUTF8)]

theorem reachable_filled : filled.Reachable :=
  (Reachable.empty ⟨"/"⟩).addFiles _ (by decide)

def noEntry : SplitError := .resolve (.entryNotFound "x" ⟨"/app/node_modules/x"⟩ ⟨"/app"⟩)

theorem read_hollow : (∀ index ∈ settings.create.indexes, Followable hollow index) ∧
    settings.listsOn hollow = [[.literal (written false)]] ∧
    outcome (Split.plan hollow settings.policy [.literal (written false)])
      { options := settings.resolve } = (.error noEntry, { options := {} }) := by
  decide +kernel

theorem read_filled : (∀ tree ∈ settings.trees,
      Entry.Ascending (hollow.walked tree.2.root settings.listOptions) ∧
      filled.walked tree.2.root settings.listOptions =
        hollow.walked tree.2.root settings.listOptions) ∧
    (∀ index ∈ settings.create.indexes, Followable filled index) ∧
    settings.listsOn filled = [[.literal (written false)]] ∧
    (outcome (Split.plan filled settings.policy [.literal (written false)])
      { options := settings.resolve }).1.toOption.isSome := by
  decide +kernel

/-- The pipeline after the build that has failed: its resolver has found nothing. -/
def stuck : Pipeline := settings.read hollow settings.create.splitter none

theorem build_hollow :
    outcome (Pipeline.build hollow) settings.create = (.error (.split noEntry), stuck) := by
  obtain ⟨hf, hlists, hplan⟩ := read_hollow
  rw [outcome_build_create reachable_hollow.named rfl hf, hlists, List.flatten_singleton, hplan]
  rfl

/-- Nothing was remembered that could be outdated once the entry file is there. -/
theorem filled_repaired : ∃ fresh q o p₂,
    outcome (Pipeline.build hollow) settings.create = (.error (.split noEntry), stuck) ∧
    settings.ListsAlike hollow filled ∧
    outcome (Pipeline.build filled) settings.create = (.ok fresh, q) ∧
    outcome (Pipeline.build filled) stuck = (.ok o, p₂) ∧ p₂.lists = q.lists ∧
    o.plan.value.Same fresh.plan.value := by
  have hcourse : Course settings (hollow, settings.create) := ⟨hollow, reachable_hollow, .refl⟩
  obtain ⟨hwalked, hf, hlists, hplan⟩ := read_filled
  have hs : settings.ListsAlike hollow filled :=
    listsAlike_of_walked reachable_hollow.named reachable_filled.named hwalked
  obtain ⟨fresh, q, hfresh, hq⟩ := exists_build_create reachable_filled.named rfl hf
    (by rw [hlists]; exact hplan)
  have hsame : stuck.lists = q.lists := by
    rw [hq, stuck, lists_read, read_hollow.2.1, hlists]
  have hconsistent := Resolver.consistent_of_sound (Resolver.regular_create settings.resolve)
    (Resolver.sound_create filled settings.resolve) (split_of_build_create hfresh)
  have hresolver : stuck.splitter.resolver = { options := settings.resolve } := rfl
  rw [← hresolver] at hconsistent
  have hrepaired := (hcourse.repaired_iff build_hollow hs hfresh).mpr ⟨hsame, hconsistent⟩
  obtain ⟨o, p₂, hbuilt, hrepaired⟩ := hrepaired
  exact ⟨fresh, q, o, p₂, build_hollow, hs, hfresh, hbuilt, hrepaired⟩

end OneTree

/-! ## Two packages that get the same version -/

namespace TwoPackages

def package (name : String) : Package := { name, root := ⟨"/" ++ name⟩ }

def settings : Settings where
  trees := [(package "a", { root := ⟨"/a"⟩ }), (package "b", { root := ⟨"/b"⟩ })]
  policy := .standard

def literal (name : String) : LiteralImport where
  specifier := "x/package.json"
  isDynamic := false
  site := { file := name ++ ".js", package := package name }

def manifest (name : String) : Path := ⟨"/" ++ name ++ "/node_modules/x/package.json"⟩

/-- A manifest that only has a version. -/
def declared (version : String) : ByteArray :=
  ("\x7b\"version\":\"" ++ version ++ "\"\x7d").toUTF8

def program : ByteArray := "import 'x/package.json';".toUTF8

/-- Each of the packages imports the version that it has installed. -/
def unaligned : Memory :=
  (Memory.empty ⟨"/"⟩).addFiles [(manifest "a", declared "1"), (manifest "b", declared "2"),
    (⟨"/a/a.js"⟩, program), (⟨"/b/b.js"⟩, program)]

theorem reachable_unaligned : unaligned.Reachable :=
  (Reachable.empty ⟨"/"⟩).addFiles _ (by decide)

/-- The second package gets the version of the first. -/
def align : Operation := .addFile (manifest "b") (declared "1")

theorem reachable_align : (align.run unaligned).Reachable :=
  (Reachable.empty ⟨"/"⟩).addFiles [(manifest "a", declared "1"),
    (manifest "b", declared "2"), (⟨"/a/a.js"⟩, program), (⟨"/b/b.js"⟩, program),
    (manifest "b", declared "1")] (by decide)

def lists : List (List Import) := [[.literal (literal "a")], [.literal (literal "b")]]

def conflict : SplitError :=
  .versionConflict "x/package.json" ⟨"a.js", manifest "a", "1"⟩ ⟨"b.js", manifest "b", "2"⟩

/-- What the resolver has found when the versions turn out to differ. -/
def learnt : Resolver where
  options := {}
  targets := [
    (((package "b").root.components, "x/package.json", false), .external (manifest "b")),
    (((package "a").root.components, "x/package.json", false), .external (manifest "a"))]
  versions := [((manifest "b").components, "2"), ((manifest "a").components, "1")]

theorem read_unaligned : (∀ index ∈ settings.create.indexes, Followable unaligned index) ∧
    settings.listsOn unaligned = lists ∧
    outcome (Split.plan unaligned settings.policy lists.flatten) { options := settings.resolve } =
      (.error conflict, learnt) := by
  decide +kernel

theorem read_align : (∀ tree ∈ settings.trees,
      Entry.Ascending (unaligned.walked tree.2.root settings.listOptions) ∧
      (align.run unaligned).walked tree.2.root settings.listOptions =
        unaligned.walked tree.2.root settings.listOptions) ∧
    (∀ index ∈ settings.create.indexes, Followable (align.run unaligned) index) ∧
    settings.listsOn (align.run unaligned) = lists := by
  decide +kernel

/-- A new resolver finds the one version, and the one that has failed goes on finding two. -/
theorem plan_align :
    (outcome (Split.plan (align.run unaligned) settings.policy lists.flatten)
      { options := settings.resolve }).1.toOption.isSome ∧
    outcome (Split.plan (align.run unaligned) settings.policy lists.flatten) learnt =
      (.error conflict, learnt) := by
  decide +kernel

theorem listsAlike_align : settings.ListsAlike unaligned (align.run unaligned) :=
  listsAlike_of_walked reachable_unaligned.named reachable_align.named read_align.1

/-- The pipeline after the build that has failed. -/
def failed : Pipeline :=
  settings.read unaligned { settings.create.splitter with resolver := learnt } none

theorem build_unaligned :
    outcome (Pipeline.build unaligned) settings.create = (.error (.split conflict), failed) := by
  obtain ⟨hf, hlists, hplan⟩ := read_unaligned
  rw [outcome_build_create reachable_unaligned.named rfl hf, hlists, hplan]
  rfl

/-- The version that the failed build has read is remembered, so the next build fails as before. -/
theorem build_failed :
    outcome (Pipeline.build (align.run unaligned)) failed = (.error (.split conflict), failed) := by
  obtain ⟨huptodate, hk⟩ := split_failed reachable_unaligned.named build_unaligned
  have hfollows := (follows_create settings).of_build build_unaligned
  have himports : failed.imports.1.flatMap (·.value) = lists.flatten := by
    rw [← flatten_lists, failed, lists_read, read_unaligned.2.1]
  have hplan : outcome (Split.plan (align.run unaligned) failed.splitter.policy lists.flatten)
      failed.splitter.resolver = (.error conflict, learnt) := plan_align.2
  rw [(huptodate.of_listsAlike hfollows listsAlike_align).outcome_build,
    Splitter.outcome_plan_of_unknown hk, himports, hplan]
  rfl

theorem conflict_outlasts_align :
    outcome (Pipeline.build unaligned) settings.create = (.error (.split conflict), failed) ∧
    settings.ListsAlike unaligned (align.run unaligned) ∧
    (∃ fresh q, outcome (Pipeline.build (align.run unaligned)) settings.create = (.ok fresh, q) ∧
      q.lists = failed.lists) ∧
    ∀ o p₂, outcome (Pipeline.build (align.run unaligned)) failed ≠ (.ok o, p₂) := by
  refine ⟨build_unaligned, listsAlike_align, ?_, fun o p₂ ho => ?_⟩
  · obtain ⟨-, hf, hlists⟩ := read_align
    obtain ⟨fresh, q, hfresh, hq⟩ := exists_build_create reachable_align.named rfl hf
      (by rw [hlists]; exact plan_align.1)
    refine ⟨fresh, q, hfresh, ?_⟩
    rw [hq, failed, lists_read, read_unaligned.2.1, hlists]
  · exact absurd (ho.symm.trans build_failed) nofun

end TwoPackages

end Pipeline

end VendorBundle
