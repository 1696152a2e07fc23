import VendorBundle.Proofs.Bundle.Concordant
import VendorBundle.Proofs.Pipeline.Faulty
import VendorBundle.Proofs.Tree.Diff

/-!
# Building again on the same trees

A build that has read all trees leaves indexes that have nothing to do as long as the trees are
listed as they were. The next build is then up to the splitter alone: it gives out the plan that it
keeps, or asks its resolver, which remembers what it has found on other states of the file system.
-/

namespace VendorBundle

open Effect Memory Relation
open List (Forall₂)
open Resolver (Consistent Regular)

/-! ## Indexes with nothing to do -/

namespace ImportIndex

variable {σ : Type} [Files σ] {files : σ} {index index' : ImportIndex} {next : List Entry}

theorem update_of_snapshot (ha : Entry.Ascending next) (hs : index.snapshot.entries = next) :
    outcome (update files next) index = (.ok (), index) := by
  rw [outcome_update ha, outcome_follow, hs, Patch.between_self ha]
  subst hs
  rfl

/-- The list is the same result when it is asked for again. -/
theorem imports_imports (index : ImportIndex) :
    index.imports.2.imports = (index.imports.1, index.imports.2) := by
  obtain ⟨package, tree, snapshot, perFile, ⟨stale, value⟩, collections⟩ := index
  cases stale <;> cases value <;> rfl

/-- The index is of the same package and tree. -/
def SameSource (index index' : ImportIndex) : Prop :=
  index'.package = index.package ∧ index'.tree = index.tree

theorem SameSource.refl (index : ImportIndex) : SameSource index index := ⟨rfl, rfl⟩

theorem SameSource.trans {index'' : ImportIndex} (h : SameSource index index')
    (h' : SameSource index' index'') : SameSource index index'' :=
  ⟨h'.1.trans h.1, h'.2.trans h.2⟩

theorem sameSource_setFile (index : ImportIndex) (path : String) (imports : List Import) :
    SameSource index (index.setFile path imports) := by
  rw [setFile]
  split <;> exact ⟨rfl, rfl⟩

theorem sameSource_follow (files : σ) (patch : Patch) : Keeps SameSource (follow files patch) := by
  have hremoved : ∀ (gone : List String) (index : ImportIndex),
      SameSource index (gone.foldl (setFile · · []) index) := by
    intro gone
    induction gone with
    | nil => exact SameSource.refl
    | cons path gone ih => exact fun index => (sameSource_setFile index path []).trans (ih _)
  have hwritten : ∀ paths : List String, Keeps SameSource (paths.forM (refresh files)) := by
    intro paths
    induction paths with
    | nil => exact .pure SameSource.refl _
    | cons path paths ih =>
        refine Keeps.bind (r := SameSource) SameSource.trans (fun index => ?_) fun _ => ih
        rw [outcome_refresh]
        cases readFile files index path with
        | error e => exact .refl index
        | ok imports => exact sameSource_setFile index path imports
  intro index
  rw [outcome_follow]
  exact (hremoved _ index).trans (hwritten _ _)

theorem sameSource_update (files : σ) (next : List Entry) : Keeps SameSource (update files next) :=
  Keeps.bind (r := SameSource) SameSource.trans (.get SameSource.refl) fun _ =>
    Keeps.bind (r := SameSource) SameSource.trans (sameSource_follow files _) fun _ _ => ⟨rfl, rfl⟩

end ImportIndex

/-! ## Splitters with their settings -/

namespace Splitter

variable {σ : Type} [Files σ]

theorem policy_plan (files : σ) (s : Splitter) (lists : List (Shared (List Import))) :
    (outcome (Splitter.plan files lists) s).2.policy = s.policy := by
  cases hk : s.known? lists with
  | some plan => rw [outcome_plan_of_known hk]
  | none =>
      rw [outcome_plan_of_unknown hk]
      split <;> rfl

theorem regular_plan {files : σ} (hv : Resolver.VersionsByPlace files) {options : ResolveOptions}
    {s : Splitter} (h : Regular options s.resolver) (lists : List (Shared (List Import))) :
    Regular options (outcome (Splitter.plan files lists) s).2.resolver := by
  cases hk : s.known? lists with
  | some plan =>
      rw [outcome_plan_of_known hk]
      exact h
  | none =>
      have hplan := Split.regular_plan hv h s.policy (lists.flatMap (·.value))
      rw [outcome_plan_of_unknown hk]
      generalize outcome (Split.plan files s.policy (lists.flatMap (·.value))) s.resolver = made
        at hplan ⊢
      obtain ⟨result, r⟩ := made
      cases result <;> exact hplan

end Splitter

namespace Pipeline

open ImportIndex (SameSource)

variable {c : Settings} {m m' : Memory} {p p' : Pipeline}

/-! ## Pipelines with the settings they were created with -/

/-- The pipeline has its settings, and a resolver that remembers only paths of entry files. -/
structure Follows (c : Settings) (p : Pipeline) : Prop where
  listOptions : p.listOptions = c.listOptions
  trees : p.indexes.map (fun index => (index.package, index.tree)) = c.trees
  policy : p.splitter.policy = c.policy
  regular : Regular c.resolve p.splitter.resolver

theorem follows_create (c : Settings) : Follows c c.create where
  listOptions := rfl
  trees := by simp [Settings.create, Pipeline.create, Function.comp_def]
  policy := rfl
  regular := Resolver.regular_create c.resolve

theorem sameSource_updateIndexes {σ : Type} [Files σ] (files : σ)
    (pairs : List (ImportIndex × Except FileError (List Entry))) :
    Forall₂ SameSource (pairs.map (·.1)) (updateIndexes files pairs).2 := by
  have hrefl : ∀ indexes, Forall₂ SameSource indexes indexes := fun indexes =>
    List.forall₂_same.mpr fun index _ => .refl index
  induction pairs with
  | nil => exact .nil
  | cons pair pairs ih =>
      obtain ⟨index, listing⟩ := pair
      cases listing with
      | error e => exact .cons (.refl index) (hrefl _)
      | ok listing =>
          rcases ho : outcome (ImportIndex.update files listing) index with ⟨e | _, index'⟩
          · rw [updateIndexes_of_error _ ho]
            exact .cons ((ImportIndex.sameSource_update files listing).related ho) (hrefl _)
          · rw [updateIndexes_of_ok _ ho]
            exact .cons ((ImportIndex.sameSource_update files listing).related ho) ih

/-- The indexes stay those of the trees. -/
theorem Follows.trees_of_updated (h : Follows c p) {result : Except BuildError Unit}
    {indexes : List ImportIndex} (hu : updateIndexes m (p.listed m) = (result, indexes)) :
    indexes.map (fun index => (index.package, index.tree)) = c.trees := by
  have hsame := sameSource_updateIndexes m (p.listed m)
  rw [hu, listed, List.map_map] at hsame
  rw [← h.trees]
  exact (map_eq_of_forall₂ (List.map_id p.indexes ▸ hsame) fun _ _ hs =>
    (Prod.ext hs.1 hs.2).symm).symm

theorem Follows.build (h : Follows c p) (m : Memory) :
    Follows c (outcome (Pipeline.build m) p).2 := by
  rcases hu : updateIndexes m (p.listed m) with ⟨e | ⟨⟩, indexes⟩
  · rw [outcome_build_of_failed hu]
    exact ⟨h.listOptions, h.trees_of_updated hu, h.policy, h.regular⟩
  · have htrees : (indexes.map (·.imports.2)).map (fun index => (index.package, index.tree)) =
        c.trees := by
      rw [← h.trees_of_updated hu, List.map_map]
      rfl
    have hpolicy := Splitter.policy_plan m p.splitter (indexes.map (·.imports.1))
    have hregular := Splitter.regular_plan (Resolver.versionsByPlace m) h.regular
      (indexes.map (·.imports.1))
    rw [outcome_build_of_updated hu]
    generalize outcome (Splitter.plan m (indexes.map (·.imports.1))) p.splitter = planned
      at hpolicy hregular ⊢
    obtain ⟨result, splitter⟩ := planned
    cases result <;>
      exact ⟨h.listOptions, htrees, hpolicy.trans h.policy, hregular⟩

theorem Follows.of_build (h : Follows c p) {result : Except BuildError BuildOutcome}
    (ho : outcome (Pipeline.build m) p = (result, p')) : Follows c p' := by
  have hbuilt := h.build m
  rwa [ho] at hbuilt

theorem Follows.steps {s s' : Memory × Pipeline} (h : Follows c s.2)
    (hsteps : ReflTransGen Step s s') : Follows c s'.2 := by
  induction hsteps with
  | refl => exact h
  | tail _ hstep ih =>
      cases hstep with
      | edit => exact ih
      | build => exact ih.build _

theorem Course.follows (h : Course c (m, p)) : Follows c p := by
  obtain ⟨m, -, hsteps⟩ := h
  exact (follows_create c).steps hsteps

theorem Course.reachable (h : Course c (m, p)) : m.Reachable := by
  obtain ⟨start, hm, hsteps⟩ := h
  have hall : ∀ s, ReflTransGen Step (start, c.create) s → s.1.Reachable := by
    intro s hs
    induction hs with
    | refl => exact hm
    | tail _ hstep ih =>
        cases hstep with
        | edit op hc => exact ih.step op hc
        | build => exact ih
  exact hall _ hsteps

/-! ## Pipelines with nothing to read -/

/-- All indexes have taken over how their trees are listed, and have handed their lists out. -/
def UpToDate (m : Memory) (p : Pipeline) : Prop :=
  ∀ index ∈ p.indexes, Entry.Ascending index.snapshot.entries ∧
    listTree m index.tree.root p.listOptions = .ok index.snapshot.entries ∧
      index.imports.2 = index

/-- Where the trees of some settings are listed as on another state. -/
def Settings.ListsAlike (c : Settings) (m m' : Memory) : Prop :=
  ∀ tree ∈ c.trees, listTree m' tree.2.root c.listOptions = listTree m tree.2.root c.listOptions

theorem UpToDate.of_listsAlike (h : UpToDate m p) (hp : Follows c p) (hs : c.ListsAlike m m') :
    UpToDate m' p := by
  intro index hi
  obtain ⟨ha, hl, himports⟩ := h index hi
  have htree : (index.package, index.tree) ∈ c.trees :=
    hp.trees ▸ List.mem_map_of_mem (f := fun index => (index.package, index.tree)) hi
  refine ⟨ha, ?_, himports⟩
  rw [hp.listOptions] at hl ⊢
  exact (hs _ htree).trans hl

/-- Trees that a walk finds in the same order on both states are listed alike. -/
theorem listsAlike_of_walked (hm : m.Named) (hm' : m'.Named)
    (h : ∀ tree ∈ c.trees, Entry.Ascending (m.walked tree.2.root c.listOptions) ∧
      m'.walked tree.2.root c.listOptions = m.walked tree.2.root c.listOptions) :
    c.ListsAlike m m' := by
  intro tree ht
  obtain ⟨ha, he⟩ := h tree ht
  rw [listTree_eq_listing hm', listTree_eq_listing hm, listing_eq_walked hm ha,
    listing_eq_walked hm' (he ▸ ha), he]

/-- A build that has read all trees leaves indexes with nothing to do. -/
theorem upToDate_of_updated (hm : m.Named) {indexes : List ImportIndex}
    (hu : updateIndexes m (p.listed m) = (.ok (), indexes))
    (hi : p'.indexes = indexes.map (·.imports.2)) (hl : p'.listOptions = p.listOptions) :
    UpToDate m p' := by
  rw [listed, updateIndexes_eq_ok_iff, List.forall₂_map_left_iff] at hu
  intro index hmem
  obtain ⟨updated, hupdated, rfl⟩ := List.mem_map.mp (hi ▸ hmem)
  obtain ⟨old, -, listing, hlisted, ho⟩ := exists_related hu.flip hupdated
  simp only [listTree_eq_listing hm, Except.ok.injEq] at hlisted
  subst hlisted
  have ha := ascending_listing hm old.tree.root p.listOptions
  have hsource := (ImportIndex.sameSource_update m (m.listing old.tree.root p.listOptions)).related ho
  rw [ImportIndex.outcome_update ha] at ho
  have hsnapshot : updated.snapshot.entries = m.listing old.tree.root p.listOptions := by
    split at ho
    · obtain rfl := (Prod.mk.inj ho).2
      rfl
    · cases (Prod.mk.inj ho).1
  have hkept : updated.imports.2.snapshot = updated.snapshot := rfl
  have htree : updated.imports.2.tree = updated.tree := rfl
  rw [hkept, htree, hsnapshot, hsource.2, hl, listTree_eq_listing hm]
  exact ⟨ha, rfl, congrArg Prod.snd (ImportIndex.imports_imports updated)⟩

/-- Where there is nothing to read, a build is up to the splitter. -/
theorem UpToDate.outcome_build (h : UpToDate m p) : outcome (Pipeline.build m) p =
    match outcome (Splitter.plan m p.imports.1) p.splitter with
    | (.error e, splitter) => (.error (.split e), { p with splitter })
    | (.ok plan, splitter) =>
        (.ok ⟨plan, splitter.recomputations != p.splitter.recomputations⟩,
          { p with splitter, last := some plan }) := by
  have hu : updateIndexes m (p.listed m) = (.ok (), p.indexes) := by
    rw [listed, updateIndexes_eq_ok_iff, List.forall₂_map_left_iff, List.forall₂_same]
    intro index hi
    obtain ⟨ha, hl, -⟩ := h index hi
    exact ⟨_, hl, ImportIndex.update_of_snapshot ha rfl⟩
  have hindexes : p.indexes.map (·.imports.2) = p.indexes :=
    (List.map_congr_left fun index hi => (h index hi).2.2).trans (List.map_id _)
  have hlists : p.indexes.map (·.imports.1) = p.imports.1 := by
    rw [Pipeline.imports, List.map_map]
    rfl
  have hbuild := outcome_build_of_updated hu
  rw [hindexes, hlists] at hbuild
  refine hbuild.trans ?_
  generalize outcome (Splitter.plan m p.imports.1) p.splitter = planned
  obtain ⟨result, splitter⟩ := planned
  cases result <;> rfl

end Pipeline

end VendorBundle
