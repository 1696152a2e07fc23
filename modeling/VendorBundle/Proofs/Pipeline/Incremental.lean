import VendorBundle.Proofs.Pipeline.Build

/-!
# Building again and again

However the trees are edited between the builds of one pipeline, as long as what the resolver has
read stays fixed each build gives the plan of a new pipeline. It makes a plan only for the first
build and where the imports of some tree are others than at the build before.
-/

namespace VendorBundle.Pipeline

open Effect Memory
open List (Forall₂)
open ImportIndex (Holds Tracks Updated Gathered Collected)
open Resolver (Sound Grows answer)
open Split (importAnswer isIncluded)

/-! ## Runs -/

/-- What a pipeline is created from. -/
structure Settings where
  trees : List (Package × SourceTree)
  resolve : ResolveOptions := {}
  listOptions : ListOptions := {}
  policy : BundlePolicy

/-- The pipeline before its first build. -/
def Settings.create (c : Settings) : Pipeline :=
  Pipeline.create c.trees c.resolve c.listOptions c.policy

/-- The import lists of the trees, as they are handed out. -/
def lists (p : Pipeline) : List (List Import) := p.imports.1.map (·.value)

/-- What the resolver of a pipeline has found out is still so in another state: the imports of the
last build lead where they led, and the searches behind all that it remembers give what they gave.
That is less than that every file it has read stays the same. -/
structure Undisturbed (p : Pipeline) (m m' : Memory) : Prop where
  imports : ∀ i ∈ p.lists.flatten, isIncluded i →
    importAnswer m' p.splitter.resolver.options i = importAnswer m p.splitter.resolver.options i
  targets : ∀ key target, p.splitter.resolver.targets.lookup key = some target →
    ∃ root : Path, root.components = key.1 ∧
      answer m' p.splitter.resolver.options root key.2.1 key.2.2 =
        answer m p.splitter.resolver.options root key.2.1 key.2.2
  versions : ∀ key version, p.splitter.resolver.versions.lookup key = some version →
    ∃ path : Path, path.components = key ∧
      Resolver.searchVersion m' path = Resolver.searchVersion m path

/-- What one pipeline and the file system go through: the files are edited anywhere and the plan is
built, always with success. The outcome is that of the last build. -/
inductive Run (c : Settings) : Memory → Pipeline → Option BuildOutcome → Prop where
  | start {m} (hm : m.Reachable) : Run c m c.create none
  | edit {m p last} (op : Operation) (h : Run c m p last) (hc : m.clock ≤ (op.run m).clock)
      (hu : p.Undisturbed m (op.run m)) : Run c (op.run m) p last
  | build {m p p' last o} (h : Run c m p last)
      (ho : outcome (Pipeline.build m) p = (.ok o, p')) : Run c m p' (some o)

/-! ## Related lists -/

section

variable {α β γ : Type} {R : α → β → Prop}

theorem map_eq_of_forall₂ {f : α → γ} {g : β → γ} {as : List α} {bs : List β}
    (h : Forall₂ R as bs) (hfg : ∀ a b, R a b → f a = g b) : as.map f = bs.map g := by
  induction h with
  | nil => rfl
  | cons hab _ ih => rw [List.map_cons, List.map_cons, hfg _ _ hab, ih]

theorem forall_mem_of_forall₂ {P : β → Prop} {as : List α} {bs : List β} (h : Forall₂ R as bs)
    (hP : ∀ a b, R a b → P b) : ∀ b ∈ bs, P b := by
  induction h with
  | nil => exact nofun
  | cons hab _ ih => exact List.forall_mem_cons.mpr ⟨hP _ _ hab, ih⟩

theorem exists_forall₂ {as : List α} (h : ∀ a ∈ as, ∃ b, R a b) : ∃ bs, Forall₂ R as bs := by
  induction as with
  | nil => exact ⟨[], .nil⟩
  | cons a as ih =>
      obtain ⟨b, hb⟩ := h a List.mem_cons_self
      obtain ⟨bs, hbs⟩ := ih fun a ha => h a (List.mem_cons_of_mem _ ha)
      exact ⟨b :: bs, .cons hb hbs⟩

end

/-! ## Lists and stamps -/

variable {c : Settings} {m m' built : Memory} {p p' : Pipeline}

theorem lists_of_collected (h : ∀ index ∈ p.indexes, Collected index) :
    p.lists = p.indexes.map (·.list) := by
  rw [lists, Pipeline.imports]
  simp only [List.map_map]
  refine List.map_congr_left fun index hi => ?_
  simp [(h index hi).imports]

/-- When every list has a new stamp exactly when it is another list, the stamps of all tell whether
any list is another one. -/
theorem stamps_eq_iff {olds news : List ImportIndex}
    (h : Forall₂ (fun old new => new.collections = old.collections ↔ new.list = old.list)
      olds news) : news.map (·.collections) = olds.map (·.collections) ↔
        news.map (·.list) = olds.map (·.list) := by
  induction h with
  | nil => simp
  | cons h _ ih =>
      simp only [List.map_cons, List.cons.injEq, h, ih]

/-! ## Before a build -/

/-- A plan was made for some imports, on a state on which they led where they lead now. -/
def Made (c : Settings) (m : Memory) (imports : List Import) (plan : BundlePlan)
    (r : Resolver) : Prop :=
  ∃ m₀ r₀, Sound m₀ c.resolve r₀ ∧ outcome (Split.plan m₀ c.policy imports) r₀ = (.ok plan, r) ∧
    ∀ i ∈ imports, isIncluded i → importAnswer m c.resolve i = importAnswer m₀ c.resolve i

/-- The indexes have handed out the lists that the last plan was made from. -/
structure Recalls (c : Settings) (m : Memory) (p : Pipeline) (last : Splitter.Last) : Prop where
  inputs : last.inputs.map (·.stamp) = p.indexes.map (·.collections)
  indexes : ∀ index ∈ p.indexes, Collected index ∧
    ∃ (old : Memory) (entries : List Entry), Holds old index entries
  made : Made c m (p.indexes.flatMap (·.list)) last.plan.value p.splitter.resolver

/-- A pipeline from which a build leads to the plan of the present state. -/
structure Ready (c : Settings) (m : Memory) (p : Pipeline) : Prop where
  listOptions : p.listOptions = c.listOptions
  policy : p.splitter.policy = c.policy
  trees : p.indexes.map (fun index => (index.package, index.tree)) = c.trees
  tracks : ∀ index ∈ p.indexes, Tracks m index (m.listing index.tree.root c.listOptions) ∧
    (Collected index ∨ index.collected.stale = true)
  sound : Sound m c.resolve p.splitter.resolver
  recalls : ∀ last, p.splitter.last = some last → Recalls c m p last

theorem ready_create (c : Settings) (m : Memory) : Ready c m c.create where
  listOptions := rfl
  policy := rfl
  trees := by simp [Settings.create, Pipeline.create, Function.comp_def]
  tracks index hi := by
    obtain ⟨tree, -, rfl⟩ := List.mem_map.mp hi
    exact ⟨ImportIndex.tracks_create m _ _ _, .inr rfl⟩
  sound := Resolver.sound_create m c.resolve
  recalls _ h := absurd h nofun

/-! ## After a build -/

/-- A pipeline that has been built on an earlier state, since which what its resolver has found out
has stayed so. -/
structure Settled (c : Settings) (built m : Memory) (p : Pipeline) (plan : Shared BundlePlan) :
    Prop where
  reachableBuilt : built.Reachable
  reachable : m.Reachable
  since : Since (fun _ => True) built m
  listOptions : p.listOptions = c.listOptions
  policy : p.splitter.policy = c.policy
  trees : p.indexes.map (fun index => (index.package, index.tree)) = c.trees
  holds : ∀ index ∈ p.indexes,
    index.snapshot.entries = built.listing index.tree.root c.listOptions ∧
      Holds built index (built.listing index.tree.root c.listOptions) ∧ Collected index
  sound : Sound m c.resolve p.splitter.resolver
  last : ∃ last, p.splitter.last = some last ∧ last.plan = plan ∧ Recalls c m p last

namespace Settled

variable {plan : Shared BundlePlan}

theorem lists_eq (h : Settled c built m p plan) : p.lists = p.indexes.map (·.list) :=
  lists_of_collected fun index hi => (h.holds index hi).2.2

/-- Edits that leave the resolver undisturbed keep the pipeline settled. -/
theorem edit (h : Settled c built m p plan) (op : Operation) (hc : m.clock ≤ (op.run m).clock)
    (hu : p.Undisturbed m (op.run m)) : Settled c built (op.run m) p plan where
  reachableBuilt := h.reachableBuilt
  reachable := h.reachable.step op hc
  since := h.since.follows (op.follows m) hc
  listOptions := h.listOptions
  policy := h.policy
  trees := h.trees
  holds := h.holds
  sound := by
    refine ⟨h.sound.uses, fun root s t target hl => ?_, fun path version hl => ?_⟩
    · obtain ⟨root', hroot, hsame⟩ := hu.targets _ target hl
      obtain ⟨found, hfound, ht⟩ := h.sound.target root' s t target (hroot ▸ hl)
      rw [h.sound.uses] at hsame
      obtain ⟨found', hfound', ht'⟩ :=
        (Resolver.answer_congr hroot s t).of_ok (hsame.trans hfound)
      exact ⟨found', hfound', ht.trans ht'⟩
    · obtain ⟨path', hpath, hsame⟩ := hu.versions _ version hl
      have hfound := hsame.trans (h.sound.version path' version (hpath ▸ hl))
      obtain ⟨version', hfound', rfl⟩ := (Resolver.searchVersion_congr _ hpath).of_ok hfound
      exact hfound'
  last := by
    obtain ⟨last, hl, hp, hinputs, hindexes, m₀, r₀, hr₀, hplan, hsame⟩ := h.last
    refine ⟨last, hl, hp, hinputs, hindexes, m₀, r₀, hr₀, hplan, fun i hi hincluded => ?_⟩
    have hlist : i ∈ p.lists.flatten := by
      rw [h.lists_eq]
      exact hi
    have := hu.imports i hlist hincluded
    rw [h.sound.uses] at this
    rw [this, hsame i hi hincluded]

/-- With stat tokens a settled pipeline is ready for the next build. -/
theorem ready (hmode : c.listOptions.tokenMode = .stat) (h : Settled c built m p plan) :
    Ready c m p where
  listOptions := h.listOptions
  policy := h.policy
  trees := h.trees
  tracks index hi := by
    obtain ⟨hsnapshot, hholds, hcollected⟩ := h.holds index hi
    exact ⟨hholds.tracks hmode h.reachableBuilt.named h.reachable.named h.reachableBuilt.dated
      h.since hsnapshot, .inl hcollected⟩
  sound := h.sound
  recalls last hl := by
    obtain ⟨last', hl', -, hr⟩ := h.last
    exact Option.some.inj (hl'.symm.trans hl) ▸ hr

end Settled

/-! ## A build -/

/-- The lists that are handed out, with the stamps of the indexes that hand them out. -/
def shared (p : Pipeline) : List (Shared (List Import)) :=
  p.indexes.map fun index => ⟨index.collections, index.list⟩

theorem listed_eq (hm : m.Named) (h : Ready c m p) : p.listed m =
    p.indexes.map fun index => (index, .ok (m.listing index.tree.root c.listOptions)) := by
  rw [listed, h.listOptions]
  simp only [listTree_eq_listing hm]

/-- What the indexes of a pipeline that is ready are updated to. -/
theorem Ready.updated (hm : m.Named) (h : Ready c m p) {indexes : List ImportIndex}
    (hu : updateIndexes m (p.listed m) = (.ok (), indexes)) :
    Forall₂ (fun old index => old ∈ p.indexes ∧
      Updated m old (m.listing old.tree.root c.listOptions) index) p.indexes indexes := by
  rw [listed_eq hm h, updateIndexes_eq_ok_iff, List.forall₂_map_left_iff] at hu
  refine ((List.forall₂_and_left _ _).mpr ⟨fun _ h => h, hu⟩).imp fun old index ⟨hi, hupdate⟩ => ⟨hi, ?_⟩
  obtain ⟨listing, hl, ho⟩ := hupdate
  obtain rfl := Except.ok.inj hl
  exact (ImportIndex.update_spec (ascending_listing hm _ _) (h.tracks old hi).1).1 index ho

/-- All that a build of a pipeline that is ready leads to, but for the plan. -/
structure Gathers (c : Settings) (m : Memory) (p p' : Pipeline) : Prop where
  listOptions : p'.listOptions = c.listOptions
  policy : p'.splitter.policy = c.policy
  trees : p'.indexes.map (fun index => (index.package, index.tree)) = c.trees
  holds : ∀ index ∈ p'.indexes,
    index.snapshot.entries = m.listing index.tree.root c.listOptions ∧
      Holds m index (m.listing index.tree.root c.listOptions) ∧ Collected index
  stamps : ∀ last, p.splitter.last = some last →
    (p'.indexes.map (·.collections) = p.indexes.map (·.collections) ↔
      p'.indexes.map (·.list) = p.indexes.map (·.list))

theorem Gathers.lists_eq (h : Gathers c m p p') : p'.lists = p'.indexes.map (·.list) :=
  lists_of_collected fun index hi => (h.holds index hi).2.2

/-- The indexes after a build, and the lists that the splitter is given. -/
theorem Ready.gathers (hm : m.Named) (h : Ready c m p) {indexes : List ImportIndex}
    (hu : updateIndexes m (p.listed m) = (.ok (), indexes))
    (hi : p'.indexes = indexes.map (·.imports.2)) (hl : p'.listOptions = c.listOptions)
    (hs : p'.splitter.policy = c.policy) :
    Gathers c m p p' ∧ indexes.map (·.imports.1) = p'.shared := by
  have hupdated := h.updated hm hu
  have hgathered : ∀ index ∈ indexes, ∃ old ∈ p.indexes,
      Gathered m old (m.listing old.tree.root c.listOptions) index.imports.2 ∧
        index.imports.1 = ⟨index.imports.2.collections, index.imports.2.list⟩ :=
    forall_mem_of_forall₂ hupdated fun old index ⟨hi, hu⟩ =>
      ⟨old, hi, hu.gathered (h.tracks old hi).2⟩
  rw [shared, hi]
  refine ⟨⟨hl, hs, ?_, fun index hm => ?_, fun last hlast => ?_⟩, ?_⟩
  · rw [hi, ← h.trees, List.map_map]
    refine (map_eq_of_forall₂ hupdated fun old index ⟨hi, hu⟩ => ?_).symm
    obtain ⟨hg, -⟩ := hu.gathered (h.tracks old hi).2
    exact (Prod.ext hg.package hg.tree).symm
  · obtain ⟨updated, hmem, rfl⟩ := List.mem_map.mp (hi ▸ hm)
    obtain ⟨old, -, hg, -⟩ := hgathered updated hmem
    have hholds := hg.holds
    have hsnapshot := hg.snapshot
    rw [← hg.tree] at hholds hsnapshot
    exact ⟨hsnapshot, hholds, hg.collected⟩
  · have hindexes := (h.recalls last hlast).indexes
    refine stamps_eq_iff ?_
    rw [hi, List.forall₂_map_right_iff]
    refine hupdated.imp fun old index ⟨hi, hu⟩ => ?_
    obtain ⟨hcollected, before, entries, hholds⟩ := hindexes old hi
    exact hu.stamp_eq_iff hholds hcollected
  · rw [List.map_map]
    refine List.map_congr_left fun index hm => ?_
    obtain ⟨old, -, -, heq⟩ := hgathered index hm
    exact heq

theorem flatMap_shared (p : Pipeline) :
    p.shared.flatMap (·.value) = p.indexes.flatMap (·.list) := by
  rw [shared, List.flatMap_map]

theorem stamps_shared (p : Pipeline) :
    p.shared.map (·.stamp) = p.indexes.map (·.collections) := by
  rw [shared, List.map_map]
  rfl

theorem Gathers.settled (hm : m.Reachable) (hg : Gathers c m p p') {last : Splitter.Last}
    (hl : p'.splitter.last = some last)
    (hi : last.inputs.map (·.stamp) = p'.indexes.map (·.collections))
    (hs : Sound m c.resolve p'.splitter.resolver)
    (hmade : Made c m (p'.indexes.flatMap (·.list)) last.plan.value p'.splitter.resolver) :
    Settled c m m p' last.plan where
  reachableBuilt := hm
  reachable := hm
  since := .refl _ m
  listOptions := hg.listOptions
  policy := hg.policy
  trees := hg.trees
  holds := hg.holds
  sound := hs
  last := ⟨last, hl, rfl, hi, fun index hx =>
    ⟨(hg.holds index hx).2.2, m, _, (hg.holds index hx).2.1⟩, hmade⟩

/-- When the lists have the stamps of the last plan, they are the lists of the last plan. -/
theorem Ready.reuse (hm : m.Reachable) (h : Ready c m p) (hg : Gathers c m p p')
    (hs : p'.splitter = p.splitter) {last : Splitter.Last} (hl : p.splitter.last = some last)
    (hsame : Splitter.sameLists last.inputs p'.shared) : Settled c m m p' last.plan ∧
      p'.indexes.map (·.list) = p.indexes.map (·.list) := by
  have hrecalls := h.recalls last hl
  have hstamps : p'.indexes.map (·.collections) = p.indexes.map (·.collections) := by
    rw [← hrecalls.inputs, ← stamps_shared]
    exact (beq_iff_eq.mp hsame).symm
  have hlists := (hg.stamps last hl).mp hstamps
  have hflat : p'.indexes.flatMap (·.list) = p.indexes.flatMap (·.list) := by
    rw [List.flatMap_def, List.flatMap_def, hlists]
  refine ⟨hg.settled hm (hs ▸ hl) (hrecalls.inputs.trans hstamps.symm) (hs ▸ h.sound) ?_, hlists⟩
  rw [hflat, hs]
  exact hrecalls.made

/-- A plan that was made anew is kept with the lists it was made from. -/
theorem Ready.remake (hm : m.Reachable) (h : Ready c m p) (hg : Gathers c m p p')
    {plan : BundlePlan} {r : Resolver} (hs : p'.splitter = p.splitter.made p'.shared plan r)
    (hmade : outcome (Split.plan m p.splitter.policy (p'.shared.flatMap (·.value)))
      p.splitter.resolver = (.ok plan, r)) :
    Settled c m m p' ⟨p.splitter.recomputations + 1, plan⟩ := by
  rw [flatMap_shared, h.policy] at hmade
  have hlearns := Split.learns_plan c.policy (p'.indexes.flatMap (·.list)) p.splitter.resolver
    h.sound
  rw [hmade] at hlearns
  have hresolver : p'.splitter.resolver = r := by rw [hs]; rfl
  have hlast : p'.splitter.last = some ⟨p'.shared, p.splitter.recomputations + 1, plan⟩ := by
    rw [hs, Splitter.made]
  exact hg.settled hm hlast (stamps_shared p') (hresolver ▸ hlearns.1)
    ⟨m, p.splitter.resolver, h.sound, hresolver ▸ hmade, fun _ _ _ => rfl⟩

/-- When the lists do not have the stamps of the last plan, there is none or a list is another. -/
theorem Ready.differs (h : Ready c m p) (hg : Gathers c m p p')
    (hnone : ∀ last, p.splitter.last = some last →
      Splitter.sameLists last.inputs p'.shared = false) :
    p.splitter.last = none ∨ p'.indexes.map (·.list) ≠ p.indexes.map (·.list) := by
  cases hl : p.splitter.last with
  | none => exact .inl rfl
  | some last =>
      refine .inr fun hlists => ?_
      have hstamps := (hg.stamps last hl).mpr hlists
      have hdiffers := hnone last hl
      rw [Splitter.sameLists, (h.recalls last hl).inputs, stamps_shared, hstamps] at hdiffers
      simp at hdiffers

/-- A build of a pipeline that is ready settles it. It makes a plan for the first build or for other
lists than those of the last one, and gives out the last plan otherwise. -/
theorem Ready.build (hm : m.Reachable) (h : Ready c m p) {o : BuildOutcome}
    (ho : outcome (Pipeline.build m) p = (.ok o, p')) : Settled c m m p' o.plan ∧
      (o.recomputed = true ↔ p.splitter.last = none ∨
        p'.indexes.map (·.list) ≠ p.indexes.map (·.list)) ∧
      (o.recomputed = false → ∃ last, p.splitter.last = some last ∧ last.plan = o.plan) := by
  obtain ⟨indexes, splitter, hu, hplan, hp', hr⟩ := outcome_build_eq_ok_iff.mp ho
  have hindexes : p'.indexes = indexes.map (·.imports.2) := by rw [hp']
  have hsplitter : p'.splitter = splitter := by rw [hp']
  have hoptions : p'.listOptions = c.listOptions := by rw [hp']; exact h.listOptions
  have hpolicy : p'.splitter.policy = c.policy := by
    rw [hsplitter, ← h.policy]
    rcases Splitter.plan_cases hplan with ⟨rfl, -⟩ | ⟨-, r, -, -, rfl⟩ <;> rfl
  obtain ⟨hg, hshared⟩ := h.gathers hm.named hu hindexes hoptions hpolicy
  rw [hshared] at hplan
  rcases Splitter.plan_cases hplan with ⟨hs, last, hl, hp, hsame⟩ | ⟨hnone, r, hmade, hstamp, hs⟩
  · obtain ⟨hsettled, hlists⟩ := h.reuse hm hg (hsplitter.trans hs) hl hsame
    refine ⟨hp ▸ hsettled, ?_, fun _ => ⟨last, hl, hp⟩⟩
    rw [hr, hs, hl]
    simp [hlists]
  · have hsettled := h.remake hm hg (hsplitter.trans hs) hmade
    rw [← hstamp] at hsettled
    have hrecomputed : o.recomputed = true := by
      rw [hr, hs]
      simp [Splitter.made]
    refine ⟨hsettled, ?_, fun hfalse => absurd (hrecomputed.symm.trans hfalse) nofun⟩
    exact iff_of_true hrecomputed (h.differs hg hnone)

/-! ## A new pipeline -/

/-- Indexes of the same trees that know the imports of the same listings have the same lists. -/
theorem lists_unique {options : ListOptions} {as bs : List ImportIndex}
    (ht : as.map (fun index => (index.package, index.tree)) =
      bs.map (fun index => (index.package, index.tree)))
    (ha : ∀ index ∈ as, Holds m index (m.listing index.tree.root options))
    (hb : ∀ index ∈ bs, Holds m index (m.listing index.tree.root options)) :
    as.map (·.list) = bs.map (·.list) := by
  induction as generalizing bs with
  | nil => rw [List.map_eq_nil_iff.mp ht.symm]
  | cons a as ih =>
      cases bs with
      | nil => exact absurd ht (by simp)
      | cons b bs =>
          rw [List.map_cons, List.map_cons, List.cons.injEq, Prod.mk.injEq] at ht
          obtain ⟨⟨hp, htree⟩, hrest⟩ := ht
          obtain ⟨ha, has⟩ := List.forall_mem_cons.mp ha
          obtain ⟨hb, hbs⟩ := List.forall_mem_cons.mp hb
          rw [← htree] at hb
          rw [List.map_cons, List.map_cons, ha.list_unique hb hp htree, ih hrest has hbs]

/-- Where a pipeline is settled just after a build, a new one can read all files too. -/
theorem Settled.fresh_updates {plan : Shared BundlePlan} (h : Settled c m m p plan) :
    ∃ indexes, updateIndexes m (c.create.listed m) = (.ok (), indexes) := by
  have hm := h.reachable.named
  have hready := ready_create c m
  simp only [listed_eq hm hready, updateIndexes_eq_ok_iff, List.forall₂_map_left_iff]
  refine exists_forall₂ fun index hi => ?_
  have htree : (index.package, index.tree) ∈ p.indexes.map fun x => (x.package, x.tree) := by
    rw [h.trees, ← hready.trees]
    exact List.mem_map_of_mem hi
  obtain ⟨settled, hx, he⟩ := List.mem_map.mp htree
  obtain ⟨hp, ht⟩ := Prod.mk.inj he
  obtain ⟨-, hholds, -⟩ := h.holds settled hx
  obtain ⟨-, hsucceeds⟩ :=
    ImportIndex.update_spec (ascending_listing hm _ _) (hready.tracks index hi).1
  obtain ⟨index', ho⟩ := hsucceeds fun path hpath => by
    rw [ImportIndex.programs, ← hp, ← ht] at hpath
    rw [← ImportIndex.readFile_congr hp ht]
    exact ⟨_, hholds.read path hpath⟩
  exact ⟨index', _, rfl, ho⟩

/-- Where a pipeline is settled just after a build, a new one is built with the same lists and the
same plan. -/
theorem Settled.fresh {plan : Shared BundlePlan} (h : Settled c m m p plan) :
    ∃ o q, outcome (Pipeline.build m) c.create = (.ok o, q) ∧ p.lists = q.lists ∧
      plan.value.Same o.plan.value := by
  have hready := ready_create c m
  obtain ⟨indexes, hu⟩ := h.fresh_updates
  -- The splitter has no part in what the indexes hand out.
  have hgathers : Gathers c m c.create { c.create with indexes := indexes.map (·.imports.2) } ∧
      indexes.map (·.imports.1) = shared { c.create with indexes := indexes.map (·.imports.2) } :=
    hready.gathers h.reachable.named hu rfl rfl rfl
  obtain ⟨hg, hshared⟩ := hgathers
  have hlists : p.indexes.map (·.list) = (indexes.map (·.imports.2)).map (·.list) :=
    lists_unique (h.trees.trans hg.trees.symm) (fun index hi => (h.holds index hi).2.1)
      fun index hi => (hg.holds index hi).2.1
  obtain ⟨last, -, rfl, -, -, m₀, r₀, hr₀, hplan, hsame⟩ := h.last
  obtain ⟨plan, r, hfresh, hplans, -⟩ := Split.repeats_plan c.policy hsame r₀ _ _
    { options := c.resolve } hr₀ hplan h.sound (Resolver.sound_create m c.resolve)
  have hflat : (indexes.map (·.imports.1)).flatMap (·.value) = p.indexes.flatMap (·.list) := by
    rw [hshared, flatMap_shared, List.flatMap_def, List.flatMap_def, hlists]
  have hsplit : outcome (Splitter.plan m (indexes.map (·.imports.1))) c.create.splitter =
      (.ok ⟨1, plan⟩, c.create.splitter.made (indexes.map (·.imports.1)) plan r) :=
    Splitter.plan_of_new rfl (by rw [hflat]; exact hfresh)
  refine ⟨⟨⟨1, plan⟩, true⟩, _,
    outcome_build_eq_ok_iff.mpr ⟨indexes, _, hu, hsplit, rfl, rfl⟩, ?_, hplans⟩
  rw [h.lists_eq, hlists]
  exact (lists_of_collected fun index hi => (hg.holds index hi).2.2).symm

/-! ## Every build of a run -/

variable {last : Option BuildOutcome}

/-- The invariant of a run: the pipeline is new or is settled with the plan of its last build. -/
theorem Run.settled (hmode : c.listOptions.tokenMode = .stat) (h : Run c m p last) :
    m.Reachable ∧ ((p = c.create ∧ last = none) ∨
      ∃ o built, last = some o ∧ Settled c built m p o.plan) := by
  induction h with
  | start hm => exact ⟨hm, .inl ⟨rfl, rfl⟩⟩
  | edit op _ hc hu ih =>
      obtain ⟨hm, hp | ⟨o, built, hl, hs⟩⟩ := ih
      · exact ⟨hm.step op hc, .inl hp⟩
      · exact ⟨hm.step op hc, .inr ⟨o, built, hl, hs.edit op hc hu⟩⟩
  | @build m p p' last o _ ho ih =>
      obtain ⟨hm, ⟨rfl, rfl⟩ | ⟨o', built, rfl, hs⟩⟩ := ih
      · exact ⟨hm, .inr ⟨o, m, rfl, ((ready_create c m).build hm ho).1⟩⟩
      · exact ⟨hm, .inr ⟨o, m, rfl, ((hs.ready hmode).build hm ho).1⟩⟩

/-- Over stat tokens, each build of a run gives the plan of a new pipeline, up to the way its paths
are written. The plan is made exactly for the first build and when the import list of at least one
tree is another than at the build before; otherwise the plan of that build is given out again. -/
theorem Run.build_eq_fresh (hmode : c.listOptions.tokenMode = .stat) (h : Run c m p last)
    {o : BuildOutcome} (ho : outcome (Pipeline.build m) p = (.ok o, p')) :
    (∃ fresh q, outcome (Pipeline.build m) c.create = (.ok fresh, q) ∧ p'.lists = q.lists ∧
      o.plan.value.Same fresh.plan.value) ∧
    (o.recomputed = true ↔ last = none ∨ ∃ tree : Nat, p'.lists[tree]? ≠ p.lists[tree]?) ∧
    (o.recomputed = false → ∃ before, last = some before ∧ o.plan = before.plan) := by
  obtain ⟨hm, ⟨rfl, rfl⟩ | ⟨before, built, rfl, hs⟩⟩ := h.settled hmode
  · obtain ⟨hsettled, hr, hf⟩ := (ready_create c m).build hm ho
    have hfirst : o.recomputed = true := hr.mpr (.inl rfl)
    exact ⟨hsettled.fresh, iff_of_true hfirst (.inl rfl),
      fun hfalse => absurd (hfirst.symm.trans hfalse) nofun⟩
  · obtain ⟨hsettled, hr, hf⟩ := (hs.ready hmode).build hm ho
    obtain ⟨memory, hl, hp, -⟩ := hs.last
    refine ⟨hsettled.fresh, ?_, fun hfalse => ?_⟩
    · rw [hr, hl, hsettled.lists_eq, hs.lists_eq, ne_eq, List.ext_getElem?_iff, not_forall]
      simp
    · obtain ⟨reused, hreused, ho⟩ := hf hfalse
      obtain rfl := Option.some.inj (hl.symm.trans hreused)
      exact ⟨before, rfl, ho.symm.trans hp⟩

/-! ## Trees that a walk finds in order -/

/-- An index that has followed its tree, as a walk through it finds it. -/
def caughtUp (m : Memory) (index : ImportIndex) : ImportIndex :=
  let found := m.walked index.tree.root {}
  { (outcome (ImportIndex.follow m (Patch.between index.snapshot.entries found)) index).2 with
    snapshot := ⟨found⟩ }

/-- The tree is found in order, and the index can follow it. -/
def Followable (m : Memory) (index : ImportIndex) : Prop :=
  let found := m.walked index.tree.root {}
  Entry.Ascending found ∧
    (outcome (ImportIndex.follow m (Patch.between index.snapshot.entries found)) index).1 = .ok ()

instance (m : Memory) (index : ImportIndex) : Decidable (Followable m index) :=
  inferInstanceAs (Decidable (_ ∧ _))

/-- What indexes are updated to, without sorting any listing. -/
theorem updateIndexes_of_followable (hm : m.Named) (ho : p.listOptions = {})
    (h : ∀ index ∈ p.indexes, Followable m index) :
    updateIndexes m (p.listed m) = (.ok (), p.indexes.map (caughtUp m)) := by
  rw [updateIndexes_eq_ok_iff, listed, ho, List.forall₂_map_left_iff, List.forall₂_map_right_iff,
    List.forall₂_same]
  intro index hi
  obtain ⟨ha, hf⟩ := h index hi
  refine ⟨m.walked index.tree.root {}, ?_, ?_⟩
  · rw [listTree_eq_listing hm, listing_eq_walked hm ha]
  · rw [ImportIndex.outcome_update ha, caughtUp]
    generalize outcome (ImportIndex.follow m _) index = x at hf ⊢
    obtain ⟨result, index'⟩ := x
    obtain rfl : result = .ok () := hf
    rfl

/-! ## A file whose import becomes dynamic -/

deriving instance DecidableEq for Resolver

namespace OneTree

def package : Package := { name := "app", root := ⟨"/app"⟩ }

def settings : Settings where
  trees := [(package, { root := ⟨"/app/src"⟩ })]
  policy := .standard

def started : Memory :=
  ((Memory.empty ⟨"/"⟩).addFile ⟨"/app/node_modules/x/index.js"⟩ "".toUTF8).addFile
    ⟨"/app/src/a.js"⟩ "import 'x';".toUTF8

theorem reachable_started : started.Reachable :=
  ((Reachable.empty ⟨"/"⟩).step (.addFile ⟨"/app/node_modules/x/index.js"⟩ "".toUTF8)
    (by decide +kernel)).step (.addFile ⟨"/app/src/a.js"⟩ "import 'x';".toUTF8) (by decide +kernel)

def edited : Memory := started.addFile ⟨"/app/src/a.js"⟩ "import('x');".toUTF8

/-- What a walk through the tree finds. -/
def found (m : Memory) : List Entry := m.walked ⟨"/app/src"⟩ {}

/-- The index after it has followed the tree. -/
def followed (m : Memory) (index : ImportIndex) : ImportIndex :=
  { (outcome (ImportIndex.follow m (Patch.between index.snapshot.entries (found m))) index).2 with
    snapshot := ⟨found m⟩ }

theorem listTree_eq_found {m : Memory} (hm : m.Named) (ha : Entry.Ascending (found m)) :
    listTree m ⟨"/app/src"⟩ {} = .ok (found m) := by
  rw [listTree_eq_listing hm, listing_eq_walked hm ha, found]

/-- A build that makes a plan, evaluated without sorting the listing. -/
theorem build_of_followed {m : Memory} (hm : m.Named) (ha : Entry.Ascending (found m))
    {p : Pipeline} {index index' : ImportIndex} (hi : p.indexes = [index])
    (ho : p.listOptions = {}) (ht : index.tree.root = ⟨"/app/src"⟩)
    (hf : (outcome (ImportIndex.follow m (Patch.between index.snapshot.entries (found m)))
      index).1 = .ok ()) {list : Shared (List Import)}
    (hl : (followed m index).imports = (list, index')) {plan : Shared BundlePlan}
    {splitter : Splitter}
    (hs : outcome (Splitter.plan m [list]) p.splitter = (.ok plan, splitter))
    (hr : splitter.recomputations = p.splitter.recomputations + 1) :
    outcome (Pipeline.build m) p =
      (.ok ⟨plan, true⟩, { indexes := [index'], splitter, last := some plan }) := by
  have hu : updateIndexes m (p.listed m) = (.ok (), [followed m index]) := by
    rw [updateIndexes_of_followable hm ho, hi, List.map_singleton, caughtUp, ht]
    · rfl
    · rw [hi, List.forall_mem_singleton, Followable, ht]
      exact ⟨ha, hf⟩
  refine outcome_build_eq_ok_iff.mpr ⟨[followed m index], splitter, hu, ?_, ?_, ?_⟩
  · rw [List.map_singleton, hl, hs]
  · rw [List.map_singleton, hl, ho]
  · simp [hr]

/-- The import of the file, as it stands there. -/
def written (isDynamic : Bool) : LiteralImport where
  specifier := "x"
  isDynamic
  site := { file := "a.js", package }

def gathered (isDynamic : Bool) : ImportGroup LiteralImport where
  key := "x"
  entrypoint := ⟨"/app/node_modules/x/index.js"⟩
  first := written isDynamic

def learnt : Resolver where
  options := {}
  targets := [(((Path.mk "/app").components, "x", false),
    .external ⟨"/app/node_modules/x/index.js"⟩)]

/-- The plan with the one import, before its groups are put in order. -/
def plan (isDynamic : Bool) : BundlePlan := .sorted ⟨[
  ("app", if isDynamic then { dynamicImports := [gathered true] }
    else { staticImports := [gathered false] }),
  ("tests", {})]⟩

theorem plan_of_gathered {m : Memory} {isDynamic : Bool} {r : Resolver}
    (h : outcome (Split.group m Split.literals (·.specifier) false [written isDynamic]) r =
      (.ok [gathered isDynamic], learnt)) :
    outcome (Split.plan m .standard [.literal (written isDynamic)]) r =
      (.ok (plan isDynamic), learnt) := by
  have hliterals : Split.includedLiterals [.literal (written isDynamic)] =
      [written isDynamic] := by cases isDynamic <;> decide +kernel
  have htemplates : Split.includedTemplates [.literal (written isDynamic)] = [] := by
    cases isDynamic <;> decide +kernel
  have hnone : outcome (Split.group m Split.templates TemplateImport.leadingText true
      (Split.includedTemplates [.literal (written isDynamic)])) learnt = (.ok [], learnt) := by
    rw [htemplates]
    rfl
  rw [← hliterals] at h
  refine (Split.outcome_plan_of_groups h hnone).trans ?_
  cases isDynamic <;> rfl

/-- The index before the first build. -/
def index : ImportIndex := { package, tree := { root := ⟨"/app/src"⟩ } }

/-- The index after the first build. -/
def firstIndex : ImportIndex := (followed started index).imports.2

/-- The pipeline after the first build. -/
def first : Pipeline where
  indexes := [firstIndex]
  splitter := settings.create.splitter.made [⟨1, [.literal (written false)]⟩] (plan false) learnt
  last := some ⟨1, plan false⟩

theorem build_started :
    outcome (Pipeline.build started) settings.create = (.ok ⟨⟨1, plan false⟩, true⟩, first) := by
  have hlist : (followed started index).imports =
      (⟨1, [.literal (written false)]⟩, firstIndex) := Prod.ext (by decide +kernel) rfl
  have hsplit : outcome (Splitter.plan started [⟨1, [.literal (written false)]⟩])
      settings.create.splitter = (.ok ⟨1, plan false⟩, first.splitter) :=
    Splitter.plan_of_new rfl (plan_of_gathered (by decide +kernel))
  exact build_of_followed reachable_started.named (by decide +kernel) rfl rfl rfl
    (by decide +kernel) hlist hsplit rfl

/-- The index after the second build. -/
def secondIndex : ImportIndex := (followed edited firstIndex).imports.2

/-- The pipeline after the second build. -/
def second : Pipeline where
  indexes := [secondIndex]
  splitter := first.splitter.made [⟨2, [.literal (written true)]⟩] (plan true) learnt
  last := some ⟨2, plan true⟩

theorem build_edited :
    outcome (Pipeline.build edited) first = (.ok ⟨⟨2, plan true⟩, true⟩, second) := by
  have hlist : (followed edited firstIndex).imports =
      (⟨2, [.literal (written true)]⟩, secondIndex) := Prod.ext (by decide +kernel) rfl
  have hplan : outcome (Split.plan edited first.splitter.policy [.literal (written true)])
      first.splitter.resolver = (.ok (plan true), learnt) :=
    plan_of_gathered (by decide +kernel)
  have hsplit : outcome (Splitter.plan edited [⟨2, [.literal (written true)]⟩]) first.splitter =
      (.ok ⟨2, plan true⟩, second.splitter) := by
    rw [Splitter.outcome_plan_of_unknown rfl, List.flatMap_singleton, hplan]
    rfl
  exact build_of_followed (by decide +kernel) (by decide +kernel) rfl rfl (by decide +kernel)
    (by decide +kernel) hlist hsplit rfl

theorem undisturbed_first : first.Undisturbed started edited where
  imports := by decide +kernel
  targets key target h := by
    have hlookup : learnt.targets.lookup key = some target := h
    simp only [learnt, List.lookup_cons, List.lookup_nil] at hlookup
    split at hlookup
    · rename_i hkey
      obtain rfl := eq_of_beq hkey
      exact ⟨⟨"/app"⟩, rfl, by decide +kernel⟩
    · exact absurd hlookup nofun
  versions key version h := absurd h nofun

/-- One build, then an edit. -/
theorem run_edited : Run settings edited first (some ⟨⟨1, plan false⟩, true⟩) :=
  .edit (.addFile ⟨"/app/src/a.js"⟩ "import('x');".toUTF8)
    (.build (.start reachable_started) build_started) (by decide +kernel) undisturbed_first

theorem edited_eq_fresh :
    (∃ fresh q, outcome (Pipeline.build edited) settings.create = (.ok fresh, q) ∧
      second.lists = q.lists ∧ (plan true).Same fresh.plan.value) ∧
    ∃ tree : Nat, second.lists[tree]? ≠ first.lists[tree]? :=
  have h := run_edited.build_eq_fresh rfl build_edited
  ⟨h.1, (h.2.1.mp rfl).resolve_left nofun⟩

end OneTree

end VendorBundle.Pipeline
