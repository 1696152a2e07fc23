import Mathlib.Algebra.GroupWithZero.Nat
import VendorBundle.Proofs.Merge.Stages
import VendorBundle.Proofs.Merge.Turns

/-!
# How exact the summary of a build is

Whatever was built before, the summary of a build tells of removals of nothing, of directories that
stood already, and not of directories that are made on the way of other steps; it is exact in
everything else. While no build fails, each step finds what it is about, except for the removal of a
target that the build output lacks. So the summary then exceeds what was done by the number of these
targets.
-/

namespace VendorBundle

open Entry Memory Effect

/-! ## Accounting for a build -/

namespace MergeOptions

/-- A target is to be made anew that the build output lacks. -/
def vain (o : MergeOptions) (m : Memory) : Task → Bool
  | .change _ => false
  | .renewal target => o.lacks m target

end MergeOptions

/-- A stage tells what it has done, unless it is in vain. -/
structure Stage.Exact (o : MergeOptions) (m : Memory) (stage : Stage) : Prop where
  missed : stage.missed o = if o.vain m stage.task then 1 else 0
  stood : stage.stood o = 0
  aside : stage.aside o (o.merged m) = 0

namespace Merger

open MergeOptions

variable {o : MergeOptions} {old m m' : Memory} {g g' : Merger} {stages : List Stage}

theorem changes_after : (after o old).changes m = o.builtPatch old m := rfl

theorem renewals_after : (after o old).renewals m = o.left old m := rfl

theorem contains_of_mem_renewals {target : String} (h : target ∈ (after o old).renewals m) :
    o.targets.contains target = true := by
  rw [renewals_after] at h
  exact contains_of_mem_left h

theorem canonical_of_mem_tasks (hs : o.Separate) (hold : old.Named) (hm : m.Named) {task : Task}
    (h : task ∈ (after o old).tasks m) : Canonical task.path := by
  rcases List.mem_append.mp h with h | h
  · obtain ⟨op, hop, rfl⟩ := List.mem_map.mp h
    exact canonical_of_mem_changes hs.places hold hm hop
  · obtain ⟨target, ht, rfl⟩ := List.mem_map.mp h
    exact hs.targets _ (contains_of_mem_renewals ht)

/-- Between the stages of a build only places have changed that the build touches. -/
theorem alters_of_trail (ht : ∀ task ∈ stages.map Stage.task,
      task ∈ (after o old).tasks m)
    (h : Trail ((after o old).perform (o.overlay m)) (m.addDir o.outputDir) stages m') :
    Alters (o.Touches old m) (o.Opens old m) m m' := by
  refine ((alters_addDir _ m o.outputDir).mono (fun _ => id) fun _ => .inl).trans ?_
  obtain ⟨s, ho⟩ := h.summed
  refine Keeps.related (keeps_summed (Alters.refl _ _) Alters.trans fun task hmem => ?_) ho
  rcases List.mem_append.mp (ht task hmem) with h | h
  · obtain ⟨op, hop, rfl⟩ := List.mem_map.mp h
    exact alters_change hop
  · obtain ⟨target, hleft, rfl⟩ := List.mem_map.mp h
    exact alters_left hleft

/-- Every stage of a build has done what its task is for. -/
theorem done_of_trail (hs : o.Separate) (hold : old.Named) (hm : m.Named)
    (ht : stages.map Stage.task = (after o old).tasks m)
    (h : Trail ((after o old).perform (o.overlay m)) (m.addDir o.outputDir) stages m')
    {stage : Stage} (hmem : stage ∈ stages) :
    Stage.Done o stage (o.aim stage.before stage.task) := by
  obtain ⟨front, back, rfl⟩ := List.append_of_mem hmem
  obtain ⟨hfront, ho⟩ := h.outcome_of_append
  have htask : stage.task ∈ (after o old).tasks m := ht ▸ by simp
  have hnamed : stage.before.Named := named_of_alters hm (alters_of_trail
    (fun task hmem => ht ▸ by simp [List.mem_map.mp hmem]) hfront)
  refine done_of_perform (g := after o old) made_after hnamed
    (canonical_of_mem_tasks hs hold hm htask) (fun target heq => ?_) ho
  rw [heq] at htask
  rcases List.mem_append.mp htask with h | h
  · obtain ⟨op, -, hop⟩ := List.mem_map.mp h
    cases hop
  · obtain ⟨target', hleft, heq'⟩ := List.mem_map.mp h
    cases heq'
    exact contains_of_mem_renewals hleft

theorem listed_of_makeDir {task : Task} (ht : task ∈ (after o old).tasks m) {m₁ : Memory}
    (ha : o.aim m₁ task = .makeDir) :
    ∃ e ∈ o.merged m, e.kind = .directory ∧ e.path = task.path := by
  obtain ⟨path, rfl⟩ := aim_eq_makeDir_iff.mp ha
  have hop : .mkdir path ∈ o.builtPatch old m := by
    rcases List.mem_append.mp ht with h | h
    · obtain ⟨op, hop, heq⟩ := List.mem_map.mp h
      cases heq
      exact hop
    · obtain ⟨target, -, heq⟩ := List.mem_map.mp h
      cases heq
  rw [builtPatch_eq, List.mem_append, mem_removals] at hop
  rcases hop with ⟨e, -, -, he⟩ | hop
  · rw [PatchOp.removal] at he
    split at he <;> cases he
  · obtain ⟨e, he, hd⟩ := kindAt?_eq_some_iff.mp (mkdir_mem_arrivals.mp hop).1
    exact ⟨e, entryAt?_mem he, hd, entryAt?_path he⟩

/-- A build that succeeds goes through stages that are all accounted for. -/
theorem stages_of_build (hs : o.Separate) (hold : old.Named) (hm : m.Named) {s : MergeSummary}
    (ho : outcome (after o old).build m = (.ok (s, g'), m')) :
    ∃ stages, stages.map Stage.task = (after o old).tasks m ∧
      Trail ((after o old).perform (o.overlay m)) (m.addDir o.outputDir) stages m' ∧
      s = (stages.map Stage.told).sum ∧ ∀ stage ∈ stages, stage.Accounted o (o.merged m) := by
  obtain ⟨-, s₁, m₁, s₂, hfirst, hsecond, rfl⟩ := passes_of_build hm ho
  have hmap : ∀ {α : Type} (f : α → Task) (items : List α),
      summed ((after o old).perform (o.overlay m)) (items.map f) =
        summed (fun a => (after o old).perform (o.overlay m) (f a)) items :=
    fun f items => List.foldlM_map
  obtain ⟨stages₁, ht₁, htrail₁, rfl⟩ := Trail.of_summed
    ((congrArg (outcome · _) (hmap .change (o.builtPatch old m))).trans hfirst)
  obtain ⟨stages₂, ht₂, htrail₂, rfl⟩ := Trail.of_summed
    ((congrArg (outcome · _) (hmap .renewal (o.left old m))).trans hsecond)
  have ht : (stages₁ ++ stages₂).map Stage.task = (after o old).tasks m := by
    rw [List.map_append, ht₁, ht₂]
    rfl
  have htrail := htrail₁.append htrail₂
  refine ⟨stages₁ ++ stages₂, ht, htrail, by rw [List.map_append, List.sum_append],
    fun stage hmem => ?_⟩
  exact (done_of_trail hs hold hm ht htrail hmem).accounted ascending_merged
    (listed_of_makeDir (ht ▸ List.mem_map_of_mem hmem))

/-! ## Builds none of which failed -/

section

variable {contents : ByteArray → Prop} {stage : Stage}

theorem view_eq_none_iff {path : String} (hc : Canonical path) :
    m.view o.outputDir.resolved (Text.split '/' path) = none ↔ m.node? (o.spot path) = none := by
  rw [view, spot_of_canonical hc, Option.map_eq_none_iff]

/-- No listed directory is made on the way when its act fills none. -/
theorem aside_of_fills (hs : o.Separate) (hm : m.Named) {a : Act}
    (hafter : stage.after.view o.outputDir.resolved =
      a.result (stage.before.view o.outputDir.resolved))
    (h : ∀ path, kindAt? (o.merged m) path = some .directory → path ≠ stage.task.path →
      stage.before.view o.outputDir.resolved (Text.split '/' path) = none →
        a.fills (Text.split '/' path) = false) : stage.aside o (o.merged m) = 0 := by
  refine List.countP_eq_zero.mpr fun e he => ?_
  have hc : Canonical e.path := canonical_of_mem_merged hs.places hm he
  have hk := ascending_merged.entryAt?_eq_some_iff.mpr ⟨he, rfl⟩
  simp only [Stage.opened, Bool.and_eq_true, decide_eq_true_eq, Option.isNone_iff_eq_none, not_and,
    and_imp]
  intro hd hnone hdir hp
  rw [← view_eq_none_iff hc] at hnone
  have hmade := congrFun hafter (Text.split '/' e.path)
  rw [view, ← spot_of_canonical hc, hdir] at hmade
  rcases a.result_cases (stage.before.view o.outputDir.resolved) (Text.split '/' e.path) with
    hkept | ⟨-, -, hgone⟩ | ⟨content, -, hfile⟩
  · rw [hkept, hnone, h e.path (kindAt?_eq_some_iff.mpr ⟨e, hk, hd⟩) hp hnone] at hmade
    cases hmade
  · rw [hgone] at hmade
    cases hmade
  · rw [hfile] at hmade
    cases hmade

theorem stood_of_ne (h : ∀ path, stage.task ≠ .change (.mkdir path)) : stage.stood o = 0 :=
  if_neg fun hs => by
    obtain ⟨path, hp⟩ := aim_eq_makeDir_iff.mp hs.1
    exact h path hp

theorem lacks_of_within (hr : o.Regular) (hw : Within o.outputDir.resolved m m') {target : String}
    (hc : Canonical target) : o.lacks m' target = o.lacks m target := by
  have hb := bytes?_congr (inputs_of_within hr hw (o.builtDir.join ⟨target⟩).resolved
    (.inl (Path.resolved_join o.builtDir hc ▸ List.prefix_append _ _)))
  rw [Bool.eq_iff_iff, lacks_iff, lacks_iff, hb]

/-- What arrives is not removed. -/
theorem aim_of_arrival (hr : o.Regular) (hm : m.Named) (h : o.Mergeable m)
    (hw : Within o.outputDir.resolved m m') {op : PatchOp} (hop : op ∈ o.arrivals old m) :
    o.aim m' (.change op) ≠ .remove := by
  obtain ⟨e, he, ha⟩ := mem_arrivals.mp hop
  have hpath := Patch.path_of_arrival? ha
  have hnot : op.puts = true →
      (o.targets.contains op.path && o.lacks m' op.path) = false := fun hputs => by
    cases ht : o.targets.contains op.path with
    | false => rfl
    | true =>
        have hc := hr.canonical ht
        rw [hpath] at ht hc ⊢
        obtain ⟨content, hb⟩ := bytes?_of_target hm h ht
          (ascending_merged.entryAt?_eq_some_iff.mpr ⟨he, rfl⟩) (Patch.kind_of_arrival? ha hputs)
        rw [Bool.true_and, lacks_of_within hr hw hc, ← Bool.not_eq_true, lacks_iff,
          Path.resolved_join o.builtDir hc, hb]
        simp
  rcases Patch.op_of_arrival? ha with rfl | ⟨rfl, -⟩
  · cases hk : e.kind with
    | directory => simp [PatchOp.addition, hk, aim]
    | file =>
        simp only [PatchOp.addition, hk, PatchOp.path] at hnot ⊢
        simp [aim, hnot rfl]
  · simp only [PatchOp.path] at hnot
    simp [aim, hnot rfl]

variable (hr : o.Regular) (hm : m.Named)
  (htree : ∀ path, m.view o.outputDir.resolved (Text.split '/' path) =
    o.tree old (Text.split '/' path)) {a : Act}
  (hafter : stage.after.view o.outputDir.resolved =
    a.result (stage.before.view o.outputDir.resolved))

include hr hm htree hafter

theorem exact_of_removal (hwhole : o.Whole old) {front back : List PatchOp} {op : PatchOp}
    (hl : o.removals old m = front ++ op :: back) (ht : stage.task = .change op)
    (ha : o.act? m (o.overlay m) op = some a)
    (hruns : Runs (m.view o.outputDir.resolved) (front.filterMap (o.act? m (o.overlay m)))
      (stage.before.view o.outputDir.resolved)) : stage.Exact o m := by
  obtain ⟨e, -, -, hop⟩ := mem_removals.mp (hl ▸ by simp : op ∈ o.removals old m)
  have hremoval : a.isRemoval = true := by
    rw [hop, act?_removal, Option.some.injEq] at ha
    exact ha ▸ Act.isRemoval_leaving e
  refine ⟨?_, stood_of_ne fun path hp => ?_, aside_of_fills hr.separate hm hafter fun _ _ _ _ =>
    Act.fills_of_isRemoval hremoval _⟩
  · rw [ht, Stage.missed, if_neg]
    · rfl
    · rintro ⟨-, hsame⟩
      exact removes_something hwhole htree hl hruns ha (by rw [← hafter, hsame])
  · rw [ht, hop, PatchOp.removal] at hp
    cases hk : e.kind <;> simp [hk] at hp

theorem exact_of_arrival (h : o.Mergeable m) {front back : List PatchOp} {op : PatchOp}
    (hl : o.arrivals old m = front ++ op :: back) (ht : stage.task = .change op)
    (ha : o.act? m (o.overlay m) op = some a) {v : View}
    (h₁ : Runs (m.view o.outputDir.resolved) (o.removing old m) v)
    (h₂ : Runs v (front.filterMap (o.act? m (o.overlay m)))
      (stage.before.view o.outputDir.resolved))
    (hw : Within o.outputDir.resolved m stage.before) : stage.Exact o m := by
  have hop : op ∈ o.arrivals old m := hl ▸ by simp
  refine ⟨?_, ?_, aside_of_fills hr.separate hm hafter fun path hk hp hnone => ?_⟩
  · rw [ht, Stage.missed, if_neg]
    · rfl
    · rw [ht]
      exact fun hmissed => aim_of_arrival hr hm h hw hop hmissed.1
  · rw [Stage.stood, if_neg]
    rintro ⟨haim, hs⟩
    obtain ⟨path, hpath⟩ := aim_eq_makeDir_iff.mp haim
    obtain rfl : op = .mkdir path := Task.change.inj (ht.symm.trans hpath)
    obtain ⟨e, he, -⟩ := kindAt?_eq_some_iff.mp (mkdir_mem_arrivals.mp hop).1
    have hc : Canonical path :=
      entryAt?_path he ▸ canonical_of_mem_merged hr.places hm (entryAt?_mem he)
    have hfree := (view_eq_none_iff hc).mp (free_for_directory htree hl h₁ h₂ rfl)
    rw [hpath] at hs
    change (stage.before.node? (o.spot path)).isSome = true at hs
    rw [hfree] at hs
    cases hs
  · rw [ht] at hp
    exact no_directory_aside htree hl h₁ h₂ ha hk hp hnone

omit hafter in
/-- A target that is left without a file is told as removed, though nothing is there to remove. -/
theorem missed_of_renewal (h : o.Mergeable m) {front back : List String} {target : String}
    (hl : o.left old m = front ++ target :: back) (ht : stage.task = .renewal target)
    (ha : o.renewal? m (o.overlay m) target = some a) {v₁ v₂ : View}
    (h₁ : Runs (m.view o.outputDir.resolved) (o.removing old m) v₁)
    (h₂ : Runs v₁ (o.arriving old m) v₂)
    (hu : Runs v₂ (front.filterMap (o.renewal? m (o.overlay m)))
      (stage.before.view o.outputDir.resolved))
    (hp : a.Possible (stage.before.view o.outputDir.resolved))
    (hw : Within o.outputDir.resolved m stage.before)
    (hdone : Stage.Done o stage (o.aim stage.before stage.task)) :
    stage.missed o = if o.vain m stage.task then 1 else 0 := by
  have hleft : target ∈ o.left old m := hl ▸ by simp
  have hcontains := contains_of_mem_left hleft
  have hc := hr.canonical hcontains
  have haim : o.aim stage.before stage.task = if o.lacks m target then .remove else .write := by
    rw [ht, aim, lacks_of_within hr hw hc]
  rw [ht, vain, Stage.missed, haim]
  cases hlacks : o.lacks m target with
  | false => simp
  | true =>
      have hk : kindAt? (o.merged m) target ≠ some .file := fun hk => by
        obtain ⟨e, he, hf⟩ := kindAt?_eq_some_iff.mp hk
        obtain ⟨content, hb⟩ := bytes?_of_target hm h hcontains he hf
        rw [lacks_iff, Path.resolved_join o.builtDir hc, hb] at hlacks
        cases hlacks
      rw [renewal?_of_not_file hr hm h hleft hk, Option.some.injEq] at ha
      have hnone := nothing_to_remove htree h₁ h₂ hr hm h hl hu hk (ha ▸ hp)
      rw [view_eq_none_iff hc] at hnone
      rw [haim, hlacks] at hdone
      cases hdone with
      | idle _ hsame => simp [hsame]
      | removed _ hs =>
          rw [ht] at hs
          change (stage.before.node? (o.spot target)).isSome = true at hs
          rw [hnone] at hs
          cases hs

theorem exact_of_renewal (h : o.Mergeable m) {front back : List String} {target : String}
    (hl : o.left old m = front ++ target :: back) (ht : stage.task = .renewal target)
    (ha : o.renewal? m (o.overlay m) target = some a) {v₁ v₂ w : View}
    (h₁ : Runs (m.view o.outputDir.resolved) (o.removing old m) v₁)
    (h₂ : Runs v₁ (o.arriving old m) v₂) (h₃ : Runs v₂ (o.renewing old m) w)
    (hu : Runs v₂ (front.filterMap (o.renewal? m (o.overlay m)))
      (stage.before.view o.outputDir.resolved))
    (hp : a.Possible (stage.before.view o.outputDir.resolved))
    (hw : Within o.outputDir.resolved m stage.before)
    (hdone : Stage.Done o stage (o.aim stage.before stage.task)) : stage.Exact o m := by
  refine ⟨missed_of_renewal hr hm htree h hl ht ha h₁ h₂ hu hp hw hdone,
    stood_of_ne fun path hp => ?_, aside_of_fills hr.separate hm hafter fun path hk _ hnone => ?_⟩
  · rw [ht] at hp
    cases hp
  · rw [directory_while_renewing htree h₁ h₂ hr hm h hl hu h₃ hk] at hnone
    cases hnone

end

/-- While no build fails, a stage tells what it has done, unless it is to make a target anew that
the build output lacks. -/
theorem Settled.exact {contents : ByteArray → Prop} (hr : o.Regular) (hs : Settled o contents old m)
    (hf : o.Fits contents m) (htree : ∀ path, m.view o.outputDir.resolved (Text.split '/' path) =
      o.tree old (Text.split '/' path))
    (ht : stages.map Stage.task = (after o old).tasks m)
    (htrail : Trail ((after o old).perform (o.overlay m)) (m.addDir o.outputDir) stages m')
    {stage : Stage} (hmem : stage ∈ stages) : stage.Exact o m := by
  have hold := hs.namedOld
  have hm := hs.named
  have hdone := done_of_trail hr.separate hold hm ht htrail hmem
  obtain ⟨stages₁, stages₂, rfl, ht₁, ht₂⟩ := List.map_eq_append_iff.mp ht
  rw [changes_after] at ht₁
  rw [renewals_after] at ht₂
  obtain ⟨m₁, htrail₁, htrail₂⟩ := htrail.of_append
  have hk₁ := keeps_builtPatch hr hold hm
  have hk₂ : ∀ target ∈ o.left old m, Keeps (Within o.outputDir.resolved)
      ((after o old).regenerate target : MergeEffect Memory MergeSummary) := keeps_left hr
  have he₁ : ∀ op ∈ o.builtPatch old m, ∀ m₂, Within o.outputDir.resolved m m₂ → _ :=
    fun op hop m₂ hw => enacts_builtPatch hr hold hm hf.mergeable hop hw
  have he₂ : ∀ target ∈ o.left old m, ∀ m₂, Within o.outputDir.resolved m m₂ → _ :=
    fun target hleft m₂ hw => enacts_left hr hm hleft hw
  have hw := Within.addDir_root o.outputDir m
  obtain ⟨hruns₁, hw₁⟩ := htrail₁.runs ht₁ hk₁ he₁ hw
  rw [view_addDir_root hs.root, filterMap_act?_builtPatch] at hruns₁
  obtain ⟨v₁, h₁, h₂⟩ := hruns₁.of_append
  rcases List.mem_append.mp hmem with hmem | hmem
  · obtain ⟨front, op, back, a, hl, htask, ha, hruns, -, hafter, hwithin⟩ :=
      htrail₁.enacted ht₁ hk₁ he₁ hw hmem
    rw [view_addDir_root hs.root] at hruns
    rcases split_builtPatch hl with ⟨back', hl'⟩ | ⟨front', rfl, hl'⟩
    · exact exact_of_removal hr hm htree hafter hs.whole hl' htask ha hruns
    · rw [List.filterMap_append, filterMap_removals] at hruns
      obtain ⟨v, h₁, h₂⟩ := hruns.of_append
      exact exact_of_arrival hr hm htree hafter hf.mergeable hl' htask ha h₁ h₂ hwithin
  · obtain ⟨h₃, -⟩ := htrail₂.runs ht₂ hk₂ he₂ hw₁
    obtain ⟨front, target, back, a, hl, htask, ha, hruns, hp, hafter, hwithin⟩ :=
      htrail₂.enacted ht₂ hk₂ he₂ hw₁ hmem
    exact exact_of_renewal hr hm htree hafter hf.mergeable hl htask ha h₁ h₂ h₃ hruns hp hwithin
      hdone

/-- The removals of nothing are those of the targets that the build output lacks. -/
theorem sum_missed (ht : stages.map Stage.task = g.tasks m)
    (h : ∀ stage ∈ stages, stage.missed o = if o.vain m stage.task then 1 else 0) :
    (stages.map fun stage => stage.missed o).sum = (g.renewals m).countP (o.lacks m) := by
  have hcount : ∀ stages : List Stage,
      (∀ stage ∈ stages, stage.missed o = if o.vain m stage.task then 1 else 0) →
      (stages.map fun stage => stage.missed o).sum = (stages.map Stage.task).countP (o.vain m) := by
    intro stages h
    induction stages with
    | nil => rfl
    | cons stage stages ih =>
        rw [List.map_cons, List.sum_cons, h stage List.mem_cons_self,
          ih fun stage hmem => h stage (List.mem_cons_of_mem _ hmem), List.map_cons,
          List.countP_cons, Nat.add_comm]
  rw [hcount stages h, ht, tasks, List.countP_append, List.countP_map, List.countP_map]
  have hchanges : (g.changes m).countP (o.vain m ∘ Task.change) = 0 :=
    List.countP_eq_zero.mpr fun op _ => Bool.false_ne_true
  rw [hchanges, Nat.zero_add]
  rfl

/-- What is told of stages that are all accounted for and exact. -/
theorem sum_told (ht : stages.map Stage.task = g.tasks m)
    (ha : ∀ stage ∈ stages, stage.Accounted o (o.merged m))
    (he : ∀ stage ∈ stages, stage.Exact o m) :
    (stages.map Stage.told).sum = (stages.map fun stage => stage.effect o (o.merged m)).sum +
      { removed := (g.renewals m).countP (o.lacks m) } := by
  have htold : ∀ stage ∈ stages, stage.told =
      stage.effect o (o.merged m) + { removed := stage.missed o } := fun stage hmem => by
    have hexact := he stage hmem
    have haccounted := ha stage hmem
    ext
    · simpa using haccounted.written
    · exact haccounted.removed
    · simpa using haccounted.regenerated
    · simpa [hexact.aside, hexact.stood] using haccounted.directories
  have hmissed : (stages.map fun stage => ({ removed := stage.missed o } : MergeSummary)).sum =
      { removed := (stages.map fun stage => stage.missed o).sum } := by
    clear htold ht ha he
    induction stages with
    | nil => rfl
    | cons stage stages ih =>
        rw [List.map_cons, List.sum_cons, ih, List.map_cons, List.sum_cons]
        rfl
  rw [List.map_congr_left htold, List.sum_map_add, hmissed,
    sum_missed ht fun stage hmem => (he stage hmem).missed]

/-- A build that succeeds goes through stages, each of which tells what it has done but for removals
of nothing, directories that stood already and directories that were made on the way. As long as no
build failed, all that is told in vain are the targets that the build output lacks: without one the
summary is the sum of what was done, and empty exactly when no stage changed anything. -/
theorem Used.build_counts {s : MergeSummary} (hs : o.Separate) (hg : Used o g) (hm : m.Named)
    (ho : outcome g.build m = (.ok (s, g'), m')) :
    ∃ stages, stages.map Stage.task = g.tasks m ∧
      Trail (g.perform (o.overlay m)) (m.addDir o.outputDir) stages m' ∧
      s = (stages.map Stage.told).sum ∧
      (∀ stage ∈ stages, stage.Accounted o (o.merged m)) ∧
      ∀ contents, o.Regular → o.Hashes contents → Run o contents False g m → o.Fits contents m →
        s = (stages.map fun stage => stage.effect o (o.merged m)).sum +
            { removed := (g.renewals m).countP (o.lacks m) } ∧
          ((∀ target ∈ g.renewals m, o.lacks m target = false) →
            (s = {} ↔ ∀ stage ∈ stages, stage.after = stage.before)) := by
  obtain ⟨old, hold, hafter⟩ := hg.exists_after
  obtain ⟨stages, ht, htrail, hsum, haccounted⟩ := stages_of_build hs hold hm (hafter ▸ ho)
  rw [← hafter] at ht htrail
  refine ⟨stages, ht, htrail, hsum, haccounted, fun contents hr hh hrun hf => ?_⟩
  have hexact : ∀ stage ∈ stages, stage.Exact o m := by
    obtain ⟨old', rfl, hsettled, htree⟩ := hrun.settled hr hh
    exact fun stage hmem => hsettled.exact hr hf (htree id) ht htrail hmem
  have hs : s = _ := hsum.trans (sum_told ht haccounted hexact)
  refine ⟨hs, fun hlacks => ⟨fun hempty => ?_, fun hidle => ?_⟩⟩
  · -- Every stage is told, so there is none.
    have htotal : s.total = (o.builtPatch old m).length + (o.left old m).length :=
      total_of_build hm (hafter ▸ ho)
    have hlength : stages.length = s.total := by
      rw [htotal, ← List.length_map, ht, hafter, tasks, List.length_append, List.length_map,
        List.length_map]
      rfl
    rw [hempty] at hlength
    rw [List.length_eq_zero_iff.mp hlength]
    exact fun stage hmem => absurd hmem List.not_mem_nil
  · have heffects : (stages.map fun stage => stage.effect o (o.merged m)).sum = 0 := by
      refine List.sum_eq_zero fun effect hmem => ?_
      obtain ⟨stage, hstage, rfl⟩ := List.mem_map.mp hmem
      exact Stage.effect_of_idle _ (hidle stage hstage)
    rw [hs, heffects, List.countP_eq_zero.mpr fun target ht => by simp [hlacks target ht]]
    rfl

end Merger

namespace OneTarget

open MergeOptions Merger

theorem run_edited : Run options (fun _ => True) False (after options started) edited :=
  .edit (.addFile ⟨"/gen/app/b.js"⟩ "b".toUTF8) run_built (.inr (by decide +kernel))
    (by decide +kernel)

theorem fits_edited : options.Fits (fun _ => True) edited :=
  ⟨{ consistent (by decide +kernel) (by decide +kernel) (by decide +kernel) with
      built := by decide +kernel
      generated := by decide +kernel }, fun _ _ _ _ _ => trivial⟩

theorem eq_of_mem_renewals {old m : Memory} {target : String}
    (h : target ∈ (after options old).renewals m) : target = "t.js" := by
  obtain ⟨source, hs⟩ := Option.isSome_iff_exists.mp
    (contains_of_mem_renewals h)
  have hentries : options.targets.entries = [("t.js", ⟨"app", "js"⟩)] := by decide +kernel
  have hmem := Table.get?_eq_some_iff.mp hs
  rw [hentries] at hmem
  exact (Prod.mk.inj (List.mem_singleton.mp hmem)).1

/-- The second fragment is told of as what it leads to: one file is made of its text and its
fragments. -/
theorem edited_counts : ∃ stages, stages.map Stage.task = (after options started).tasks edited ∧
    Trail ((after options started).perform (options.overlay edited))
      (edited.addDir options.outputDir) stages rebuilt ∧
    MergeSummary.merged = (stages.map fun stage =>
      stage.effect options (options.merged edited)).sum ∧
    ∃ stage ∈ stages, stage.after ≠ stage.before := by
  obtain ⟨stages, ht, htrail, -, -, hexact⟩ := Used.build_counts regular.separate
    (.build .new (by decide +kernel) build_started) (by decide +kernel) build_edited
  obtain ⟨hsum, hempty⟩ := hexact (fun _ => True) regular nofun run_edited fits_edited
  have hlacks : ∀ target ∈ (after options started).renewals edited,
      options.lacks edited target = false := fun target hmem => by
    rw [eq_of_mem_renewals hmem]
    decide +kernel
  refine ⟨stages, ht, htrail, ?_, ?_⟩
  · rw [List.countP_eq_zero.mpr fun target hmem => by simp [hlacks target hmem]] at hsum
    exact hsum.trans (add_zero _)
  · by_contra hnone
    push Not at hnone
    exact absurd ((hempty hlacks).mpr hnone) (by decide)

/-- A fragment of a target that the build output lacks. -/
def lacking : Memory :=
  (((Memory.empty ⟨"/"⟩).addDir ⟨"/up"⟩).addFile ⟨"/gen/app/a.js"⟩ "a".toUTF8).cleared
    options.outputDir

theorem reachable_lacking : lacking.Reachable :=
  .step (.addDir options.outputDir) (.step (.remove options.outputDir)
    (.step (.addFile ⟨"/gen/app/a.js"⟩ "a".toUTF8) (.step (.addDir ⟨"/up"⟩)
      (.empty ⟨"/"⟩) (by decide +kernel)) (by decide +kernel)) (by decide +kernel))
    (by decide +kernel)

/-- The first build into an empty directory tells of a removal and changes nothing at all. -/
theorem lacking_told_removed :
    Run options (fun _ => True) False (create options) lacking ∧
    options.Fits (fun _ => True) lacking ∧
    outcome (create options).build lacking = (.ok (.dropped, after options lacking), lacking) ∧
    MergeSummary.dropped.removed = 1 ∧ MergeSummary.dropped.isEmpty = false := by
  refine ⟨.start reachable_lacking (options.vacant_cleared _), ⟨?_, fun _ _ _ _ _ => trivial⟩, ?_,
    rfl, by decide⟩
  · exact { consistent (by decide +kernel) (by decide +kernel) (by decide +kernel) with
      built := by decide +kernel
      generated := by decide +kernel }
  · rw [← after_nothing]
    exact OneTarget.build_of_carry (by decide +kernel) (by decide +kernel) (by decide +kernel)

end OneTarget

end VendorBundle
