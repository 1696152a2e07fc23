import VendorBundle.Config.Check
import VendorBundle.Proofs.Memory.Alters
import VendorBundle.Proofs.Merge.Incremental
import VendorBundle.Proofs.Path.Places

/-!
# How far a build reaches

Targets and the places of generated directories are joined to the directory of the result as they
are written, so a dotted or absolute one leads out of it. Whatever the options are, a build owns the
places that these lead to and what is inside the result, and on the way to them it makes
directories where there are none. Nothing else changes, also when it fails. So a build stays inside
the result where nothing leads out of it, and away from the input trees where none of these places
lies in them.
-/

namespace VendorBundle

open Entry Memory Effect

namespace MergeOptions

variable (o : MergeOptions)

/-- The place that a path of the result leads to. -/
def spot (path : String) : Place := (o.outputDir.join ⟨path⟩).resolved

/-- A place is at or above the directory that a path of the result is written into. -/
def Shelters (path : String) (place : Place) : Prop :=
  ∃ dir, (o.outputDir.join ⟨path⟩).parent? = some dir ∧ place <+: dir.resolved

/-- A place is on the way of a change. -/
def OnWay (op : PatchOp) (place : Place) : Prop :=
  place <+: o.spot op.path ∨ op.puts = true ∧ o.Shelters op.path place

end MergeOptions

/-! ## What each step alters -/

namespace Merger

variable {own way : Place → Prop}

theorem alters_tried {α : Type} {e : Effect Memory FileError α} (h : Keeps (Alters own way) e)
    (action : FileAction) (path : Path) : Keeps (Alters own way) (tried action path e) :=
  h.adapt _

theorem alters_remove (path : Path) (isDir : Bool) :
    Keeps (Alters (path.resolved = ·) way) (remove path isDir) := fun m => by
  have hsettled : Alters (path.resolved = ·) way m
      (m.settle (if isDir then m.removeDir path else m.removeFile path)) := by
    cases isDir with
    | true => exact alters_removeDir way m path
    | false => exact alters_removeFile way m path
  rw [outcome_remove]
  cases h : (if isDir then m.removeDir path else m.removeFile path) with
  | ok m' =>
      rw [h] at hsettled
      exact hsettled
  | error e => exact .refl _ _ m

theorem alters_createDir (own : Place → Prop) (path : Path) :
    Keeps (Alters own (· <+: path.resolved))
      (Files.createDir true path : Effect Memory FileError Unit) := fun m => by
  rw [outcome_createDir]
  exact alters_addDir own m path

theorem alters_writeFile (path : Path) (content : ByteArray) :
    Keeps (Alters (path.resolved = ·)
      fun place => ∃ dir, path.parent? = some dir ∧ place <+: dir.resolved)
      (writeFile path content) := by
  have hwrite : Keeps (Alters (path.resolved = ·)
      fun place => ∃ dir, path.parent? = some dir ∧ place <+: dir.resolved)
      (Files.write path content : Effect Memory FileError Unit) := fun m => by
    rw [outcome_write]
    exact alters_write _ m path content
  rw [writeFile]
  split
  · rename_i dir hdir
    refine keeps_alters_bind (alters_tried (fun m => ?_) _ _) fun _ => alters_tried hwrite _ _
    exact (alters_createDir (path.resolved = ·) dir m).mono (fun _ => id)
      fun place hp => ⟨dir, hdir, hp⟩
  · exact alters_tried hwrite _ _

theorem alters_copyFile (source path : Path) :
    Keeps (Alters (path.resolved = ·)
      fun place => ∃ dir, path.parent? = some dir ∧ place <+: dir.resolved)
      (copyFile source path) :=
  keeps_alters_bind (alters_tried (keeps_alters_look _) _ _) fun content =>
    alters_writeFile path content

variable (g : Merger)

theorem alters_fragments (source : FragmentSource) :
    Keeps (Alters own way) (g.fragments source : MergeEffect Memory _) := by
  refine keeps_alters_bind keeps_alters_get fun m => ?_
  split
  · exact keeps_alters_bind (alters_tried (keeps_alters_look _) _ _) fun names =>
      keeps_alters_mapM (fun name => alters_tried (keeps_alters_look _) _ _) names
  · exact keeps_alters_pure []

/-- Making a target anew alters its output file only, and makes the directory of that. -/
theorem alters_regenerate (target : String) :
    Keeps (Alters (g.options.spot target = ·) (g.options.Shelters target))
      (g.regenerate target : MergeEffect Memory MergeSummary) := by
  refine keeps_alters_bind keeps_alters_get fun m => ?_
  split
  · exact keeps_alters_bind (alters_remove _ false) fun _ => keeps_alters_pure _
  · split
    · exact keeps_alters_bind (alters_copyFile _ _) fun _ => keeps_alters_pure _
    · refine keeps_alters_bind (g.alters_fragments _) fun texts => ?_
      split
      · exact keeps_alters_bind (alters_copyFile _ _) fun _ => keeps_alters_pure _
      · exact keeps_alters_bind (alters_tried (keeps_alters_look _) _ _) fun text =>
          keeps_alters_bind (alters_writeFile _ _) fun _ => keeps_alters_pure _

theorem alters_putFile (overlay : Overlay) (path : String) :
    Keeps (Alters (g.options.spot path = ·) (g.options.Shelters path))
      (g.putFile overlay path) := by
  rw [putFile]
  split
  · exact g.alters_regenerate path
  · split
    · exact keeps_alters_bind (alters_copyFile _ _) fun _ => keeps_alters_pure _
    · exact keeps_alters_bind (alters_copyFile _ _) fun _ => keeps_alters_pure _

/-- Carrying a change over alters the place of its path only. -/
theorem alters_apply (overlay : Overlay) (op : PatchOp) :
    Keeps (Alters (g.options.spot op.path = ·) (g.options.OnWay op))
      (g.apply overlay op : MergeEffect Memory MergeSummary) := by
  cases op with
  | unlink path => exact keeps_alters_bind (alters_remove _ false) fun _ => keeps_alters_pure _
  | rmdir path => exact keeps_alters_bind (alters_remove _ true) fun _ => keeps_alters_pure _
  | mkdir path =>
      refine keeps_alters_bind (alters_tried (fun m => ?_) _ _) fun _ => keeps_alters_pure _
      exact (alters_createDir (g.options.spot path = ·) _ m).mono (fun _ => id)
        fun place hp => .inl hp
  | change path entry | create path entry =>
      exact (g.alters_putFile overlay path).mono_alters (fun _ => id) fun _ hs => .inr ⟨rfl, hs⟩

end Merger

/-! ## What a build alters -/

namespace MergeOptions

variable (o : MergeOptions)

/-- The place of a change that a build carries over, or of a target that is left. -/
def Touches (old m : Memory) (place : Place) : Prop :=
  (∃ op ∈ o.builtPatch old m, o.spot op.path = place) ∨
    ∃ target ∈ o.left old m, o.spot target = place

/-- A place on the way to the result, to a change or to a target that is left. -/
def Opens (old m : Memory) (place : Place) : Prop :=
  place <+: o.outputDir.resolved ∨ (∃ op ∈ o.builtPatch old m, o.OnWay op place) ∨
    ∃ target ∈ o.left old m, o.Shelters target place

/-- The places that a build may change in any way: what is inside the result, the output files of
targets, and what generated directories that are passed through become. -/
inductive Owns : Place → Prop where
  | inside {rest : List String} (hne : rest ≠ []) : Owns (o.outputDir.resolved ++ rest)
  | target {target : String} (ht : o.targets.contains target = true) : Owns (o.spot target)
  | above {pair : String × String} {dir : Entry} (hp : pair ∈ o.passthrough.entries)
      (hd : dir ∈ Overlay.directories (trimSlashes pair.2)) : Owns (o.spot dir.path)
  | laid {pair : String × String} {rest : List String} (hp : pair ∈ o.passthrough.entries)
      (hne : rest ≠ []) : Owns (o.spot (trimSlashes pair.2) ++ rest)

/-- The places where a build may make a directory. -/
inductive Leads : Place → Prop where
  | root {place : Place} (hp : place <+: o.outputDir.resolved) : Leads place
  | owned {place owned : Place} (ho : o.Owns owned) (hp : place <+: owned) : Leads place
  | target {target : String} {place : Place} (ht : o.targets.contains target = true)
      (hs : o.Shelters target place) : Leads place

end MergeOptions

theorem Overlay.kind_of_mem_directories {path : String} {e : Entry} (h : e ∈ directories path) :
    e.kind = .directory := by
  obtain ⟨n, -, rfl⟩ := List.mem_map.mp h
  rfl

namespace MergeOptions

variable {o : MergeOptions} {old m : Memory}

/-- What is carried over comes from the build output, or is laid over it at a place of its own or on
the way there. -/
theorem path_cases (hm : m.Named) {e : Entry} (he : e ∈ o.merged m) :
    Canonical e.path ∨
      (∃ pair ∈ o.passthrough.entries, ∃ rest, Canonical rest ∧
        e.path = Overlay.place (trimSlashes pair.2) rest) ∨
      ∃ pair ∈ o.passthrough.entries, e ∈ Overlay.directories (trimSlashes pair.2) := by
  rcases List.mem_append.mp (entryAt?_mem (mem_normalize.mp he)) with he | he
  · exact .inl (canonical_listing hm _ _ e he)
  · rw [overlay, Overlay.ofListing_entries] at he
    obtain ⟨pair, hp, he⟩ := List.mem_flatMap.mp he
    rcases List.mem_append.mp he with he | he
    · obtain ⟨g, hg, rest, hpath, hplace⟩ := Overlay.mem_relocated.mp he
      have hc := canonical_listing hm _ _ g hg
      rw [hpath, canonical_append] at hc
      exact .inr (.inl ⟨pair, hp, rest, hc.2, by rw [hplace]⟩)
    · split at he
      · exact absurd he List.not_mem_nil
      · exact .inr (.inr ⟨pair, hp, he⟩)

theorem spot_of_canonical {path : String} (h : Canonical path) :
    o.spot path = o.outputDir.resolved ++ Text.split '/' path :=
  Path.resolved_join o.outputDir h

/-- With plain names different paths lead to different places. -/
theorem eq_of_spot_eq {path path' : String} (hc : Canonical path) (hc' : Canonical path')
    (h : o.spot path = o.spot path') : path = path' := by
  rw [spot_of_canonical hc, spot_of_canonical hc'] at h
  exact Text.split_injective (List.append_cancel_left h)

theorem spot_place (dir : String) {rest : String} (hr : Canonical rest) :
    o.spot (Overlay.place dir rest) = o.spot dir ++ Text.split '/' rest := by
  by_cases hempty : dir = ""
  · rw [Overlay.place, if_pos (by simpa using hempty), hempty, spot, spot,
      Path.resolved_join_empty, Path.resolved_join _ hr]
  · rw [Overlay.place, if_neg (by simpa using hempty)]
    exact Path.resolved_join_append o.outputDir hempty hr

/-- A path that is carried over leads to a place that the build owns. -/
theorem owns_spot (hm : m.Named) {e : Entry} (he : e ∈ o.merged m) : o.Owns (o.spot e.path) := by
  rcases path_cases hm he with hc | ⟨pair, hp, rest, hr, hpath⟩ | ⟨pair, hp, hd⟩
  · rw [spot_of_canonical hc]
    exact .inside (Text.split_ne_nil _ _)
  · rw [hpath, spot_place _ hr]
    exact .laid hp (Text.split_ne_nil _ _)
  · exact .above hp hd

/-- The directory that a file is written into which is carried over is above its place. -/
theorem prefix_spot_of_shelters (hm : m.Named) {e : Entry} (he : e ∈ o.merged m)
    (hf : e.kind = .file) {place : Place} (hs : o.Shelters e.path place) :
    place <+: o.spot e.path := by
  have hplain : ∀ {path : String}, Canonical path → o.Shelters path place →
      place <+: o.spot path := by
    rintro path hc ⟨dir, hdir, hp⟩
    obtain ⟨dir', hdir', hres⟩ := Path.parent?_join o.outputDir hc
    obtain rfl := Option.some.inj (hdir.symm.trans hdir')
    rw [spot_of_canonical hc]
    exact hp.trans (hres ▸ (List.prefix_append_right_inj _).mpr (List.dropLast_prefix _))
  rcases path_cases hm he with hc | ⟨pair, -, rest, hr, hpath⟩ | ⟨pair, -, hd⟩
  · exact hplain hc hs
  · rw [hpath] at hs ⊢
    by_cases hempty : (trimSlashes pair.2).isEmpty
    · rw [Overlay.place, if_pos hempty] at hs ⊢
      exact hplain hr hs
    · rw [Overlay.place, if_neg hempty] at hs ⊢
      obtain ⟨dir, hdir, hp⟩ := hs
      exact hp.trans (Path.resolved_parent?_join_append _ (by simpa using hempty) hr hdir)
  · rw [Overlay.kind_of_mem_directories hd] at hf
    cases hf

theorem owns_of_touches (hold : old.Named) (hm : m.Named) {place : Place}
    (h : o.Touches old m place) : o.Owns place := by
  rcases h with ⟨op, hop, rfl⟩ | ⟨target, ht, rfl⟩
  · rcases Patch.path_of_mem_between ascending_merged ascending_merged hop with
      ⟨e, he, hp⟩ | ⟨e, he, hp⟩
    · exact hp ▸ owns_spot hold he
    · exact hp ▸ owns_spot hm he
  · exact .target (contains_of_mem_left ht)

theorem leads_of_opens (hold : old.Named) (hm : m.Named) {place : Place}
    (h : o.Opens old m place) : o.Leads place := by
  rcases h with hp | ⟨op, hop, hw⟩ | ⟨target, ht, hs⟩
  · exact .root hp
  · rcases hw with hp | ⟨hputs, hs⟩
    · exact .owned (owns_of_touches hold hm (.inl ⟨op, hop, rfl⟩)) hp
    · rcases (Patch.mem_between ascending_merged ascending_merged).mp hop with
        ⟨e, -, -, rfl⟩ | ⟨e, he, ha⟩
      · simp at hputs
      · rw [Patch.path_of_arrival? ha] at hs
        exact .owned (owns_spot hm he)
          (prefix_spot_of_shelters hm he (Patch.kind_of_arrival? ha hputs) hs)
  · exact .target (contains_of_mem_left ht) hs

end MergeOptions

namespace Merger

open MergeOptions

variable {o : MergeOptions} {old m : Memory}

theorem alters_change {op : PatchOp} (hop : op ∈ o.builtPatch old m) :
    Keeps (Alters (o.Touches old m) (o.Opens old m)) ((after o old).apply (o.overlay m) op) :=
  ((after o old).alters_apply (o.overlay m) op).mono_alters
    (fun _ hs => .inl ⟨op, hop, hs⟩) fun _ hw => .inr (.inl ⟨op, hop, hw⟩)

theorem alters_left {target : String} (ht : target ∈ o.left old m) :
    Keeps (Alters (o.Touches old m) (o.Opens old m))
      ((after o old).regenerate target : MergeEffect Memory MergeSummary) :=
  ((after o old).alters_regenerate target).mono_alters
    (fun _ hs => .inr ⟨target, ht, hs⟩) fun _ hw => .inr (.inr ⟨target, ht, hw⟩)

/-- After the directory of the result is there, a build alters the places of its changes and of the
targets that are left. -/
theorem alters_passes (hm : m.Named) : Alters (o.Touches old m) (o.Opens old m)
    (m.addDir o.outputDir) (outcome (after o old).build m).2 := by
  rw [outcome_build hm]
  exact keeps_alters_bind (keeps_summed (Alters.refl _ _) Alters.trans fun _ => alters_change)
    (fun _ => keeps_alters_bind (keeps_summed (Alters.refl _ _) Alters.trans fun _ => alters_left)
      fun _ => keeps_alters_pure _) _

theorem alters_build (hm : m.Named) :
    Alters (o.Touches old m) (o.Opens old m) m (outcome (after o old).build m).2 :=
  ((alters_addDir _ m o.outputDir).mono (fun _ => id) fun _ => .inl).trans (alters_passes hm)

theorem alters_of_build {r : Except MergeError (MergeSummary × Merger)} {m' : Memory}
    (hm : m.Named) (ho : outcome (after o old).build m = (r, m')) :
    Alters (o.Touches old m) (o.Opens old m) m m' := by
  have halters : Alters (o.Touches old m) (o.Opens old m) m _ := alters_build hm
  rwa [ho] at halters

/-- A merger that was made for the options and has built any number of times, each time in some
state of some file system. -/
inductive Used (o : MergeOptions) : Merger → Prop where
  | new : Used o (create o)
  | build {g g' : Merger} {m m' : Memory} {s : MergeSummary} (h : Used o g) (hm : m.Named)
      (ho : outcome g.build m = (.ok (s, g'), m')) : Used o g'

/-- It only remembers the state of its last build. -/
theorem Used.exists_after {g : Merger} (h : Used o g) : ∃ old, old.Named ∧ g = after o old := by
  induction h with
  | new => exact ⟨nothing, named_nothing, (after_nothing o).symm⟩
  | build _ hm ho ih =>
      obtain ⟨old, -, rfl⟩ := ih
      exact ⟨_, hm, (passes_of_build hm ho).1⟩

end Merger

/-! ## Staying inside the result -/

namespace MergeOptions

variable (o : MergeOptions)

/-- Nothing leads out of the result: targets are written at it, above it or below it, and generated
directories that are passed through become directories at it or below it. -/
structure Contained : Prop where
  targets : ∀ target, o.targets.contains target = true →
    ¬ Apart o.outputDir.resolved (o.spot target) ∧
      ∀ place, o.Shelters target place → ¬ Apart o.outputDir.resolved place
  above : ∀ pair ∈ o.passthrough.entries, ∀ dir ∈ Overlay.directories (trimSlashes pair.2),
    ¬ Apart o.outputDir.resolved (o.spot dir.path)
  laid : ∀ pair ∈ o.passthrough.entries, o.outputDir.resolved <+: o.spot (trimSlashes pair.2)

variable {o}

theorem Contained.owns (h : o.Contained) {place : Place} (ho : o.Owns place) :
    ¬ Apart o.outputDir.resolved place := by
  cases ho with
  | inside hne => exact fun ha => ha.1 (List.prefix_append _ _)
  | target ht => exact (h.targets _ ht).1
  | above hp hd => exact h.above _ hp _ hd
  | laid hp hne => exact fun ha => ha.1 ((h.laid _ hp).trans (List.prefix_append _ _))

theorem Contained.leads (h : o.Contained) {place : Place} (hl : o.Leads place) :
    ¬ Apart o.outputDir.resolved place := by
  cases hl with
  | root hp => exact fun ha => ha.2 hp
  | target ht hs => exact (h.targets _ ht).2 _ hs
  | owned ho hp =>
      -- What is above a place that is not apart is above the result or below it.
      refine fun ha => h.owns ho ⟨fun hpre => ?_, fun hpre => ha.2 (hp.trans hpre)⟩
      rcases List.prefix_or_prefix_of_prefix hpre hp with h' | h'
      · exact ha.1 h'
      · exact ha.2 h'

/-- Plain names do not lead out. -/
theorem contained_of_plain (ht : ∀ target, o.targets.contains target = true → Canonical target)
    (hp : ∀ pair ∈ o.passthrough.entries, Overlay.IsPlace (trimSlashes pair.2)) :
    o.Contained := by
  have hspot : ∀ {path : String}, Overlay.IsPlace path →
      o.outputDir.resolved <+: o.spot path := by
    rintro path (rfl | hc)
    · exact (Path.resolved_join_empty o.outputDir).symm ▸ List.prefix_refl _
    · exact spot_of_canonical hc ▸ List.prefix_append _ _
  refine ⟨fun target hcontains => ⟨fun ha => ha.1 (hspot (.inr (ht target hcontains))), ?_⟩,
    fun pair hpair dir hd ha => ?_, fun pair hpair => hspot (hp pair hpair)⟩
  · rintro place ⟨dir, hdir, hpre⟩ ha
    obtain ⟨dir', hdir', hres⟩ := Path.parent?_join o.outputDir (ht target hcontains)
    obtain rfl := Option.some.inj (hdir.symm.trans hdir')
    exact (ha.below (List.prefix_append _ _) (List.prefix_refl _)).2 (hres ▸ hpre)
  · rcases hp pair hpair with hempty | hc
    · rw [hempty, Overlay.directories_empty] at hd
      exact absurd hd List.not_mem_nil
    · obtain ⟨front, hne, hf, rfl⟩ := (Overlay.mem_directories hc).mp hd
      exact ha.1 (hspot (.inr (canonical_pathText hne fun n hn => hc n (hf.subset hn))))

end MergeOptions

namespace Merger

open MergeOptions

variable {o : MergeOptions} {g : Merger} {m : Memory}

/-- Whatever a merger has built before, a build, successful or not, changes the places that it owns
and makes directories on the way to these. So where nothing leads out of the result, every place
apart from the result holds what it held. -/
theorem Used.build_alters (hg : Used o g) (hm : m.Named) :
    Alters o.Owns o.Leads m (outcome g.build m).2 ∧
      (o.Contained → ∀ place, Apart o.outputDir.resolved place →
        (outcome g.build m).2.node? place = m.node? place) := by
  obtain ⟨old, hold, rfl⟩ := hg.exists_after
  have halters : Alters o.Owns o.Leads m (outcome (after o old).build m).2 :=
    (alters_build hm).mono (fun _ => owns_of_touches hold hm) fun _ => leads_of_opens hold hm
  refine ⟨halters, fun hc place ha => halters.node?_of_not (fun ho => ?_) fun hl => ?_⟩
  · exact hc.owns ho ha
  · exact hc.leads hl ha

end Merger

namespace OneTarget

open MergeOptions Merger

theorem contained : options.Contained :=
  contained_of_plain (fun _ => regular.canonical) regular.places

theorem build_started_alters : options.Contained ∧
    Alters options.Owns options.Leads started (outcome (create options).build started).2 ∧
    (options.Contained → ∀ place, Apart options.outputDir.resolved place →
      (outcome (create options).build started).2.node? place = started.node? place) :=
  ⟨contained, Used.build_alters .new (by decide +kernel)⟩

end OneTarget

namespace Upward

open MergeOptions Merger OneTarget

/-- A configuration with a mapping that climbs out of the result and into the build output. -/
def config : Config where
  merge := some {
    builtDir := ⟨"/up"⟩
    generatedDir := ⟨"/gen"⟩
    outputDir := ⟨"/out"⟩
    mappings := .ofList [("../up/t.js", .ofList [("js", "app")])] }

def options : MergeOptions where
  builtDir := ⟨"/up"⟩
  generatedDir := ⟨"/gen"⟩
  outputDir := ⟨"/out"⟩
  mappings := .ofList [("../up/t.js", .ofList [("js", "app")])]

/-- The file of the build output gets the fragment. -/
def overwritten : Memory :=
  (started.addFile ⟨"/out/t.js"⟩ "v".toUTF8).addFile ⟨"/up/t.js"⟩ "v;\na".toUTF8

/-- The configuration passes all checks, and a build of it overwrites the file that it copies. -/
theorem build_leaves_result : config.check = .ok () ∧ config.mergeOptions = some options ∧
    outcome (create options).build started =
      (.ok (.copied + .merged, after options started), overwritten) ∧
    Apart options.outputDir.resolved ["up", "t.js"] ∧
    overwritten.node? ["up", "t.js"] ≠ started.node? ["up", "t.js"] := by
  refine ⟨by decide +kernel, by decide +kernel, ?_, by decide +kernel, by decide +kernel⟩
  rw [← after_nothing]
  exact Merger.build_of_carry rfl (by decide +kernel) (by decide +kernel) (by decide +kernel)

end Upward

/-! ## Keeping away from the input trees -/

namespace MergeOptions

variable (o : MergeOptions)

/-- What a build writes is kept away from the input trees, and what it removes from the way to the
result. -/
structure Detached : Prop where
  owned : ∀ place, o.Owns place → ¬ place <+: o.outputDir.resolved ∧ ¬ o.IsInput place
  root : ¬ o.IsInput o.outputDir.resolved
  targets : ∀ target place, o.targets.contains target = true → o.Shelters target place →
    ¬ o.IsInput place

variable {o}

theorem Detached.leads (h : o.Detached) {place : Place} (hl : o.Leads place) :
    ¬ o.IsInput place := by
  have hup : ∀ {p q : Place}, p <+: q → o.IsInput p → o.IsInput q := fun hp hi =>
    hi.imp (fun hi => hi.trans hp) fun hi => hi.trans hp
  cases hl with
  | root hp => exact fun hi => h.root (hup hp hi)
  | owned ho hp => exact fun hi => (h.owned _ ho).2 (hup hp hi)
  | target ht hs => exact h.targets _ _ ht hs

/-- The result is apart from the input trees, and everything is written into it with plain names. -/
structure Separate (o : MergeOptions) : Prop where
  apartBuilt : Apart o.outputDir.resolved o.builtDir.resolved
  apartGenerated : Apart o.outputDir.resolved o.generatedDir.resolved
  targets : ∀ target, o.targets.contains target = true → Canonical target
  places : ∀ pair ∈ o.passthrough.entries, Overlay.IsPlace (trimSlashes pair.2)

theorem Regular.separate (hr : o.Regular) : o.Separate where
  apartBuilt := hr.apartBuilt
  apartGenerated := hr.apartGenerated
  targets := fun _ => hr.canonical
  places := hr.places

theorem Separate.not_isInput (h : o.Separate) {place : Place}
    (hp : o.outputDir.resolved <+: place) : ¬ o.IsInput place := by
  rintro (hi | hi)
  · exact (h.apartBuilt.below hp (List.prefix_refl _)).2 hi
  · exact (h.apartGenerated.below hp (List.prefix_refl _)).2 hi

/-- The places that a build may change are all below the root of the result. -/
theorem Separate.below_of_owns (h : o.Separate) {place : Place} (ho : o.Owns place) :
    ∃ rest, rest ≠ [] ∧ place = o.outputDir.resolved ++ rest := by
  cases ho with
  | inside hne => exact ⟨_, hne, rfl⟩
  | target ht => exact ⟨_, Text.split_ne_nil _ _, spot_of_canonical (h.targets _ ht)⟩
  | above hp hd =>
      rename_i pair dir
      rcases h.places pair hp with hempty | hc
      · rw [hempty, Overlay.directories_empty] at hd
        exact absurd hd List.not_mem_nil
      · obtain ⟨front, hne, hf, rfl⟩ := (Overlay.mem_directories hc).mp hd
        exact ⟨_, Text.split_ne_nil _ _,
          spot_of_canonical (canonical_pathText hne fun n hn => hc n (hf.subset hn))⟩
  | laid hp hne =>
      rename_i pair rest
      rcases h.places pair hp with hempty | hc
      · exact ⟨rest, hne, by rw [hempty, spot, Path.resolved_join_empty]⟩
      · exact ⟨Text.split '/' (trimSlashes pair.2) ++ rest, by simp [hne],
          by rw [spot_of_canonical hc, List.append_assoc]⟩

theorem Separate.detached (h : o.Separate) : o.Detached := by
  refine ⟨fun place ho => ?_, h.not_isInput (List.prefix_refl _), ?_⟩
  · obtain ⟨rest, hne, rfl⟩ := h.below_of_owns ho
    exact ⟨not_prefix_append_self hne, h.not_isInput (List.prefix_append _ _)⟩
  · rintro target place ht ⟨dir, hdir, hp⟩ hi
    obtain ⟨dir', hdir', hres⟩ := Path.parent?_join o.outputDir (h.targets _ ht)
    obtain rfl := Option.some.inj (hdir.symm.trans hdir')
    exact h.not_isInput (hres ▸ List.prefix_append _ _)
      (hi.imp (fun hi => hi.trans hp) fun hi => hi.trans hp)

/-- So it is when everything is written with plain names and the directories are apart. -/
theorem Regular.detached (hr : o.Regular) : o.Detached := hr.separate.detached

/-- During a build, successful or not, only named places appear. -/
theorem named_of_alters {old m m' : Memory} (hm : m.Named)
    (h : Alters (o.Touches old m) (o.Opens old m) m m') : m'.Named := by
  have habove : ∀ {path : Path} {place : Place}, place <+: path.resolved →
      ∀ n ∈ place, IsName n := fun hp n hn => Path.isName_of_mem_resolved (hp.subset hn)
  refine h.named hm ?_ ?_
  · rintro place (⟨op, -, rfl⟩ | ⟨target, -, rfl⟩)
    · exact habove (List.prefix_refl _)
    · exact habove (List.prefix_refl _)
  · rintro place (hp | ⟨op, -, hp | ⟨-, dir, -, hp⟩⟩ | ⟨target, -, dir, -, hp⟩)
    · exact habove hp
    · exact habove hp
    · exact habove hp
    · exact habove hp

/-- During a build that is kept away from the input trees these stay as they are. -/
theorem inputs_of_alters {old m m' : Memory} (hd : o.Detached) (hold : old.Named) (hm : m.Named)
    (h : Alters (o.Touches old m) (o.Opens old m) m m') {place : Place} (hp : o.IsInput place) :
    m'.node? place = m.node? place :=
  h.node?_of_not (fun ht => (hd.owned _ (owns_of_touches hold hm ht)).2 hp)
    fun hw => hd.leads (leads_of_opens hold hm hw) hp

end MergeOptions

end VendorBundle
