import VendorBundle.Proofs.Merge.Evaluate
import VendorBundle.Proofs.Merge.Fresh

/-!
# Building again and again

A run of one merger edits the input trees and builds in any order. Between builds the merger only
remembers two listings, yet what a build has to do is settled by them: as long as no build fails,
each build ends in the tree that a new merger puts into an empty directory. A failed build may have
changed the result without taking the listings over, and then the next build restores exactly those
paths that it puts or removes itself.
-/

namespace VendorBundle

open Entry Memory Effect

/-! ## One build after another -/

namespace MergeOptions

variable {o : MergeOptions} {old new : Memory}

section

variable (hr : o.Regular) (hold : old.Named) (hnew : new.Named) (h : o.Mergeable old)
  (h' : o.Mergeable new) (ht : o.Tells old new)

include hr hold hnew h h' ht

/-- A file that a build does not put is made of what it was made of. -/
theorem content?_of_not_puts {path : String} (hk : kindAt? (o.merged new) path = some .file)
    (hp : ¬ o.Puts old new path) : kindAt? (o.merged old) path = some .file ∧
      o.content? new (o.overlay new) path = o.content? old (o.overlay old) path := by
  obtain ⟨e', he', hf'⟩ := kindAt?_eq_some_iff.mp hk
  have hnone : Patch.arrival? (o.merged old) e' = none := by
    by_contra hne
    exact hp (.inl ⟨e', he', Option.isSome_iff_ne_none.mpr hne⟩)
  obtain ⟨e, he, hkind, htoken⟩ := Patch.arrival?_eq_none_iff.mp hnone
  rw [entryAt?_path he'] at he
  have hf := hkind.trans hf'
  exact ⟨kindAt?_eq_some_iff.mpr ⟨e, he, hf⟩, content?_unchanged hr hold hnew h h' ht he he' hf hf'
    (htoken hf) fun hl => hp (.inr ⟨hl, hk⟩)⟩

/-- From the tree of the inputs that were taken over, a build restores every path. -/
theorem restores_of_tree {v : View} {path : String}
    (hv : v (Text.split '/' path) = o.tree old (Text.split '/' path)) :
    o.Restores old new v path := by
  rw [Restores]
  split
  · rename_i hk
    by_cases hp : o.Puts old new path
    · exact .inl hp
    · obtain ⟨hkold, hcontent⟩ := content?_of_not_puts hr hold hnew h h' ht hk hp
      exact .inr (by rw [hv, tree_of_file hkold, tree_of_file hk, hcontent])
  · rename_i hk
    cases hkold : kindAt? (o.merged old) path with
    | none =>
        have harrives : o.Arrives old new path := arrives_of_kind_ne hk (by simp [hkold])
        exact .inr (.inr (.inl ⟨hv.trans (tree_of_none hkold), path, .inl harrives, .inl rfl⟩))
    | some kind =>
        cases kind with
        | file => exact .inl rfl
        | directory => exact .inr (.inl (hv.trans (tree_of_directory hkold)))
  · cases hkold : kindAt? (o.merged old) path with
    | none => exact .inr (.inr (.inl (hv.trans (tree_of_none hkold))))
    | some kind =>
        cases kind with
        | file => exact .inl rfl
        | directory => exact .inr (.inr (.inr ⟨hv.trans (tree_of_directory hkold), rfl⟩))

/-- A build that succeeds has made every file of its tree. -/
theorem Carries.whole {v w : View} (hc : o.Carries old new v w) (hw : o.Whole old) :
    o.Whole new := by
  intro path hk
  by_cases hp : o.Puts old new path
  · rcases hp with ⟨e, he, harrives⟩ | ⟨hl, -⟩
    · have hf : e.kind = .file := by
        rw [kindAt?, he] at hk
        exact Option.some.inj hk
      simpa [entering?, hf, entryAt?_path he] using hc.puts e (entryAt?_mem he) harrives
    · simpa [renewal?_of_file hnew h' hl hk] using hc.renews path hl
  · obtain ⟨hkold, hcontent⟩ := content?_of_not_puts hr hold hnew h h' ht hk hp
    rw [hcontent]
    exact hw path hkold

end

end MergeOptions

/-! ## Runs -/

namespace MergeOptions

variable (o : MergeOptions) (contents : ByteArray → Prop)

/-- A state that a run may build in: the input trees can be merged and hold known contents only. -/
structure Fits (m : Memory) : Prop where
  mergeable : o.Mergeable m
  known : ∀ place content time, o.IsInput place → m.node? place = some (.file content time) →
    contents content

/-- Listings with the hashes of contents tell the known contents apart. -/
def Hashes : Prop := o.listOptions.tokenMode = .content →
  ∀ a b, contents a → contents b → Digest.hex a = Digest.hex b → a = b

end MergeOptions

namespace Merger

open MergeOptions

/-- What one merger and the file system go through: from an empty result on, the input trees are
edited and the result is built. Builds that fail only occur if `faults` holds. -/
inductive Run (o : MergeOptions) (contents : ByteArray → Prop) (faults : Prop) :
    Merger → Memory → Prop where
  | start {m} (hm : m.Reachable) (hv : o.Vacant m) : Run o contents faults (create o) m
  | edit {g m} (op : Operation) (h : Run o contents faults g m)
      (hp : o.IsInput op.path.resolved) (hc : m.clock ≤ (op.run m).clock) :
      Run o contents faults g (op.run m)
  | build {g g' m m' s} (h : Run o contents faults g m) (hf : o.Fits contents m)
      (ho : outcome g.build m = (.ok (s, g'), m')) (hc : m.clock ≤ m'.clock) :
      Run o contents faults g' m'
  | fail {g m m' e} (h : Run o contents faults g m) (hf : faults)
      (ho : outcome g.build m = (.error e, m')) (hc : m.clock ≤ m'.clock) :
      Run o contents faults g m'

/-- What holds between the state whose input trees were taken over last and the present one. -/
structure Settled (o : MergeOptions) (contents : ByteArray → Prop) (old m : Memory) : Prop where
  namedOld : old.Named
  named : m.Named
  fits : o.Fits contents old
  whole : o.Whole old
  datedOld : Dated o.IsInput old
  dated : Dated o.IsInput m
  since : Since o.IsInput old m
  root : m.node? o.outputDir.resolved = some .dir

namespace Settled

variable {o : MergeOptions} {contents : ByteArray → Prop} {old m m' : Memory}

theorem start (hm : m.Reachable) (hv : o.Vacant m) : Settled o contents nothing m where
  namedOld := named_nothing
  named := hm.named
  fits := ⟨mergeable_nothing, fun place content time _ hn => by simp [node?_nothing] at hn⟩
  whole := fun path hk => by simp [kindAt?_merged_nothing] at hk
  datedOld := dated_nothing _
  dated := hm.dated.mono fun _ _ => trivial
  since := since_nothing _ m
  root := hv.root

/-- What is below an input tree is apart from the result. -/
theorem apart_of_isInput (hr : o.Regular) {place : Place} (hp : o.IsInput place) :
    Apart place o.outputDir.resolved := by
  rcases hp with hp | hp
  · exact hr.apartBuilt.symm.below hp (List.prefix_refl _)
  · exact hr.apartGenerated.symm.below hp (List.prefix_refl _)

theorem edit (hr : o.Regular) (h : Settled o contents old m) (op : Operation)
    (hp : o.IsInput op.path.resolved) (hc : m.clock ≤ (op.run m).clock) :
    Settled o contents old (op.run m) where
  namedOld := h.namedOld
  named := h.named.follows (op.follows m) fun _ => Path.isName_of_mem_resolved
  fits := h.fits
  whole := h.whole
  datedOld := h.datedOld
  dated := h.dated.follows (op.follows m) hc
  since := h.since.follows (op.follows m) hc
  root := by rw [(op.follows m).node?_of_apart (apart_of_isInput hr hp), h.root]

/-- Editing the input trees leaves the result alone. -/
theorem view_edit (hr : o.Regular) (op : Operation) (hp : o.IsInput op.path.resolved) :
    (op.run m).view o.outputDir.resolved = m.view o.outputDir.resolved := by
  funext q
  rw [view, view, (op.follows m).node?_of_apart
    ((apart_of_isInput hr hp).below (List.prefix_refl _) (List.prefix_append _ q))]

theorem fail (hr : o.Regular) (h : Settled o contents old m)
    (hw : Within o.outputDir.resolved m m') (hc : m.clock ≤ m'.clock) :
    Settled o contents old m' where
  namedOld := h.namedOld
  named := hw.named h.named
  fits := h.fits
  whole := h.whole
  datedOld := h.datedOld
  dated := h.dated.congr (inputs_of_within hr hw) hc
  since := h.since.congr (inputs_of_within hr hw) hc
  root := hw.dir h.root

theorem build (hr : o.Regular) (h : Settled o contents old m) (hf : o.Fits contents m)
    (hwhole : o.Whole m) (hw : Within o.outputDir.resolved m m') (hc : m.clock ≤ m'.clock) :
    Settled o contents m m' where
  namedOld := h.named
  named := hw.named h.named
  fits := hf
  whole := hwhole
  datedOld := h.dated
  dated := h.dated.congr (inputs_of_within hr hw) hc
  since := (Since.refl _ m).congr (inputs_of_within hr hw) hc
  root := hw.dir h.root

/-- Tokens tell the contents before and after apart. -/
theorem tells (h : Settled o contents old m) (hh : o.Hashes contents) (hf : o.Fits contents m) :
    o.Tells old m := by
  cases hmode : o.listOptions.tokenMode with
  | stat => exact tells_of_stat hmode h.datedOld h.since
  | content => exact tells_of_content hmode (hh hmode) h.fits.known hf.known

end Settled

variable {o : MergeOptions} {contents : ByteArray → Prop} {faults : Prop} {g g' : Merger}
  {m m' : Memory}

/-- A build that succeeds from a settled state restores exactly some paths, and settles anew. -/
theorem Settled.build_ok {old : Memory} (hr : o.Regular) (hh : o.Hashes contents)
    (h : Settled o contents old m) (hf : o.Fits contents m) {s : MergeSummary}
    (ho : outcome (after o old).build m = (.ok (s, g'), m')) : g' = after o m ∧
      o.Carries old m (m.view o.outputDir.resolved) (m'.view o.outputDir.resolved) ∧
      o.Whole m ∧ Within o.outputDir.resolved m m' := by
  obtain ⟨hg, hc, hw⟩ := Merger.build_ok hr h.namedOld h.named hf.mergeable h.root ho
  exact ⟨hg, hc, hc.whole hr h.namedOld h.named h.fits.mergeable hf.mergeable
    (h.tells hh hf) h.whole, hw⟩

/-- From the tree of the inputs that were taken over, a build that succeeds leads to the tree of the
inputs that are there. -/
theorem Settled.tree_of_build {old : Memory} (hr : o.Regular) (hh : o.Hashes contents)
    (h : Settled o contents old m) (hf : o.Fits contents m) {s : MergeSummary}
    (ho : outcome (after o old).build m = (.ok (s, g'), m'))
    (htree : ∀ path, m.view o.outputDir.resolved (Text.split '/' path) =
      o.tree old (Text.split '/' path)) (path : String) :
    m'.view o.outputDir.resolved (Text.split '/' path) = o.tree m (Text.split '/' path) := by
  obtain ⟨-, hcarries, -, -⟩ := h.build_ok hr hh hf ho
  exact (hcarries.eq_tree_iff hr h.named hf.mergeable path).mpr
    (restores_of_tree hr h.namedOld h.named h.fits.mergeable hf.mergeable (h.tells hh hf)
      (htree path))

/-- The invariant of a run: the merger remembers the input trees of a settled state and, unless
builds failed, the result is the tree of these. -/
theorem Run.settled (hr : o.Regular) (hh : o.Hashes contents) (h : Run o contents faults g m) :
    ∃ old, g = after o old ∧ Settled o contents old m ∧ (¬ faults → ∀ path,
      m.view o.outputDir.resolved (Text.split '/' path) = o.tree old (Text.split '/' path)) := by
  induction h with
  | start hm hv =>
      refine ⟨nothing, (after_nothing o).symm, .start hm hv, fun _ path => ?_⟩
      rw [hv.inside _ (Text.split_ne_nil _ _), tree_of_none (kindAt?_merged_nothing path)]
  | edit op _ hp hc ih =>
      obtain ⟨old, hg, hs, htree⟩ := ih
      refine ⟨old, hg, hs.edit hr op hp hc, fun hf path => ?_⟩
      rw [Settled.view_edit hr op hp, htree hf path]
  | build _ hf ho hc ih =>
      obtain ⟨old, rfl, hs, htree⟩ := ih
      obtain ⟨hg, -, hwhole, hw⟩ := hs.build_ok hr hh hf ho
      exact ⟨_, hg, hs.build hr hf hwhole hw hc,
        fun hfaults => hs.tree_of_build hr hh hf ho (htree hfaults)⟩
  | fail _ hf ho hc ih =>
      obtain ⟨old, rfl, hs, -⟩ := ih
      have hw := keeps_build hr hs.namedOld hs.named
      rw [ho] at hw
      exact ⟨old, rfl, hs.fail hr hw hc, fun hfaults => absurd hf hfaults⟩

/-! ## What builds lead to -/

/-- What a build from a settled state leads to, compared with a new merger: the same tree exactly
when every path is restored. -/
theorem Settled.fresh_iff_restores {old : Memory} (hr : o.Regular) (hh : o.Hashes contents)
    (h : Settled o contents old m) (hf : o.Fits contents m) {s : MergeSummary}
    (ho : outcome (after o old).build m = (.ok (s, g'), m')) :
    (∀ place, place ≠ [] → m'.view o.outputDir.resolved place = o.fresh m' place) ↔
      ∀ path, o.Restores old m (m.view o.outputDir.resolved) path := by
  obtain ⟨-, hc, hwhole, hw⟩ := h.build_ok hr hh hf ho
  have hs := inputs_of_within hr hw
  have hm' := hw.named h.named
  have htree : ∀ path, o.fresh m' (Text.split '/' path) = o.tree m (Text.split '/' path) := by
    intro path
    rw [fresh_eq_tree hr hm' (hf.mergeable.congr h.named hm' hs)
      (whole_congr h.named hm' hwhole hs), tree_congr h.named hm' hs]
  constructor
  · intro heq path
    rw [← hc.eq_tree_iff hr h.named hf.mergeable path, ← htree, heq _ (Text.split_ne_nil _ _)]
  · intro hrestores place hne
    refine view_ext hm' (named_fresh hr hm') (fun path => ?_) hne
    exact ((hc.eq_tree_iff hr h.named hf.mergeable path).mpr (hrestores path)).trans
      (htree path).symm

/-- Incremental builds lead to clean results: as long as no build failed, each build ends in the
tree that a new merger puts into an empty directory, which is the tree of the inputs. The new merger
fails at most because a target is a directory there. -/
theorem Run.eq_fresh (hr : o.Regular) (hh : o.Hashes contents) (h : Run o contents False g m)
    (hf : o.Fits contents m) {s : MergeSummary} (ho : outcome g.build m = (.ok (s, g'), m')) :
    (∀ place, place ≠ [] → m'.view o.outputDir.resolved place = o.fresh m' place) ∧
      (∀ path, m'.view o.outputDir.resolved (Text.split '/' path) =
        o.tree m' (Text.split '/' path)) ∧
      ((∀ target, o.targets.contains target = true →
          m'.view o.outputDir.resolved (Text.split '/' target) ≠ some .dir) →
        ∃ s g m'', outcome (create o).build (m'.cleared o.outputDir) = (.ok (s, g), m'')) := by
  obtain ⟨old, rfl, hs, htree⟩ := h.settled hr hh
  obtain ⟨-, hc, hwhole, hw⟩ := hs.build_ok hr hh hf ho
  have hrestores : ∀ path, o.Restores old m (m.view o.outputDir.resolved) path := fun path =>
    restores_of_tree hr hs.namedOld hs.named hs.fits.mergeable hf.mergeable (hs.tells hh hf)
      (htree id path)
  have hinputs := inputs_of_within hr hw
  have hm' := hw.named hs.named
  have hend : ∀ path, m'.view o.outputDir.resolved (Text.split '/' path) =
      o.tree m' (Text.split '/' path) := fun path => by
    rw [tree_congr hs.named hm' hinputs]
    exact (hc.eq_tree_iff hr hs.named hf.mergeable path).mpr (hrestores path)
  refine ⟨(hs.fresh_iff_restores hr hh hf ho).mpr hrestores, hend, fun hdirs => ?_⟩
  exact fresh_succeeds hr hm' (hf.mergeable.congr hs.named hm' hinputs)
    (whole_congr hs.named hm' hwhole hinputs) fun target ht =>
      hend target ▸ hdirs target ht

end Merger

namespace OneTarget

open MergeOptions Merger

/-- Options of a merge with one target. -/
def options : MergeOptions where
  builtDir := ⟨"/up"⟩
  generatedDir := ⟨"/gen"⟩
  outputDir := ⟨"/out"⟩
  mappings := .ofList [("t.js", .ofList [("js", "app")])]

theorem regular : options.Regular where
  apartBuilt := by decide +kernel
  apartGenerated := by decide +kernel
  targets := Table.forall_get?_iff.mpr (by decide +kernel)
  subdirs := Table.forall_get?_iff.mpr (by decide +kernel)
  places := fun _ he => absurd he List.not_mem_nil

theorem consistent {m : Memory} (hm : m.Named) (hd : m.node? ["gen", "app"] = some .dir)
    (hn : ∀ name ∈ m.children ["gen", "app"], name ∉ options.listOptions.ignore) :
    options.Consistent m := by
  have htargets : options.targets.entries = [("t.js", ⟨"app", "js"⟩)] := by decide +kernel
  have hplace : options.generatedDir.resolved ++ Text.split '/' "app" = ["gen", "app"] := by
    decide +kernel
  refine consistent_of_empty rfl hm ?_ ?_ <;> rw [htargets]
  · simpa [hplace] using hn
  · simpa [hplace] using hd

/-- A state whose listings can be found without sorting. -/
abbrev Walked (m : Memory) : Prop := options.Walked m

theorem build_of_carry {old m m' : Memory} (hold : Walked old) (hm : Walked m) {s : MergeSummary}
    (h : outcome (carry options old m) (m.addDir options.outputDir) = (.ok s, m')) :
    outcome (after options old).build m = (.ok (s, after options m), m') :=
  Merger.build_of_carry rfl hold hm h

theorem fails_of_carry {old m m' : Memory} (hold : Walked old) (hm : Walked m)
    (h : (outcome (carry options old m) (m.addDir options.outputDir)).1.toBool = false)
    (hm' : (outcome (carry options old m) (m.addDir options.outputDir)).2 = m') :
    ∃ e, outcome (after options old).build m = (.error e, m') :=
  Merger.fails_of_carry rfl hold hm h hm'

/-- One file and a fragment for it. -/
def started : Memory :=
  (((Memory.empty ⟨"/"⟩).addFile ⟨"/up/t.js"⟩ "v".toUTF8).addFile ⟨"/gen/app/a.js"⟩
    "a".toUTF8).cleared options.outputDir

theorem reachable_started : started.Reachable :=
  .step (.addDir options.outputDir) (.step (.remove options.outputDir)
    (.step (.addFile ⟨"/gen/app/a.js"⟩ "a".toUTF8) (.step (.addFile ⟨"/up/t.js"⟩ "v".toUTF8)
      (.empty ⟨"/"⟩) (by decide +kernel)) (by decide +kernel)) (by decide +kernel))
    (by decide +kernel)

def built : Memory := started.addFile ⟨"/out/t.js"⟩ "v;\na".toUTF8

theorem build_started :
    outcome (create options).build started = (.ok (.merged, after options started), built) := by
  rw [← after_nothing]
  exact build_of_carry (by decide +kernel) (by decide +kernel) (by decide +kernel)

theorem run_built : Run options (fun _ => True) False (after options started) built := by
  refine .build (.start reachable_started (options.vacant_cleared _)) ⟨?_, fun _ _ _ _ _ => trivial⟩
    build_started (by decide +kernel)
  exact { consistent (by decide +kernel) (by decide +kernel) (by decide +kernel) with
    built := by decide +kernel
    generated := by decide +kernel }

/-- A second fragment is added. -/
def edited : Memory := built.addFile ⟨"/gen/app/b.js"⟩ "b".toUTF8

def rebuilt : Memory := edited.addFile ⟨"/out/t.js"⟩ "v;\na;\nb".toUTF8

theorem build_edited : outcome (after options started).build edited =
    (.ok (.merged, after options edited), rebuilt) :=
  build_of_carry (by decide +kernel) (by decide +kernel) (by decide +kernel)

theorem rebuilt_eq_fresh : (∀ place, place ≠ [] →
      rebuilt.view options.outputDir.resolved place = options.fresh rebuilt place) ∧
    (∀ path, rebuilt.view options.outputDir.resolved (Text.split '/' path) =
      options.tree rebuilt (Text.split '/' path)) ∧
    ((∀ target, options.targets.contains target = true →
        rebuilt.view options.outputDir.resolved (Text.split '/' target) ≠ some .dir) →
      ∃ s g m, outcome (create options).build (rebuilt.cleared options.outputDir) =
        (.ok (s, g), m)) :=
  Run.eq_fresh regular nofun
    (.edit (.addFile ⟨"/gen/app/b.js"⟩ "b".toUTF8) run_built (.inr (by decide +kernel))
      (by decide +kernel))
    ⟨{ consistent (by decide +kernel) (by decide +kernel) (by decide +kernel) with
        built := by decide +kernel
        generated := by decide +kernel }, fun _ _ _ _ _ => trivial⟩ build_edited

-- A file in the place of a root hides what is below it.
example : (((Memory.empty ⟨"/"⟩).addFile ⟨"/up/t.js"⟩ "v".toUTF8).addFile ⟨"/up"⟩ "x".toUTF8).walked
    options.builtDir {} = [] := by decide +kernel

/-- The root of the build output becomes a file, while the file below it stays. -/
def shadowed : Memory := built.addFile ⟨"/up"⟩ "x".toUTF8

def emptied : Memory := shadowed.without ["out", "t.js"]

/-- Where the build output is no tree, its listing is empty but its files can still be read: a
build removes the target that a new merger makes. -/
theorem shadowed_ne_fresh :
    Run options (fun _ => True) False (after options started) shadowed ∧
    options.Consistent shadowed ∧
    outcome (after options started).build shadowed =
      (.ok (.dropped, after options shadowed), emptied) ∧
    emptied.view options.outputDir.resolved ["t.js"] = none ∧
    options.fresh emptied ["t.js"] = some (.file "v;\na".toUTF8) := by
  refine ⟨.edit (.addFile ⟨"/up"⟩ "x".toUTF8) run_built (.inl (by decide +kernel))
    (by decide +kernel), consistent (by decide +kernel) (by decide +kernel) (by decide +kernel),
    build_of_carry (by decide +kernel) (by decide +kernel) (by decide +kernel), by decide +kernel, ?_⟩
  have hb : outcome (after options nothing).build (emptied.cleared options.outputDir) =
      (.ok (.merged, after options (emptied.cleared options.outputDir)),
        (emptied.cleared options.outputDir).addFile ⟨"/out/t.js"⟩ "v;\na".toUTF8) :=
    build_of_carry (by decide +kernel) (by decide +kernel) (by decide +kernel)
  rw [after_nothing] at hb
  rw [fresh, hb]
  decide +kernel

end OneTarget

namespace Merger

open MergeOptions

/-- When builds failed before, a build that succeeds leaves what a new merger would exactly if it
restores every path. -/
theorem Run.eq_fresh_iff (hr : o.Regular) (hh : o.Hashes contents)
    (h : Run o contents True g m) (hf : o.Fits contents m) {s : MergeSummary}
    (ho : outcome g.build m = (.ok (s, g'), m')) : ∃ old, g = after o old ∧
      ((∀ place, place ≠ [] → m'.view o.outputDir.resolved place = o.fresh m' place) ↔
        ∀ path, o.Restores old m (m.view o.outputDir.resolved) path) := by
  obtain ⟨old, rfl, hs, -⟩ := h.settled hr hh
  exact ⟨old, rfl, hs.fresh_iff_restores hr hh hf ho⟩

end Merger

namespace OneTarget

open MergeOptions Merger

/-- A file of the build output, and a target with a fragment that is no text. -/
def broken : Memory :=
  ((((Memory.empty ⟨"/"⟩).addFile ⟨"/up/a.txt"⟩ "A".toUTF8).addFile ⟨"/up/t.js"⟩ "v".toUTF8).addFile
    ⟨"/gen/app/bad.js"⟩ ⟨#[0xff]⟩).cleared options.outputDir

theorem reachable_broken : broken.Reachable :=
  .step (.addDir options.outputDir) (.step (.remove options.outputDir)
    (.step (.addFile ⟨"/gen/app/bad.js"⟩ ⟨#[0xff]⟩)
      (.step (.addFile ⟨"/up/t.js"⟩ "v".toUTF8) (.step (.addFile ⟨"/up/a.txt"⟩ "A".toUTF8)
        (.empty ⟨"/"⟩) (by decide +kernel)) (by decide +kernel)) (by decide +kernel))
      (by decide +kernel))
    (by decide +kernel)

/-- The build fails at the target, after the file was copied. -/
def halted : Memory := broken.addFile ⟨"/out/a.txt"⟩ "A".toUTF8

/-- The file and the fragment are removed. -/
def mended : Memory := (halted.remove ⟨"/up/a.txt"⟩).remove ⟨"/gen/app/bad.js"⟩

theorem run_mended : Run options (fun _ => True) True (create options) mended := by
  have hb : ∃ e, outcome (after options nothing).build broken = (.error e, halted) :=
    fails_of_carry (by decide +kernel) (by decide +kernel) (by decide +kernel) (by decide +kernel)
  rw [after_nothing] at hb
  obtain ⟨e, hb⟩ := hb
  exact .edit (.remove ⟨"/gen/app/bad.js"⟩) (.edit (.remove ⟨"/up/a.txt"⟩)
    (.fail (.start reachable_broken (options.vacant_cleared _)) trivial hb (by decide +kernel))
    (.inl (by decide +kernel)) (by decide +kernel)) (.inr (by decide +kernel)) (by decide +kernel)

theorem fits_mended : options.Fits (fun _ => True) mended :=
  ⟨{ consistent (by decide +kernel) (by decide +kernel) (by decide +kernel) with
      built := by decide +kernel
      generated := by decide +kernel }, fun _ _ _ _ _ => trivial⟩

def littered : Memory := mended.addFile ⟨"/out/t.js"⟩ "v".toUTF8

theorem build_mended :
    outcome (create options).build mended = (.ok (.copied, after options mended), littered) := by
  rw [← after_nothing]
  exact build_of_carry (by decide +kernel) (by decide +kernel) (by decide +kernel)

theorem littered_eq_fresh_iff : ∃ old, create options = after options old ∧
    ((∀ place, place ≠ [] →
        littered.view options.outputDir.resolved place = options.fresh littered place) ↔
      ∀ path, options.Restores old mended (mended.view options.outputDir.resolved) path) :=
  Run.eq_fresh_iff regular nofun run_mended fits_mended build_mended

/-- What a failed build copied stays when its source is removed before the next build. -/
theorem littered_ne_fresh :
    Run options (fun _ => True) True (create options) mended ∧
    options.Fits (fun _ => True) mended ∧
    outcome (create options).build mended = (.ok (.copied, after options mended), littered) ∧
    littered.view options.outputDir.resolved ["a.txt"] = some (.file "A".toUTF8) ∧
    options.fresh littered ["a.txt"] = none := by
  refine ⟨run_mended, fits_mended, build_mended, by decide +kernel, ?_⟩
  have hb : outcome (after options nothing).build (littered.cleared options.outputDir) =
      (.ok (.copied, after options (littered.cleared options.outputDir)),
        (littered.cleared options.outputDir).addFile ⟨"/out/t.js"⟩ "v".toUTF8) :=
    build_of_carry (by decide +kernel) (by decide +kernel) (by decide +kernel)
  rw [after_nothing] at hb
  rw [fresh, hb]
  decide +kernel

end OneTarget

end VendorBundle
