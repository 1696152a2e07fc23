import VendorBundle.Proofs.Merge.Reach

/-!
# What a build leaves untouched

Between builds anything may be done to the file system, and builds may fail. The next build writes
the file of a path only when the path is listed in another way than at the last build that
succeeded, or when it is a target and a generated path that is now listed in another way feeds it:
the path has the extension of the target, and no mapped directory that holds it is longer than the
one of the target.
-/

namespace VendorBundle

open Entry Memory Effect

namespace MergeOptions

variable (o : MergeOptions)

/-- A mapped directory holds a path, and no other one that does is longer. -/
structure Nearest (path subdir : String) : Prop where
  covers : Feeds.covers subdir path = true
  longest : ∀ target source, o.targets.get? target = some source →
    Feeds.covers source.subdir path = true → source.subdir.utf8ByteSize ≤ subdir.utf8ByteSize

/-- The path is a target, and a generated path that feeds it is listed differently in two states. -/
def Fed (old new : Memory) (target : String) : Prop :=
  ∃ source changed, o.targets.get? target = some source ∧
    entryAt? (o.generatedListing old) changed ≠ entryAt? (o.generatedListing new) changed ∧
    extensionOf? changed = some source.extension ∧ o.Nearest changed source.subdir

variable {o} {old m : Memory}

theorem nearest_of_dirOf? {path subdir : String}
    (h : (Feeds.ofTargets o.targets).dirOf? path = some subdir) : o.Nearest path subdir where
  covers := (Feeds.dirOf?_spec h).1.2
  longest := fun target source ht hc =>
    (Feeds.dirOf?_spec h).2 _ (Feeds.mem_keys_ofTargets.mpr ⟨target, source, ht, rfl⟩) hc

/-- A target is left to make anew only if it is fed. -/
theorem fed_of_mem_left (hold : old.Named) (hm : m.Named) {target : String}
    (ht : target ∈ o.left old m) : o.Fed old m target := by
  obtain ⟨⟨op, hop, hfeeds⟩, -⟩ := mem_left.mp ht
  obtain ⟨source, hs, hdir, hext⟩ := Feeds.source_of_mem_targetsOf hfeeds
  exact ⟨source, op.path, hs, Patch.entryAt?_ne_of_mem (ascending_listing hold _ _)
    (ascending_listing hm _ _) hop, hext, nearest_of_dirOf? hdir⟩

/-- The place of a path that is listed as before is touched only if the path is fed. -/
theorem Separate.fed_of_touches (hs : o.Separate) (hold : old.Named) (hm : m.Named)
    {path : String} {e : Entry} (he : entryAt? (o.merged old) path = some e)
    (he' : entryAt? (o.merged m) path = some e) (h : o.Touches old m (o.spot path)) :
    o.Fed old m path := by
  have hpath : Canonical path :=
    entryAt?_path he ▸ canonical_of_mem_merged hs.places hold (entryAt?_mem he)
  rcases h with ⟨op, hop, hspot⟩ | ⟨target, ht, hspot⟩
  · have hop' : Canonical op.path := Merger.canonical_of_mem_changes hs.places hold hm hop
    refine absurd ?_ (Patch.entryAt?_ne_of_mem ascending_merged ascending_merged hop)
    rw [eq_of_spot_eq hop' hpath hspot, he, he']
  · rw [← eq_of_spot_eq (hs.targets _ (contains_of_mem_left ht)) hpath hspot]
    exact fed_of_mem_left hold hm ht

end MergeOptions

namespace Merger

open MergeOptions

/-- What one merger and the file system go through, with the state in which the last build that
succeeded began. -/
inductive Builds (o : MergeOptions) : Merger → Memory → Memory → Prop where
  | start {m} (hm : m.Named) : Builds o (create o) nothing m
  | edit {g old m} (op : Operation) (h : Builds o g old m) : Builds o g old (op.run m)
  | build {g g' old m m' s} (h : Builds o g old m) (ho : outcome g.build m = (.ok (s, g'), m')) :
      Builds o g' m m'
  | fail {g old m m' e} (h : Builds o g old m) (ho : outcome g.build m = (.error e, m')) :
      Builds o g old m'

variable {o : MergeOptions} {g : Merger} {old m m' : Memory}

/-- The merger remembers the last build that succeeded, and all places have names. -/
theorem Builds.eq_after (h : Builds o g old m) : g = after o old ∧ old.Named ∧ m.Named := by
  induction h with
  | start hm => exact ⟨(after_nothing o).symm, named_nothing, hm⟩
  | edit op _ ih =>
      obtain ⟨hg, hold, hm⟩ := ih
      exact ⟨hg, hold, hm.follows (op.follows _) fun _ => Path.isName_of_mem_resolved⟩
  | build _ ho ih =>
      obtain ⟨rfl, -, hm⟩ := ih
      exact ⟨(passes_of_build hm ho).1, hm, named_of_alters hm (alters_of_build hm ho)⟩
  | fail _ ho ih =>
      obtain ⟨rfl, hold, hm⟩ := ih
      exact ⟨rfl, hold, named_of_alters hm (alters_of_build hm ho)⟩

/-- Whatever has happened before, a build, successful or not, leaves what stands at a path that is
listed as at the last build that succeeded, unless the path is fed. It touches nothing of the input
trees. -/
theorem Builds.build_untouched (hs : o.Separate) (h : Builds o g old m)
    {r : Except MergeError (MergeSummary × Merger)} (ho : outcome g.build m = (r, m')) :
    (∀ path e, entryAt? (o.merged old) path = some e → entryAt? (o.merged m) path = some e →
      ∀ node, m.node? (o.spot path) = some node →
        m'.node? (o.spot path) = some node ∨ o.Fed old m path) ∧
    ∀ place, o.IsInput place → m'.node? place = m.node? place := by
  obtain ⟨rfl, hold, hm⟩ := h.eq_after
  have halters := alters_of_build hm ho
  refine ⟨fun path e he he' node hn => ?_, fun place =>
    inputs_of_alters hs.detached hold hm halters⟩
  by_cases ht : o.Touches old m (o.spot path)
  · exact .inr (hs.fed_of_touches hold hm he he' ht)
  · exact .inl (halters.node?_of_some ht hn)

end Merger

namespace Beside

open MergeOptions Merger OneTarget

/-- Another file of the build output stands beside the target. -/
def started : Memory :=
  ((((Memory.empty ⟨"/"⟩).addFile ⟨"/up/a.txt"⟩ "A".toUTF8).addFile ⟨"/up/t.js"⟩
    "v".toUTF8).addFile ⟨"/gen/app/a.js"⟩ "a".toUTF8).cleared options.outputDir

def built : Memory :=
  (started.addFile ⟨"/out/a.txt"⟩ "A".toUTF8).addFile ⟨"/out/t.js"⟩ "v;\na".toUTF8

/-- A second fragment is added. -/
def edited : Memory := built.addFile ⟨"/gen/app/b.js"⟩ "b".toUTF8

def rebuilt : Memory := edited.addFile ⟨"/out/t.js"⟩ "v;\na;\nb".toUTF8

theorem builds_edited : Builds options (after options started) started edited := by
  refine .edit (.addFile ⟨"/gen/app/b.js"⟩ "b".toUTF8) (.build (.start (by decide +kernel))
    (s := .copied + .merged) ?_)
  rw [← after_nothing]
  exact OneTarget.build_of_carry (by decide +kernel) (by decide +kernel) (by decide +kernel)

theorem build_edited : outcome (after options started).build edited =
    (.ok (.merged, after options edited), rebuilt) :=
  OneTarget.build_of_carry (by decide +kernel) (by decide +kernel) (by decide +kernel)

theorem listed_as_before {path : String} (h : path ∈ ["a.txt", "t.js"]) :
    ∃ e, entryAt? (options.merged started) path = some e ∧
      entryAt? (options.merged edited) path = some e := by
  rw [merged_eq_walked rfl (by decide +kernel), merged_eq_walked rfl (by decide +kernel)]
  have hall : ∀ path ∈ ["a.txt", "t.js"],
      (entryAt? (started.walked options.builtDir options.listOptions) path).isSome ∧
      entryAt? (edited.walked options.builtDir options.listOptions) path =
        entryAt? (started.walked options.builtDir options.listOptions) path := by decide +kernel
  obtain ⟨e, he⟩ := Option.isSome_iff_exists.mp (hall path h).1
  exact ⟨e, he, (hall path h).2.trans he⟩

/-- The second build leaves the file beside the target alone. It makes the target anew, which is
listed as before but fed. -/
theorem build_edited_untouched :
    rebuilt.node? (options.spot "a.txt") = edited.node? (options.spot "a.txt") ∧
    rebuilt.node? (options.spot "t.js") ≠ edited.node? (options.spot "t.js") ∧
    options.Fed started edited "t.js" ∧
    ∀ place, options.IsInput place → rebuilt.node? place = edited.node? place := by
  obtain ⟨hpaths, hinputs⟩ := Builds.build_untouched regular.separate builds_edited build_edited
  have hstands : ∀ path ∈ ["a.txt", "t.js"], (edited.node? (options.spot path)).isSome := by
    decide +kernel
  have hsame : ∀ path ∈ ["a.txt", "t.js"],
      rebuilt.node? (options.spot path) = edited.node? (options.spot path) ∨
        options.Fed started edited path := by
    intro path hmem
    obtain ⟨e, he, he'⟩ := listed_as_before hmem
    obtain ⟨node, hn⟩ := Option.isSome_iff_exists.mp (hstands path hmem)
    exact (hpaths path e he he' node hn).imp_left fun hkept => hkept.trans hn.symm
  have hmade : rebuilt.node? (options.spot "t.js") ≠ edited.node? (options.spot "t.js") := by
    decide +kernel
  refine ⟨(hsame "a.txt" (by simp)).resolve_right ?_, hmade,
    (hsame "t.js" (by simp)).resolve_left hmade, hinputs⟩
  rintro ⟨source, -, hs, -⟩
  have hnone : options.targets.get? "a.txt" = none := by decide +kernel
  rw [hnone] at hs
  cases hs

end Beside

end VendorBundle
