import VendorBundle.Proofs.Merge.Carry
import VendorBundle.Proofs.Tree.Complete

/-!
# The input trees of a merge

What the two input trees hold determines the listing that a build carries over and the tree it is
to lead to.
-/

namespace VendorBundle

open Entry Memory

namespace MergeOptions

variable (o : MergeOptions) (m : Memory)

def generatedListing : List Entry := m.listing o.generatedDir o.listOptions

def builtListing : List Entry := m.listing o.builtDir o.listOptions

/-- The generated directories that are laid over the build output. -/
def overlay : Overlay := .ofListing o.passthrough (o.generatedListing m)

/-- The listing of the build output and what is laid over it. -/
def laidOver : List Entry := o.builtListing m ++ (o.overlay m).entries

/-- The listing that a build carries over to the result. -/
def merged : List Entry := normalize (o.laidOver m)

/-- What a build is to carry over has no contradictions: no path is wanted both as a file and as a
directory, nothing is laid over a target, and listings show the fragments of targets and no file in
the place of a mapped directory. -/
structure Consistent : Prop where
  oneKind : OneKind (o.laidOver m)
  targets : ∀ path, (o.overlay m).sources.contains path = true → o.targets.contains path = false
  fragments : ∀ target source name, o.targets.get? target = some source →
    (m.bytes? (o.generatedDir.resolved ++ Text.split '/' source.subdir ++ [name])).isSome →
    name ∉ o.listOptions.ignore
  subdirs : ∀ target source, o.targets.get? target = some source →
    m.bytes? (o.generatedDir.resolved ++ Text.split '/' source.subdir) = none

/-- What the theory asks of the input trees at a build: they are trees, without contradictions. -/
structure Mergeable : Prop extends Consistent o m where
  built : m.IsTreeAt o.builtDir.resolved
  generated : m.IsTreeAt o.generatedDir.resolved

/-- The tree that the result is to be. -/
def tree : View := fun place =>
  (entryAt? (o.merged m) (pathText place)).bind fun e => match e.kind with
    | .directory => some .dir
    | .file => (o.content? m (o.overlay m) (pathText place)).map .file

variable {o m}

/-! ## Facts about the carried listing -/

theorem ascending_merged : Ascending (o.merged m) := normalize_ascending _

theorem entryAt?_merged (path : String) :
    entryAt? (o.merged m) path = entryAt? (o.laidOver m) path := entryAt?_normalize _ path

theorem canonical_of_mem_merged
    (hp : ∀ e ∈ o.passthrough.entries, Overlay.IsPlace (trimSlashes e.2)) (hm : m.Named)
    {e : Entry} (he : e ∈ o.merged m) : Canonical e.path := by
  rcases List.mem_append.mp (entryAt?_mem (mem_normalize.mp he)) with he | he
  · exact canonical_listing hm _ _ e he
  · exact Overlay.canonical_ofListing (canonical_listing hm _ _) hp e he

theorem canonical_sources (hm : m.Named) {path source : String}
    (h : (o.overlay m).sources.get? path = some source) : Canonical source := by
  have ht := Overlay.traced_ofListing o.passthrough (o.generatedListing m) path
  change (o.overlay m).sources.get? path = _ at h
  rw [← overlay, h] at ht
  obtain ⟨g, hg, rfl, -⟩ := ht
  exact canonical_listing hm _ _ g hg

theorem isTree_merged (hr : o.Regular) (hm : m.Named) (h : o.Mergeable m) :
    IsTree (o.merged m) :=
  isTree_normalize ((isTree_listing hm _ _).append
    (Overlay.isTree_ofListing (isTree_listing hm _ _) hr.places)) h.oneKind

/-- The place of the input trees that a file of the result comes from. -/
def origin (o : MergeOptions) (m : Memory) (path : String) : Place :=
  match (o.overlay m).sources.get? path with
  | some source => o.generatedDir.resolved ++ Text.split '/' source
  | none => o.builtDir.resolved ++ Text.split '/' path

theorem isInput_origin (path : String) : o.IsInput (o.origin m path) := by
  rw [origin]
  split
  · exact .inr (List.prefix_append _ _)
  · exact .inl (List.prefix_append _ _)

/-- A file that is carried over has the token of the file it comes from. -/
theorem origin_of_file (hm : m.Named) (h : o.Mergeable m) {path : String} {e : Entry}
    (he : entryAt? (o.merged m) path = some e) (hf : e.kind = .file) :
    ∃ content time, m.node? (o.origin m path) = some (.file content time) ∧
      e.token = o.listOptions.tokenMode.token content time := by
  have hfile : ∀ {dir : Path} {p : String} {e : Entry}, m.IsTreeAt dir.resolved →
      e.kind = .file → entryAt? (m.listing dir o.listOptions) p = some e →
      ∃ content time, m.node? (dir.resolved ++ Text.split '/' p) = some (.file content time) ∧
        e.token = o.listOptions.tokenMode.token content time := by
    intro dir p e ht hk hat
    rw [entryAt?_listing hm ht, listed?_eq_some_iff] at hat
    obtain ⟨-, node, hn, rfl⟩ := hat
    cases node with
    | dir => exact absurd hk (by simp [Node.entry, Entry.dir])
    | file content time => exact ⟨content, time, hn, rfl⟩
  rw [entryAt?_merged] at he
  have hsource := entryAt?_append_of_file
    (Overlay.traced_ofListing o.passthrough (o.generatedListing m)) h.oneKind he hf
  rw [← overlay] at hsource
  rw [origin]
  cases hs : (o.overlay m).sources.get? path with
  | none =>
      rw [hs] at hsource
      exact hfile h.built hf hsource
  | some source =>
      rw [hs] at hsource
      obtain ⟨g, hg, rfl, hgk, rfl⟩ := hsource
      have hat : entryAt? (m.listing o.generatedDir o.listOptions) g.path = some g :=
        (ascending_listing hm _ _).entryAt?_eq_some_iff.mpr ⟨hg, rfl⟩
      obtain ⟨content, time, hn, ht⟩ := hfile h.generated hgk hat
      exact ⟨content, time, hn, ht⟩

theorem origin_of_target (h : o.Mergeable m) {path : String}
    (ht : o.targets.contains path = true) :
    o.origin m path = o.builtDir.resolved ++ Text.split '/' path := by
  rw [origin]
  split
  · rename_i source hs
    have := h.targets path (by simp [Table.contains, hs])
    simp [this] at ht
  · rfl

theorem content?_of_not_target {path : String} (ht : o.targets.contains path = false) :
    o.content? m (o.overlay m) path = m.bytes? (o.origin m path) := by
  have hnone : o.targets.get? path = none := by simpa [Table.contains] using ht
  simp only [content?, hnone, origin]
  cases (o.overlay m).sources.get? path <;> rfl

/-- A target that is a file of the build output is carried over as a file. -/
theorem file_of_target (hr : o.Regular) (hm : m.Named) (h : o.Mergeable m) {target : String}
    (ht : o.targets.contains target = true) {content : ByteArray}
    (hb : m.bytes? (o.builtDir.resolved ++ Text.split '/' target) = some content) :
    ∃ e, entryAt? (o.merged m) target = some e ∧ e.kind = .file := by
  obtain ⟨source, hs⟩ := Option.isSome_iff_exists.mp ht
  obtain ⟨time, hn⟩ := bytes?_eq_some_iff.mp hb
  have hl : m.listed? o.listOptions o.builtDir.resolved target =
      some ((Node.file content time).entry o.listOptions.tokenMode target) :=
    listed?_eq_some_iff.mpr ⟨(hr.targets target source hs).2, _, hn, rfl⟩
  rw [← entryAt?_listing hm h.built] at hl
  have hmem : _ ∈ o.laidOver m := List.mem_append_left _ (entryAt?_mem hl)
  obtain ⟨e, he⟩ := exists_entryAt?_of_mem hmem
  rw [Node.entry_path] at he
  exact ⟨e, by rw [entryAt?_merged, he], h.oneKind.kind_eq hmem (Node.entry_path _ _ _) he⟩

/-- And the other way round. -/
theorem bytes?_of_target (hm : m.Named) (h : o.Mergeable m) {target : String}
    (ht : o.targets.contains target = true) {e : Entry}
    (he : entryAt? (o.merged m) target = some e) (hf : e.kind = .file) :
    ∃ content, m.bytes? (o.builtDir.resolved ++ Text.split '/' target) = some content := by
  obtain ⟨content, time, hn, -⟩ := origin_of_file hm h he hf
  rw [origin_of_target h ht] at hn
  exact ⟨content, bytes?_eq_some_iff.mpr ⟨time, hn⟩⟩

/-! ## Without generated directories that are laid over -/

section

variable (hp : o.passthrough = ∅)

include hp

theorem overlay_of_empty : o.overlay m = {} := by
  rw [overlay, hp]
  rfl

theorem laidOver_of_empty : o.laidOver m = o.builtListing m := by
  rw [laidOver, overlay_of_empty hp, List.append_nil]

theorem merged_of_empty (hm : m.Named) : o.merged m = o.builtListing m := by
  rw [merged, laidOver_of_empty hp, builtListing, normalize_of_ascending (ascending_listing hm _ _)]

theorem consistent_of_empty (hm : m.Named)
    (hf : ∀ e ∈ o.targets.entries,
      ∀ name ∈ m.children (o.generatedDir.resolved ++ Text.split '/' e.2.subdir),
        name ∉ o.listOptions.ignore)
    (hs : ∀ e ∈ o.targets.entries,
      m.node? (o.generatedDir.resolved ++ Text.split '/' e.2.subdir) = some .dir) :
    o.Consistent m where
  oneKind := by
    rw [laidOver_of_empty hp]
    intro a ha b hb hpath
    rw [(ascending_listing hm _ _).eq_of_path ha hb hpath]
  targets := fun path hc => by
    rw [overlay_of_empty hp] at hc
    exact absurd hc (by simp [Table.contains])
  fragments := fun target source name ht hn => by
    obtain ⟨content, hc⟩ := Option.isSome_iff_exists.mp hn
    obtain ⟨time, hnode⟩ := bytes?_eq_some_iff.mp hc
    exact hf (target, source) (Table.get?_eq_some_iff.mp ht) name (mem_children.mpr ⟨_, hnode⟩)
  subdirs := fun target source ht => by
    rw [bytes?, hs (target, source) (Table.get?_eq_some_iff.mp ht)]

end

end MergeOptions

/-! ## States with the same input trees -/

theorem Memory.IsTreeAt.congr {m m' : Memory} {root : Place} (h : m.IsTreeAt root)
    (hs : ∀ place, root <+: place → m'.node? place = m.node? place) : m'.IsTreeAt root := by
  intro place name node hp hn
  rw [hs _ (hp.trans (List.prefix_append _ _))] at hn
  rw [hs _ hp]
  exact h place name node hp hn

theorem Listing.Reaches.congr {m m' : Memory} {ignore : List String} {place : Place}
    {names : List String} {node : Node} (h : Reaches m ignore place names node)
    (hs : ∀ q, place <+: q → m'.node? q = m.node? q) : Reaches m' ignore place names node := by
  induction h with
  | here hi hn => exact .here hi ((hs _ (List.prefix_append _ _)).trans hn)
  | inside hi hn _ ih =>
      exact .inside hi ((hs _ (List.prefix_append _ _)).trans hn)
        (ih fun q hq => hs q ((List.prefix_append _ _).trans hq))

/-- A listing depends on nothing but what stands at its root and below. -/
theorem Memory.listing_congr {m m' : Memory} (hm : m.Named) (hm' : m'.Named) {dir : Path}
    (hs : ∀ place, dir.resolved <+: place → m'.node? place = m.node? place)
    (options : ListOptions) : m'.listing dir options = m.listing dir options := by
  have hmem : ∀ e, e ∈ m'.listing dir options ↔ e ∈ m.listing dir options := fun e => by
    rw [mem_listing_iff hm', mem_listing_iff hm, hs _ (List.prefix_refl _)]
    refine and_congr_right fun _ => exists_congr fun names => exists_congr fun node =>
      and_congr_left fun _ => ⟨fun h => ?_, fun h => ?_⟩
    · exact h.congr fun q hq => (hs q hq).symm
    · exact h.congr hs
  refine (ascending_listing hm' dir options).ext (ascending_listing hm dir options) fun path => ?_
  apply Option.ext
  intro e
  rw [(ascending_listing hm' dir options).entryAt?_eq_some_iff,
    (ascending_listing hm dir options).entryAt?_eq_some_iff, hmem]

namespace MergeOptions

variable {o : MergeOptions} {m m' : Memory}

section

variable (hm : m.Named) (hm' : m'.Named)
  (hs : ∀ place, o.IsInput place → m'.node? place = m.node? place)

include hm hm' hs

theorem generatedListing_congr : o.generatedListing m' = o.generatedListing m :=
  listing_congr hm hm' (fun place hp => hs place (.inr hp)) _

theorem builtListing_congr : o.builtListing m' = o.builtListing m :=
  listing_congr hm hm' (fun place hp => hs place (.inl hp)) _

theorem overlay_congr : o.overlay m' = o.overlay m := by
  rw [overlay, overlay, generatedListing_congr hm hm' hs]

theorem laidOver_congr : o.laidOver m' = o.laidOver m := by
  rw [laidOver, laidOver, builtListing_congr hm hm' hs, overlay_congr hm hm' hs]

theorem merged_congr : o.merged m' = o.merged m := by
  rw [merged, merged, laidOver_congr hm hm' hs]

theorem tree_congr : o.tree m' = o.tree m := by
  funext place
  simp only [tree, merged_congr hm hm' hs, overlay_congr hm hm' hs, o.content?_congr hs]

theorem Mergeable.congr (h : o.Mergeable m) : o.Mergeable m' where
  built := h.built.congr fun place hp => hs place (.inl hp)
  generated := h.generated.congr fun place hp => hs place (.inr hp)
  oneKind := laidOver_congr hm hm' hs ▸ h.oneKind
  targets := overlay_congr hm hm' hs ▸ h.targets
  fragments := fun target source name ht hb => h.fragments target source name ht (by
    rwa [bytes?_congr (hs _ (.inr (by rw [List.append_assoc]; exact List.prefix_append _ _)))]
      at hb)
  subdirs := fun target source ht => by
    rw [bytes?_congr (hs _ (.inr (List.prefix_append _ _))), h.subdirs target source ht]

end

end MergeOptions

end VendorBundle
