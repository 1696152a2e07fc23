import VendorBundle.Proofs.Index.Collect
import VendorBundle.Proofs.Order

/-!
# The imports of a tree from scratch

The list of all imports of a tree can be told from the files of the tree alone: it goes through the
programs in the order of their paths and takes what each content says. An index has this list
exactly when it knows of each file what the content of the file says.
-/

namespace VendorBundle

open Entry Memory

/-- What an index is made for: a package with one of its trees, and how the tree is listed. -/
structure IndexScope where
  package : Package
  tree : SourceTree
  options : ListOptions := {}

namespace IndexScope

variable (c : IndexScope) (m : Memory)

/-- A new index. -/
def create : ImportIndex := { package := c.package, tree := c.tree }

def listing : List Entry := m.listing c.tree.root c.options

/-- The place of a file of the tree. -/
def place (path : String) : Place := c.tree.root.resolved ++ Text.split '/' path

/-- The imports of a file with the given content. One without a text or with a syntax error has
none. -/
def contentImports (path : String) (content : ByteArray) : List Import :=
  let file := c.tree.label ++ path
  match Text.Utf8.decode content with
  | .error _ => []
  | .ok text =>
      match Script.imports file text with
      | .error _ => []
      | .ok forms => forms.map (.ofForm ⟨file, c.package, c.tree.kind⟩)

/-- The listed files that the package reads, in the order of their paths. -/
def programs : List String :=
  (c.create.programs (c.listing m)).mergeSort fun a b => (compare a b).isLE

/-- The imports of a path. One where no program stands has none. -/
def fileImports (path : String) : List Import :=
  if path ∈ c.programs m then
    match m.node? (c.place path) with
    | some (.file content _) => c.contentImports path content
    | _ => []
  else []

/-- The imports of all files. -/
def scratch : List Import := (c.programs m).flatMap (c.fileImports m)

/-! ## Programs -/

variable {c m}

theorem mem_programs {path : String} : path ∈ c.programs m ↔
    ∃ e ∈ c.listing m, e.kind = .file ∧ c.package.matchesPath path ∧ e.path = path := by
  rw [programs, List.mem_mergeSort, ImportIndex.mem_programs]
  rfl

theorem mem_programs_of_create {path : String} :
    path ∈ c.programs m ↔ path ∈ c.create.programs (c.listing m) := by
  rw [programs, List.mem_mergeSort]

theorem ascending_programs (hm : m.Named) :
    (c.programs m).Pairwise fun a b => compare a b = .lt := by
  refine ascending_mergeSort_key id ?_
  rw [List.map_id, ImportIndex.programs]
  have hlisted : Ascending (c.listing m) := ascending_listing hm _ _
  refine List.pairwise_map.mpr ((hlisted.sublist List.filter_sublist).imp fun h => ?_)
  exact comparePaths_ne_of_lt h

/-- Where a program is listed stands a file. -/
theorem file_of_mem_programs (hm : m.Named) {path : String} (hp : path ∈ c.programs m) :
    ∃ content time, m.node? (c.place path) = some (.file content time) ∧
      Canonical path ∧ (Entry.file path (c.options.tokenMode.token content time)) ∈ c.listing m := by
  obtain ⟨e, he, hk, -, rfl⟩ := mem_programs.mp hp
  obtain ⟨node, hnode, hentry⟩ := node_of_mem_listing hm he
  cases node with
  | dir => exact absurd (hentry ▸ hk) nofun
  | file content time =>
      exact ⟨content, time, hnode, canonical_listing hm _ _ e he, hentry ▸ he⟩

/-! ## Records -/

theorem site_of_mem_contentImports {path : String} {content : ByteArray} {i : Import}
    (h : i ∈ c.contentImports path content) :
    i.site = ⟨c.tree.label ++ path, c.package, c.tree.kind⟩ := by
  rw [contentImports] at h
  split at h
  · exact absurd h List.not_mem_nil
  · split at h
    · exact absurd h List.not_mem_nil
    · obtain ⟨form, -, rfl⟩ := List.mem_map.mp h
      cases form <;> rfl

theorem site_of_mem_fileImports {path : String} {i : Import} (h : i ∈ c.fileImports m path) :
    i.site = ⟨c.tree.label ++ path, c.package, c.tree.kind⟩ ∧ path ∈ c.programs m := by
  rw [fileImports] at h
  split at h
  · rename_i hp
    split at h
    · exact ⟨site_of_mem_contentImports h, hp⟩
    · exact absurd h List.not_mem_nil
  · exact absurd h List.not_mem_nil

/-- Every record says which file it is of, and names the package and the kind of the tree. -/
theorem site_of_mem_scratch {i : Import} (h : i ∈ c.scratch m) :
    ∃ path ∈ c.programs m, i.site = ⟨c.tree.label ++ path, c.package, c.tree.kind⟩ := by
  obtain ⟨path, hp, hi⟩ := List.mem_flatMap.mp h
  exact ⟨path, hp, (site_of_mem_fileImports hi).1⟩

/-! ## Reading -/

variable {index : ImportIndex}

/-- What reading a file leads to is a matter of its content. -/
theorem readFile_of_content {m m' : Memory} (ht : index.tree = c.tree) {path : String}
    (hc : Canonical path) {content : ByteArray} {time time' : UInt64}
    (hn : m.node? (c.place path) = some (.file content time))
    (hn' : m'.node? (c.place path) = some (.file content time')) :
    ImportIndex.readFile m' index path = ImportIndex.readFile m index path := by
  have hplace : (index.tree.root.join ⟨path⟩).resolved = c.place path := by
    rw [ht, Path.resolved_join _ hc, place]
  have hread : Files.read m' (index.tree.root.join ⟨path⟩) =
      Files.read m (index.tree.root.join ⟨path⟩) := by
    rw [← hplace] at hn hn'
    rw [read_of_file hn, read_of_file hn']
  rw [ImportIndex.readFile, ImportIndex.readFile, Files.readText, Files.readText, hread]

/-- A file that can be read has the imports that its content says. -/
theorem contentImports_of_readFile (hp : index.package = c.package) (ht : index.tree = c.tree)
    {path : String} (hc : Canonical path) {content : ByteArray} {time : UInt64}
    (hn : m.node? (c.place path) = some (.file content time)) {imports : List Import}
    (hr : ImportIndex.readFile m index path = .ok imports) :
    c.contentImports path content = imports := by
  have hplace : (c.tree.root.join ⟨path⟩).resolved = c.place path := Path.resolved_join _ hc
  have hread : Files.read m (c.tree.root.join ⟨path⟩) = .ok content :=
    read_of_file (hplace.symm ▸ hn)
  rw [ImportIndex.readFile, hp, ht, Files.readText, hread] at hr
  rw [contentImports]
  cases hd : Text.Utf8.decode content with
  | error fault => simp [hd] at hr
  | ok text =>
      simp only [hd] at hr ⊢
      cases hs : Script.imports (c.tree.label ++ path) text with
      | ok forms => simpa [hs] using hr
      | error fault =>
          simp only [hs] at hr
          split at hr
          · exact Except.ok.inj hr
          · cases hr

theorem fileImports_of_readFile (hp : index.package = c.package) (ht : index.tree = c.tree)
    (hm : m.Named) {path : String} (hpath : path ∈ c.programs m) {imports : List Import}
    (hr : ImportIndex.readFile m index path = .ok imports) : c.fileImports m path = imports := by
  obtain ⟨content, time, hn, hc, -⟩ := file_of_mem_programs hm hpath
  rw [fileImports, if_pos hpath, hn]
  exact contentImports_of_readFile hp ht hc hn hr

/-! ## Lists -/

theorem flatMap_filter_isEmpty {α β : Type} (l : List α) (f : α → List β) :
    (l.filter fun a => !(f a).isEmpty).flatMap f = l.flatMap f := by
  induction l with
  | nil => rfl
  | cons a l ih =>
      by_cases h : f a = []
      · simp [h, ih]
      · simp [h, ih]

/-- The list of an index goes through the files that it has something for. -/
theorem list_eq_flatMap (h : ∀ path, index.perFile.get? path ≠ some []) {paths : List String}
    (ha : paths.Pairwise fun a b => compare a b = .lt)
    (hsub : ∀ path, index.known path ≠ [] → path ∈ paths) :
    index.list = paths.flatMap index.known := by
  have hkeys : index.perFile.keys = paths.filter fun path => !(index.known path).isEmpty := by
    refine eq_of_ascending index.perFile.keys_ascending (ha.sublist List.filter_sublist)
      fun path => ?_
    have hknown : path ∈ index.perFile.keys ↔ index.known path ≠ [] := by
      rw [← not_iff_not, ← Table.get?_eq_none_iff, not_not, ImportIndex.get?_eq_of_known h]
      simp
    rw [hknown, List.mem_filter, Bool.not_eq_true', List.isEmpty_eq_false_iff]
    exact ⟨fun hne => ⟨hsub path hne, hne⟩, fun hm => hm.2⟩
  rw [← flatMap_filter_isEmpty, ← hkeys, ImportIndex.list_eq_flatMap_keys]

theorem fileImports_of_not_mem {path : String} (h : path ∉ c.programs m) :
    c.fileImports m path = [] := if_neg h

/-- An index has the list from scratch exactly when it knows each file as it is. -/
theorem list_eq_scratch_iff (hm : m.Named) (ht : index.tree = c.tree)
    (h : ∀ path, index.perFile.get? path ≠ some []) (hs : index.Sited) :
    index.list = c.scratch m ↔ ∀ path, index.known path = c.fileImports m path := by
  have hascending := ascending_programs (c := c) hm
  constructor
  · intro he path
    have hsites : ∀ path, ∀ i ∈ c.fileImports m path, i.site.file = c.tree.label ++ path :=
      fun path i hi => congrArg ImportSite.file (site_of_mem_fileImports hi).1
    rw [hs.known_eq_filter, he, ht, scratch, ImportIndex.filter_flatMap_site hascending hsites]
    split
    · rfl
    · rename_i hnot
      exact (fileImports_of_not_mem hnot).symm
  · intro hk
    rw [list_eq_flatMap h hascending fun path hne => ?_, scratch, funext hk]
    by_contra hnot
    exact hne ((hk path).trans (fileImports_of_not_mem hnot))

end IndexScope

end VendorBundle
