import VendorBundle.Proofs.Index.Follow
import VendorBundle.Proofs.Memory.History
import VendorBundle.Proofs.Order
import VendorBundle.Proofs.Tree.Listing

/-!
# The list of all imports

Every import says which file it is of, so the list of the imports of all files tells what the index
knows of each file. The list that is handed out has a new stamp exactly when it is another list.
-/

namespace VendorBundle.ImportIndex

open Entry Memory

variable {σ : Type} [Files σ] {files files' : σ} {index index' : ImportIndex}
  {entries entries' : List Entry}

/-- The imports of all files, in the order of their paths. -/
def list (index : ImportIndex) : List Import := index.perFile.values.flatten

/-! ## Sites -/

theorem site_of_readFile {path : String} {imports : List Import}
    (h : readFile files index path = .ok imports) :
    ∀ i ∈ imports, i.site.file = index.tree.label ++ path := by
  rw [readFile] at h
  split at h
  · cases h
  · cases h
  · split at h
    · obtain rfl := Except.ok.inj h
      intro i hi
      obtain ⟨form, -, rfl⟩ := List.mem_map.mp hi
      cases form <;> rfl
    · split at h
      · obtain rfl := Except.ok.inj h
        exact fun i hi => absurd hi List.not_mem_nil
      · cases h

/-- What an index has for a file says that it is of this file. -/
def Sited (index : ImportIndex) : Prop :=
  ∀ path, ∀ i ∈ index.known path, i.site.file = index.tree.label ++ path

theorem Holds.sited (h : Holds files index entries) : index.Sited := by
  intro path
  by_cases hp : path ∈ index.programs entries
  · exact site_of_readFile (h.read path hp)
  · rw [h.other path hp]
    exact nofun

/-- The imports of one file among those of many files. -/
theorem filter_flatMap_site {label : String} {f : String → List Import} {paths : List String}
    (ha : paths.Pairwise fun a b => compare a b = .lt)
    (hs : ∀ path, ∀ i ∈ f path, i.site.file = label ++ path) (path : String) :
    (paths.flatMap f).filter (·.site.file = label ++ path) =
      if path ∈ paths then f path else [] := by
  induction paths with
  | nil => rfl
  | cons p paths ih =>
      obtain ⟨hlt, hrest⟩ := List.pairwise_cons.mp ha
      rw [List.flatMap_cons, List.filter_append, ih hrest]
      by_cases hp : path = p
      · subst hp
        have hnot : path ∉ paths := fun hm => ne_of_compare_lt (hlt path hm) rfl
        have hself : (f path).filter (·.site.file = label ++ path) = f path :=
          List.filter_eq_self.mpr fun i hi => by simp [hs path i hi]
        simp [hself, hnot]
      · have hnil : (f p).filter (·.site.file = label ++ path) = [] :=
          List.filter_eq_nil_iff.mpr fun i hi => by
            simp [hs p i hi, String.append_right_inj, Ne.symm hp]
        simp [hnil, hp]

theorem list_eq_flatMap_keys (index : ImportIndex) :
    index.list = index.perFile.keys.flatMap index.known := by
  rw [list, Table.values, Table.keys, List.flatMap_map, List.flatten_eq_flatMap, List.flatMap_map]
  refine List.flatMap_congr fun e he => ?_
  rw [known, Table.get?_eq_some_iff.mpr he]
  rfl

theorem known_of_not_mem_keys {path : String} (h : path ∉ index.perFile.keys) :
    index.known path = [] := by
  rw [known, Table.get?_eq_none_iff.mpr h]
  rfl

/-- The imports of a file are those of the whole list that say so. -/
theorem Sited.known_eq_filter (h : index.Sited) (path : String) :
    index.known path = index.list.filter (·.site.file = index.tree.label ++ path) := by
  rw [list_eq_flatMap_keys, filter_flatMap_site index.perFile.keys_ascending h]
  split
  · rfl
  · rename_i hnot
    exact known_of_not_mem_keys hnot

theorem get?_eq_of_known (h : ∀ path, index.perFile.get? path ≠ some []) (path : String) :
    index.perFile.get? path = if index.known path = [] then none else some (index.known path) := by
  rw [known]
  cases hg : index.perFile.get? path with
  | none => rfl
  | some imports =>
      have : imports ≠ [] := fun he => h path (he ▸ hg)
      simp [this]

/-- Indexes of trees with the same label have the same list exactly when they know the same. -/
theorem Holds.list_eq_iff (h : Holds files index entries) (h' : Holds files' index' entries')
    (hl : index.tree.label = index'.tree.label) :
    index.list = index'.list ↔ ∀ path, index.known path = index'.known path := by
  constructor
  · intro he path
    rw [h.sited.known_eq_filter, h'.sited.known_eq_filter, he, hl]
  · intro hk
    have htable : index.perFile = index'.perFile := Table.ext_get? fun path => by
      rw [get?_eq_of_known h.nonempty, get?_eq_of_known h'.nonempty, hk]
    rw [list, list, htable]

/-- Two indexes that know the imports of one listing have the same list. -/
theorem Holds.list_unique (h : Holds files index entries) (h' : Holds files index' entries)
    (hp : index.package = index'.package) (ht : index.tree = index'.tree) :
    index.list = index'.list := by
  refine (h.list_eq_iff h' (congrArg _ ht)).mpr fun path => ?_
  have hprograms : index.programs entries = index'.programs entries := by
    rw [programs, programs, hp]
  by_cases hm : path ∈ index.programs entries
  · have hread := h.read path hm
    rw [readFile_congr hp ht, h'.read path (hprograms ▸ hm)] at hread
    exact (Except.ok.inj hread).symm
  · rw [h.other path hm, h'.other path (hprograms ▸ hm)]

/-! ## Stamps -/

/-- The list was handed out, and has the stamp of the last collection. -/
def Collected (index : ImportIndex) : Prop :=
  index.collected = ⟨false, some ⟨index.collections, index.list⟩⟩

theorem Collected.imports (h : Collected index) :
    index.imports = (⟨index.collections, index.list⟩, index) := by
  obtain ⟨package, tree, snapshot, perFile, collected, collections⟩ := index
  have hc : collected = ⟨false, some ⟨collections, perFile.values.flatten⟩⟩ := h
  subst hc
  rfl

theorem imports_of_stale (h : index.collected.stale = true) : index.imports =
    (⟨index.collections + 1, index.list⟩, { index with
      collected := ⟨false, some ⟨index.collections + 1, index.list⟩⟩
      collections := index.collections + 1 }) := by
  obtain ⟨package, tree, snapshot, perFile, ⟨stale, value⟩, collections⟩ := index
  obtain rfl : stale = true := h
  rfl

/-- Handing the list out changes nothing of what is known. -/
theorem perFile_imports (index : ImportIndex) : index.imports.2.perFile = index.perFile := rfl

/-- What an update followed by handing out the list leads to. -/
structure Gathered (files : σ) (old : ImportIndex) (next : List Entry) (index : ImportIndex) :
    Prop where
  package : index.package = old.package
  tree : index.tree = old.tree
  snapshot : index.snapshot.entries = next
  holds : Holds files index next
  collected : Collected index

theorem Updated.gathered {old : ImportIndex} (h : Updated files old entries index)
    (hc : Collected old ∨ old.collected.stale = true) :
    Gathered files old entries index.imports.2 ∧
      index.imports.1 = ⟨index.imports.2.collections, index.imports.2.list⟩ := by
  by_cases hs : index.collected.stale = true
  · rw [imports_of_stale hs]
    exact ⟨⟨h.package, h.tree, h.snapshot, ⟨h.holds.read, h.holds.other, h.holds.nonempty⟩, rfl⟩, rfl⟩
  · rcases h.collected with ⟨hcollected, hperFile⟩ | ⟨hcollected, -⟩
    · rcases hc with hc | hc
      · have hkept : Collected index := by
          rw [Collected, hcollected, hc, h.collections, list, list, hperFile]
        rw [hkept.imports]
        exact ⟨⟨h.package, h.tree, h.snapshot, h.holds, hkept⟩, rfl⟩
      · exact absurd (hcollected ▸ hc) hs
    · exact absurd (by rw [hcollected]; rfl) hs

/-- The list is given a new stamp exactly when it is another list. -/
theorem Updated.stamp_eq_iff {old : ImportIndex} (h : Updated files old entries index)
    (hold : Holds files' old entries') (hc : Collected old) :
    index.imports.2.collections = old.collections ↔ index.imports.2.list = old.list := by
  rcases h.collected with ⟨hcollected, hperFile⟩ | ⟨hcollected, path, hne⟩
  · have hkept : Collected index := by
      rw [Collected, hcollected, hc, h.collections, list, list, hperFile]
    rw [hkept.imports, h.collections, list, list, hperFile]
    exact ⟨fun _ => rfl, fun _ => rfl⟩
  · have hstale : index.collected.stale = true := by rw [hcollected]; rfl
    rw [imports_of_stale hstale, h.collections]
    refine ⟨fun he => absurd he (Nat.succ_ne_self _), fun he => ?_⟩
    exact absurd (((hold.list_eq_iff h.holds (congrArg _ h.tree.symm)).mp he.symm) path) hne

/-! ## Edits -/

theorem tracks_create (files : σ) (package : Package) (tree : SourceTree) (next : List Entry) :
    Tracks files { package, tree } next :=
  ⟨nofun, fun _ _ => rfl, fun _ => nofun, .nil⟩

/-- Files whose place holds the same are read alike. -/
theorem readFile_of_node {m m' : Memory} {path : String}
    (h : m'.node? (index.tree.root.join ⟨path⟩).resolved =
      m.node? (index.tree.root.join ⟨path⟩).resolved) :
    readFile m' index path = readFile m index path := by
  have hread : Files.read m' (index.tree.root.join ⟨path⟩) =
      Files.read m (index.tree.root.join ⟨path⟩) := by
    simp only [Files.read, Memory.read, get?_eq, h]
  rw [readFile, readFile, Files.readText, Files.readText, hread]

/-- A file that is listed with the same time of modification after some edits has not changed. -/
theorem node?_eq_of_mem_listing {m m' : Memory} {root : Path} {options : ListOptions}
    (hmode : options.tokenMode = .stat) (hm : m.Named) (hm' : m'.Named)
    (hd : Dated (fun _ => True) m) (hs : Since (fun _ => True) m m') {e : Entry}
    (he : e ∈ m.listing root options) (he' : e ∈ m'.listing root options) (hk : e.kind = .file) :
    m'.node? (root.join ⟨e.path⟩).resolved = m.node? (root.join ⟨e.path⟩).resolved := by
  obtain ⟨node, hnode, hentry⟩ := node_of_mem_listing hm he
  obtain ⟨node', hnode', hentry'⟩ := node_of_mem_listing hm' he'
  rw [Path.resolved_join _ (canonical_listing hm _ _ e he), hnode, hnode']
  cases node with
  | dir => exact absurd (hentry ▸ hk) nofun
  | file content time =>
      cases node' with
      | dir => exact absurd (hentry' ▸ hk) nofun
      | file content' time' =>
          rw [hmode] at hentry hentry'
          obtain rfl := TokenMode.time_eq_of_stat
            (congrArg Entry.token (hentry.symm.trans hentry'))
          have hthere := hs.node?_of_same_time hd (UInt64.le_refl _) trivial trivial hnode hnode'
          exact hthere.symm.trans hnode

/-- So the programs that keep their times have been read as they are. -/
theorem Holds.tracks {m m' : Memory} {options : ListOptions} (hmode : options.tokenMode = .stat)
    (hm : m.Named) (hm' : m'.Named) (hd : Dated (fun _ => True) m)
    (hs : Since (fun _ => True) m m')
    (h : Holds m index (m.listing index.tree.root options))
    (hsnapshot : index.snapshot.entries = m.listing index.tree.root options) :
    Tracks m' index (m'.listing index.tree.root options) where
  read e he he' hp := by
    rw [hsnapshot] at he
    obtain ⟨x, hx, hk, hmatch, hpath⟩ := mem_programs.mp hp
    have hk : e.kind = .file :=
      (ascending_listing hm' _ _).eq_of_path hx he' hpath ▸ hk
    rw [readFile_of_node (node?_eq_of_mem_listing hmode hm hm' hd hs he he' hk)]
    exact h.read e.path (mem_programs.mpr ⟨e, he, hk, hmatch, rfl⟩)
  other path hp := h.other path (hsnapshot ▸ hp)
  nonempty := h.nonempty
  ascending := hsnapshot ▸ ascending_listing hm _ _

end VendorBundle.ImportIndex
