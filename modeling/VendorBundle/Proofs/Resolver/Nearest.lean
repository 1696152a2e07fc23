import VendorBundle.Proofs.Resolver.Consulted

/-!
# The version of an entry file

The version of an entry file is the one that the nearest manifest declares. So a package decides on
the version of its entry file unless another manifest stands between its directory and the file.
-/

namespace VendorBundle.Resolver

variable {σ : Type} [Files σ] {files : σ} {dir path : Path}

/-- The directory has a manifest that declares the version. -/
def Declares (files : σ) (dir : Path) (version : String) : Prop :=
  Files.isFile files (dir.join "package.json") ∧
    (Manifest.load files (dir.join "package.json")).toOption.bind (·.version) = some version

instance (dir : Path) (version : String) : Decidable (Declares files dir version) :=
  inferInstanceAs (Decidable (_ ∧ _))

/-- The path lies in the directory, and no other directory on the way to it has a manifest. -/
structure Governs (files : σ) (dir path : Path) : Prop where
  named : dir.components ≠ []
  contains : dir.contains path
  nearest : ∀ other : Path, dir.contains other → other.contains path →
    Files.isFile files (other.join "package.json") → other.components = dir.components

/-- A directory governs the files that stand in itself. -/
theorem governs_of_child (hm : ManifestsByPlace files) (hd : dir.components ≠ [])
    {c : Path.Component} (hc : path.components = dir.components ++ [c])
    (hn : Files.isFile files (path.join "package.json") = false) : Governs files dir path := by
  refine ⟨hd, ?_, fun other hinside houtside hfile => ?_⟩
  · rw [Path.contains, List.isPrefixOf_iff_prefix, hc]
    exact List.prefix_append _ _
  · rw [Path.contains, List.isPrefixOf_iff_prefix] at hinside houtside
    rw [hc] at houtside
    rcases List.prefix_concat_iff.mp houtside with hpath | hother
    · rw [hm.isFile _ _ (Path.join_congr (hpath.trans hc.symm) "package.json"), hn] at hfile
      exact absurd hfile Bool.false_ne_true
    · exact hother.eq_of_length_le hinside.length_le

/-- A directory that governs a path is the first on the way up that has a manifest. -/
theorem Governs.find? (hm : ManifestsByPlace files) (hg : Governs files dir path)
    (hfile : Files.isFile files (dir.join "package.json")) :
    ∃ a : Path, a.components = dir.components ∧
      (path.ancestors.map (·.join "package.json")).find? (Files.isFile files ·) =
        some (a.join "package.json") := by
  obtain ⟨a, ha, hac⟩ := Path.exists_mem_ancestors hg.named hg.contains
  obtain ⟨nearer, farther, hsplit⟩ := List.append_of_mem ha
  have hlonger : ∀ b ∈ nearer, a.components.length < b.components.length := by
    intro b hb
    have hpairs := Path.pairwise_ancestors path
    rw [hsplit, List.pairwise_append] at hpairs
    exact hpairs.2.2 b hb a List.mem_cons_self
  have hnone : ∀ b ∈ nearer, Files.isFile files (b.join "package.json") = false := by
    intro b hb
    have hcontains : b.contains path :=
      Path.contains_of_mem_ancestors (hsplit ▸ List.mem_append_left _ hb)
    have hlength := hlonger b hb
    have hinside : dir.contains b := by
      have hdir := hg.contains
      rw [Path.contains, List.isPrefixOf_iff_prefix] at hdir hcontains ⊢
      exact List.prefix_of_prefix_length_le hdir hcontains (by rw [← hac]; omega)
    refine Bool.eq_false_iff.mpr fun hfound => ?_
    have hsame := hg.nearest b hinside hcontains hfound
    rw [hac, hsame] at hlength
    omega
  refine ⟨a, hac, ?_⟩
  rw [hsplit, List.map_append, List.map_cons, List.find?_append, List.find?_eq_none.mpr,
    Option.none_or, List.find?_cons_of_pos]
  · rwa [hm.isFile _ _ (Path.join_congr hac "package.json")]
  · intro candidate hc
    obtain ⟨b, hb, rfl⟩ := List.mem_map.mp hc
    simp [hnone b hb]

/-- A path has the version of the directory that governs it. -/
theorem Declares.searchVersion_eq (hm : ManifestsByPlace files) {version : String}
    (hd : Declares files dir version) (hg : Governs files dir path) :
    searchVersion files path = .ok version := by
  obtain ⟨hfile, hdeclared⟩ := hd
  obtain ⟨a, hac, hfind⟩ := hg.find? hm hfile
  have hloads := hm.version _ _ (Path.join_congr hac "package.json").symm
  rw [searchVersion]
  simp only [hfind]
  cases hload : Manifest.load files (dir.join "package.json") with
  | error e => simp [hload, Except.toOption] at hdeclared
  | ok manifest =>
      obtain ⟨found, hfound, hsame⟩ := hloads.of_ok hload
      have hversion : manifest.version = some version := by
        simpa [hload, Except.toOption] using hdeclared
      rw [hfound, Except.map, ← hsame, hversion, Option.getD_some]

theorem ManifestsByPlace.versionsByPlace (hm : ManifestsByPlace files) : VersionsByPlace files :=
  fun _ _ => hm.searchVersion

end VendorBundle.Resolver
