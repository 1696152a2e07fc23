import VendorBundle.Proofs.Path.Clean
import VendorBundle.Proofs.Resolver.Precise
import VendorBundle.Proofs.Resolver.Sequence

/-!
# Entries inside their packages

What a specifier leads to lies in the directory of its package, as long as the entries of the
manifests lead inward and nothing goes up. The one way out is a path in the package that begins with
a slash: joined to the directory, it takes its place.
-/

namespace VendorBundle.Resolver

open Specifier (packageName?)

variable {σ : Type} [Files σ] {files : σ} {options : ResolveOptions} {root dir path file : Path}
  {specifier name : String} {subpath : Option String}

/-- What manifests hold in the main fields leads inward. -/
def InwardEntries (files : σ) (options : ResolveOptions) : Prop :=
  ∀ (dir : Path) (manifest : Manifest),
    Manifest.load files (dir.join "package.json") = .ok manifest →
      ∀ field ∈ options.mainFields, ∀ entry, manifest.entryField? field = some entry → Inward entry

/-- So they do when all that they hold is relative and has no dots as segments. -/
theorem inwardEntries_of_dotless (h : ∀ (dir : Path) (manifest : Manifest),
    Manifest.load files (dir.join "package.json") = .ok manifest →
      ∀ field ∈ options.mainFields, ∀ entry, manifest.entryField? field = some entry →
        Path.isAbsolute ⟨entry⟩ = false ∧ "." ∉ Text.split '/' entry ∧ NeverUp entry) :
    InwardEntries files options := by
  intro dir manifest hload field hfield entry hentry
  obtain ⟨hrel, hdot, hup⟩ := h dir manifest hload field hfield entry hentry
  refine inward_of_dotless ?_ hrel hdot hup
  rintro rfl
  exact absurd (Option.filter_eq_some_iff.mp hentry).2 (by decide)

/-- The path in the package, if there is one, does not begin with a slash. -/
def RelativeSubpath (specifier : String) : Prop :=
  ∀ name subpath, Specifier.ofText specifier = .package name (some subpath) →
    Path.isAbsolute ⟨subpath⟩ = false

/-! ## Candidates -/

/-- An extension does not lead out of the directory of a file. -/
theorem contains_of_mem_fileCandidates (hd : dir.text ≠ "") (hp : path.isAbsolute = false)
    (hf : file ∈ fileCandidates options (dir.join path)) : dir.contains file := by
  rw [fileCandidates] at hf
  rcases List.mem_cons.mp hf with rfl | hf
  · exact Path.contains_join hd hp
  · obtain ⟨extension, -, rfl⟩ := List.mem_map.mp hf
    exact Path.contains_extend_join hd hp extension

theorem contains_of_mem_dirSequence (hd : dir.Rooted) {entries : List String}
    (he : ∀ entry ∈ entries, Inward entry) (hf : file ∈ dirSequence options dir entries) :
    dir.contains file := by
  rw [dirSequence, List.mem_append, List.mem_flatMap] at hf
  rcases hf with ⟨entry, hentry, hf⟩ | hf
  · obtain ⟨above, name, hclean, hname, habove, hinside⟩ := hd.exists_clean_join (he entry hentry)
    rw [hclean] at hf
    refine Path.contains_trans hinside ?_
    rcases List.mem_append.mp hf with hf | hf
    · exact contains_of_mem_fileCandidates habove.text_ne hname.relative hf
    · have hjoin : (above.join ⟨name⟩).Rooted := habove.join hname.relative hname.neverUp
      exact Path.contains_trans (Path.contains_join habove.text_ne hname.relative)
        (contains_of_mem_fileCandidates hjoin.text_ne rfl hf)
  · exact contains_of_mem_fileCandidates hd.text_ne rfl hf

/-! ## Searches -/

theorem contains_of_findInDir (hd : dir.Rooted) (he : InwardEntries files options)
    (h : findInDir files options dir = .ok (some file)) : dir.contains file := by
  cases hfile : Files.isFile files (dir.join "package.json") with
  | false =>
      rw [findInDir_of_no_manifest hfile] at h
      exact contains_of_mem_dirSequence hd (by simp)
        (List.mem_of_find?_eq_some (Except.ok.inj h))
  | true =>
      cases hload : Manifest.load files (dir.join "package.json") with
      | error e =>
          rw [findInDir_of_error hfile hload] at h
          cases h
      | ok manifest =>
          rw [findInDir_of_load hfile hload] at h
          refine contains_of_mem_dirSequence hd (fun entry hentry => ?_)
            (List.mem_of_find?_eq_some (Except.ok.inj h))
          obtain ⟨field, hfield, hentry⟩ := List.mem_filterMap.mp hentry
          exact he dir manifest hload field hfield entry hentry

theorem contains_of_findLiteral (hd : dir.Rooted) (he : InwardEntries files options)
    (hs : ∀ text, subpath = some text → Path.isAbsolute ⟨text⟩ = false ∧ NeverUp text)
    (h : findLiteral files options dir subpath = .ok (some file)) : dir.contains file := by
  cases subpath with
  | none => exact contains_of_findInDir hd he h
  | some text =>
      obtain ⟨hrel, hup⟩ := hs text rfl
      simp only [findLiteral, findPath] at h
      cases hfile : findFile? files options (dir.join ⟨text⟩) with
      | some found =>
          rw [hfile] at h
          obtain rfl := Option.some.inj (Except.ok.inj h)
          exact contains_of_mem_fileCandidates hd.text_ne hrel (List.mem_of_find?_eq_some hfile)
      | none =>
          rw [hfile] at h
          simp only at h
          split at h
          · exact Path.contains_trans (Path.contains_join hd.text_ne hrel)
              (contains_of_findInDir (hd.join hrel hup) he h)
          · cases h

/-! ## Specifiers -/

theorem isAbsolute_of_not_isLocal {text rest : String}
    (h : Specifier.isLocal (text ++ rest).toList = false) : Path.isAbsolute ⟨text⟩ = false := by
  refine Bool.eq_false_iff.mpr fun habs => ?_
  obtain ⟨more, htext⟩ := Path.text_of_isAbsolute habs
  have hlocal : Specifier.isLocal (text ++ rest).toList :=
    Specifier.isLocal_iff.mpr (.inr (.inr ⟨more ++ rest.toList, by simp_all⟩))
  rw [h] at hlocal
  cases hlocal

/-- The parts of a specifier that never goes up never go up, and its name is relative. -/
theorem parts_of_neverUp (hs : Specifier.ofText specifier = .package name subpath)
    (h : NeverUp specifier) : (Path.isAbsolute ⟨name⟩ = false ∧ NeverUp name) ∧
      ∀ text, subpath = some text → NeverUp text := by
  obtain ⟨-, hlocal, -⟩ := Specifier.ofText_eq_package_iff.mp hs
  rcases Specifier.text_of_package hs with ⟨rfl, rfl⟩ | ⟨rfl, rfl⟩ | ⟨text, -, rfl, rfl⟩
  · have hbare : Specifier.isLocal (specifier ++ "").toList = false := by simpa using hlocal
    exact ⟨⟨isAbsolute_of_not_isLocal hbare, h⟩, by simp⟩
  · have hup : NeverUp (name ++ "/" ++ "") := by simpa using h
    exact ⟨⟨isAbsolute_of_not_isLocal hlocal, (neverUp_append.mp hup).1⟩, by simp⟩
  · rw [String.append_assoc] at hlocal
    obtain ⟨hname, htext⟩ := neverUp_append.mp h
    exact ⟨⟨isAbsolute_of_not_isLocal hlocal, hname⟩, by rintro _ ⟨rfl⟩; exact htext⟩

theorem rooted_of_packageDir? (hroot : root.Rooted) (hr : Path.isAbsolute ⟨name⟩ = false)
    (hup : NeverUp name) (h : packageDir? files root name = some dir) : dir.Rooted := by
  obtain ⟨above, habove, rfl⟩ := List.mem_map.mp (List.mem_of_find?_eq_some h)
  exact ((hroot.of_mem_ancestors habove).join rfl (by decide)).join hr hup

theorem isAbsolute_templateRest (name specifier : String) :
    Path.isAbsolute ⟨templateRest name specifier⟩ = false := by
  refine Bool.eq_false_iff.mpr fun habs => ?_
  obtain ⟨rest, hrest⟩ := Path.text_of_isAbsolute habs
  have hhead := List.head?_dropWhile_not (· == '/') (specifier.toList.drop name.length)
  rw [templateRest, String.toList_ofList] at hrest
  simp [hrest] at hhead

/-- A path that is found for a specifier lies in the directory of its package. -/
theorem contains_of_answer {template : Bool} (hroot : root.Rooted)
    (he : InwardEntries files options) (hup : NeverUp specifier)
    (hs : template = true ∨ RelativeSubpath specifier)
    (h : answer files options root specifier template = .ok (.external path)) :
    ∃ name dir, packageName? specifier = some name ∧ packageDir? files root name = some dir ∧
      dir.contains path := by
  obtain ⟨⟨name, subpath, hspecifier⟩, hprecise⟩ := searched_of_external h
  obtain ⟨⟨hrel, hname⟩, hsubpath⟩ := parts_of_neverUp hspecifier hup
  rw [answer_of_package hspecifier hprecise, search] at h
  cases hdir : packageDir? files root name with
  | none => simp [hdir] at h
  | some dir =>
      have hrooted := rooted_of_packageDir? hroot hrel hname hdir
      refine ⟨name, dir, Specifier.packageName?_of_ofText hspecifier, hdir, ?_⟩
      simp only [hdir] at h
      cases template with
      | true =>
          obtain rfl := Target.external.inj (Except.ok.inj h)
          exact Path.contains_join hrooted.text_ne (isAbsolute_templateRest name specifier)
      | false =>
          have hrelative := hs.resolve_left Bool.false_ne_true
          cases hfind : findLiteral files options dir subpath with
          | error e => simp [hfind] at h
          | ok found =>
              cases found with
              | none => simp [hfind] at h
              | some file =>
                  obtain rfl : file = path := by simpa [hfind] using h
                  refine contains_of_findLiteral hrooted he (fun text htext => ?_) hfind
                  subst htext
                  exact ⟨hrelative name text hspecifier, hsubpath text rfl⟩

/-! ## Staying inside -/

/-- Wherever the specifier leads, and whatever the resolver was asked before about the same files,
it leads into the directory of the package that is found, if the entries of the manifests lead
inward. -/
def StaysInside (specifier : String) (template : Bool) : Prop :=
  ∀ (m : Memory) (options : ResolveOptions) (r : Resolver) (root path : Path),
    Consulted m options r → root.Rooted → InwardEntries m options →
      (r.resolve m root specifier template).1 = .ok (.external path) →
        ∃ name dir, packageName? specifier = some name ∧ packageDir? m root name = some dir ∧
          dir.contains path

theorem staysInside_of_relative {template : Bool} (hup : NeverUp specifier)
    (hs : template = true ∨ RelativeSubpath specifier) : StaysInside specifier template := by
  intro m options r root path hr hroot he h
  -- A remembered path was found from a root of the same components.
  obtain ⟨⟨root', hsame, hfound⟩, -⟩ := hr.recalls.resolve root specifier template
  obtain ⟨name, dir', hname, hdir', hinside⟩ :=
    contains_of_answer (hroot.congr hsame) he hup hs (hfound.trans h)
  have hdirs := packageDir?_congr m hsame name
  rw [hdir', Option.map_some] at hdirs
  obtain ⟨dir, hdir, hcomponents⟩ := Option.map_eq_some_iff.mp hdirs.symm
  refine ⟨name, dir, hname, hdir, ?_⟩
  rwa [Path.contains, hcomponents]

/-! ## A way out -/

/-- There is a name that none of some paths goes through. -/
theorem exists_fresh_name (paths : List Path) :
    ∃ name, IsName name ∧ ∀ p ∈ paths, .name name ∉ p.components := by
  obtain ⟨name, hslash, hlong⟩ := Specifier.exists_longer
    (".." :: (paths.flatMap Path.components).map Path.Component.text)
  refine ⟨name, ⟨?_, ?_, ?_, hslash⟩, fun p hp hmem => ?_⟩
  case refine_4 =>
    have hlonger := hlong name <| List.mem_cons_of_mem _ <|
      List.mem_map.mpr ⟨_, List.mem_flatMap.mpr ⟨p, hp, hmem⟩, rfl⟩
    exact lt_irrefl _ hlonger
  all_goals
    have htwo : 2 < name.length := hlong ".." List.mem_cons_self
    rintro rfl
    exact absurd htwo (by decide)

/-- The directory of a package that is installed right below the root directory of a name. -/
def installedBelow (top name : String) : Path :=
  ((Path.join ⟨"/"⟩ ⟨top⟩).join "node_modules").join ⟨name⟩

theorem rooted_root {top : String} (ht : IsName top) : (Path.join ⟨"/"⟩ ⟨top⟩).Rooted :=
  Path.Rooted.join (by decide) ht.inward.relative ht.inward.neverUp

theorem rooted_installedBelow {top : String} (ht : IsName top)
    (hr : Path.isAbsolute ⟨name⟩ = false) (hup : NeverUp name) :
    (installedBelow top name).Rooted ∧ .name top ∈ (installedBelow top name).components := by
  have hmodules : ((Path.join ⟨"/"⟩ ⟨top⟩).join "node_modules").Rooted :=
    (rooted_root ht).join rfl (by decide)
  refine ⟨hmodules.join hr hup, ?_⟩
  have hbelow := Path.contains_trans (Path.contains_join (rooted_root ht).text_ne rfl)
    (Path.contains_join hmodules.text_ne hr)
  rw [Path.contains, List.isPrefixOf_iff_prefix] at hbelow
  refine hbelow.subset ?_
  rw [Path.components_join_of_relative (by decide) ht.inward.relative,
    Path.tailComponents_of_canonical ht.canonical, ht.split]
  simp

/-- A directory, and a file somewhere else. -/
def withFile (dir file : Path) : Memory :=
  ((Memory.empty ⟨"/"⟩).addDir dir).addFile file ByteArray.empty

theorem isFile_withFile (dir file : Path) : Files.isFile (withFile dir file) file := by
  rw [Memory.isFile_iff, withFile, Memory.node?_addFile, if_pos rfl]
  exact ⟨_, _, rfl⟩

theorem isDir_withFile {dir file : Path} (h : file.resolved ≠ dir.resolved) :
    Files.isDir (withFile dir file) dir := by
  have hempty : ((Memory.empty ⟨"/"⟩).node? dir.resolved).getD .dir = .dir := by
    rw [Memory.empty, Memory.node?_addDir]
    split <;> rfl
  rw [Memory.isDir_iff, withFile, Memory.node?_addFile, if_neg h, Memory.node?_addDir,
    if_pos List.prefix_rfl, hempty]
  split <;> rfl

/-- Only the extension `js` is tried, and no manifest decides. -/
def bare : ResolveOptions := { extensions := ["js"], mainFields := [] }

/-- A path in a package that begins with a slash leads to a file outside of it. -/
theorem not_staysInside_of_isAbsolute {text : String} (hup : NeverUp specifier)
    (hs : Specifier.ofText specifier = .package name (some text))
    (habs : Path.isAbsolute ⟨text⟩) : ¬ StaysInside specifier false := by
  intro h
  obtain ⟨⟨hrel, hname⟩, -⟩ := parts_of_neverUp hs hup
  -- The root has a name that no candidate goes through.
  obtain ⟨top, htop, hfresh⟩ := exists_fresh_name (fileCandidates bare ⟨text⟩)
  obtain ⟨hrooted, hmem⟩ := rooted_installedBelow htop hrel hname
  have hcandidate : Path.extend ⟨text⟩ ".js" ∈ fileCandidates bare ⟨text⟩ :=
    List.mem_cons_of_mem _ List.mem_cons_self
  have hplaces : (Path.extend ⟨text⟩ ".js").resolved ≠ (installedBelow top name).resolved := by
    intro heq
    exact hfresh _ hcandidate
      (Path.mem_components_of_mem_resolved (heq ▸ hrooted.mem_resolved hmem))
  let m := withFile (installedBelow top name) (Path.extend ⟨text⟩ ".js")
  have hnearest : Nearest m (Path.join ⟨"/"⟩ ⟨top⟩) name (installedBelow top name) :=
    ⟨isDir_withFile hplaces, [], _, _, rfl, rfl, by simp⟩
  obtain ⟨found, hfound⟩ : ∃ found, findFile? m bare ⟨text⟩ = some found :=
    Option.isSome_iff_exists.mp
      (List.find?_isSome.mpr ⟨_, hcandidate, isFile_withFile (installedBelow top name) _⟩)
  have hanswer : answer m bare (Path.join ⟨"/"⟩ ⟨top⟩) specifier false = .ok (.external found) := by
    rw [answer_literal hs hnearest, findLiteral, Path.join_of_isAbsolute habs, findPath, hfound]
  obtain ⟨name', dir, hname', hdir, hinside⟩ :=
    h m bare { options := bare } _ found .new (rooted_root htop) (by simp [InwardEntries, bare])
      hanswer
  obtain rfl : name = name' :=
    Option.some.inj ((Specifier.packageName?_of_ofText hs).symm.trans hname')
  obtain rfl : installedBelow top name = dir :=
    Option.some.inj ((packageDir?_eq_some_iff.mpr hnearest).symm.trans hdir)
  rw [Path.contains, List.isPrefixOf_iff_prefix] at hinside
  exact hfresh found (List.mem_of_find?_eq_some hfound) (hinside.subset hmem)

/-- A specifier that never goes up stays inside its package exactly when it is the leading text of a
template, or the path that it names in the package, if any, does not begin with a slash. -/
theorem staysInside_iff {template : Bool} (hup : NeverUp specifier) :
    StaysInside specifier template ↔ template = true ∨ RelativeSubpath specifier := by
  refine ⟨fun h => ?_, staysInside_of_relative hup⟩
  cases template with
  | true => exact .inl rfl
  | false =>
      refine .inr fun name text hs => Bool.eq_false_iff.mpr fun habs => ?_
      exact not_staysInside_of_isAbsolute hup hs habs h

/-! ## Without manifests -/

/-- Where no file has the name of a manifest, no manifest leads anywhere. -/
theorem inwardEntries_of_no_manifest {m : Memory}
    (h : ∀ key ∈ m.nodes.keys, key.getLast? ≠ some "package.json") : InwardEntries m options := by
  intro dir manifest hload
  obtain ⟨text, -, hread, -⟩ := Manifest.read_of_load hload
  cases hnode : m.node? (dir.join "package.json").resolved with
  | none => simp [Files.readText, Files.read, Memory.read, Memory.get?_eq, hnode] at hread
  | some node =>
      have hcanonical : Canonical "package.json" := by decide
      refine absurd ?_ (h _ (Table.mem_keys.mpr ⟨node, hnode⟩))
      rw [Path.resolved_join dir hcanonical]
      exact List.getLast?_append_of_ne_nil _ (by decide)

namespace Slashed

/-- A package, and a file outside of it that stands at the same path as one in the package. -/
def installed : Memory :=
  (((Memory.empty ⟨"/app"⟩).addFile ⟨"/app/node_modules/a/lib.js"⟩ ByteArray.empty).addFile
    ⟨"/app/node_modules/a/etc/x.js"⟩ ByteArray.empty).addFile ⟨"/etc/x.js"⟩ ByteArray.empty

theorem lib_staysInside :
    NeverUp "a/lib" ∧ StaysInside "a/lib" false ∧
      answer installed {} ⟨"/app"⟩ "a/lib" false =
        .ok (.external ⟨"/app/node_modules/a/lib.js"⟩) := by
  have hup : NeverUp "a/lib" := by decide
  have hs : Specifier.ofText "a/lib" = .package "a" (some "lib") := by decide +kernel
  refine ⟨hup, (staysInside_iff hup).mpr (.inr fun name text h => ?_), by decide +kernel⟩
  obtain ⟨rfl, rfl⟩ : "a" = name ∧ "lib" = text := by simpa [hs] using h
  decide

/-- A second slash after the name leads to the root. In a template it has no effect. -/
theorem etc_leaves_package :
    (∀ segment ∈ Text.split '/' "a//etc/x.js", segment ≠ "." ∧ segment ≠ "..") ∧
    Path.Rooted ⟨"/app"⟩ ∧ InwardEntries installed {} ∧
    packageDir? installed ⟨"/app"⟩ "a" = some ⟨"/app/node_modules/a"⟩ ∧
    answer installed {} ⟨"/app"⟩ "a//etc/x.js" true =
      .ok (.external ⟨"/app/node_modules/a/etc/x.js"⟩) ∧
    answer installed {} ⟨"/app"⟩ "a//etc/x.js" false = .ok (.external ⟨"/etc/x.js"⟩) ∧
    Path.contains ⟨"/app/node_modules/a"⟩ ⟨"/etc/x.js"⟩ = false ∧
    ¬ StaysInside "a//etc/x.js" false := by
  have hroot : Path.Rooted ⟨"/app"⟩ := by decide
  have he : InwardEntries installed {} := inwardEntries_of_no_manifest (by decide +kernel)
  have hdir : packageDir? installed ⟨"/app"⟩ "a" = some ⟨"/app/node_modules/a"⟩ := by
    decide +kernel
  have hliteral : answer installed {} ⟨"/app"⟩ "a//etc/x.js" false =
      .ok (.external ⟨"/etc/x.js"⟩) := by decide +kernel
  have houtside : Path.contains ⟨"/app/node_modules/a"⟩ ⟨"/etc/x.js"⟩ = false := by decide +kernel
  refine ⟨by decide +kernel, hroot, he, hdir, by decide +kernel, hliteral, houtside, fun h => ?_⟩
  obtain ⟨name, dir, hname, hdir', hinside⟩ := h installed {} { options := {} } _ _ .new hroot he
    hliteral
  obtain rfl : "a" = name := Option.some.inj (Eq.trans (by decide +kernel) hname)
  obtain rfl : ⟨"/app/node_modules/a"⟩ = dir := Option.some.inj (hdir.symm.trans hdir')
  rw [houtside] at hinside
  cases hinside

end Slashed

end VendorBundle.Resolver
