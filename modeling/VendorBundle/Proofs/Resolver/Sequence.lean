import VendorBundle.Proofs.Json.Overlay
import VendorBundle.Proofs.Resolver.Learning

/-!
# The search as one sequence

The file that a literal specifier leads to is the first that stands in one sequence of paths, which
is told in full by the manifest that the search looks into, if it looks into one. It looks into one
at most, and fails with what is wrong with it if it is not valid.
-/

namespace VendorBundle

/-! ## Manifests -/

namespace Manifest

/-- A member that is left out, null or a text, and not repeated. -/
def IsTextMember (key : String) (members : List (String × Json)) : Prop :=
  let values := (members.filter (·.1 == key)).map Prod.snd
  values = [] ∨ values = [.null] ∨ ∃ text, values = [.string text]

/-- The text of an object whose name and version, if there, are texts. -/
def WellFormed (text : String) : Prop :=
  ∃ members, Json.parse? text = some (.object members) ∧
    IsTextMember "name" members ∧ IsTextMember "version" members

variable {σ : Type} [Files σ]

/-- A manifest that is not too large, and is read as a well-formed text. -/
structure Valid (files : σ) (path : Path) : Prop where
  size : ∃ metadata, Files.metadata files path = .ok metadata ∧ metadata.size ≤ maxSize
  text : ∃ text, Files.readText files path = .ok text ∧ WellFormed text

/-- What is wrong with a manifest. It is invalid when it is too large or not well-formed; when it is
not read as a text, the file system says why. -/
inductive Fault (files : σ) (path : Path) : ResolveError → Prop where
  | tooLarge {metadata : Metadata} (found : Files.metadata files path = .ok metadata)
      (size : maxSize < metadata.size) : Fault files path (.manifestTooLarge path)
  | unread {metadata : Metadata} {e : FileError} (found : Files.metadata files path = .ok metadata)
      (size : metadata.size ≤ maxSize) (read : Files.readText files path = .error e) :
      Fault files path (.file e)
  | malformed {metadata : Metadata} {text : String}
      (found : Files.metadata files path = .ok metadata) (size : metadata.size ≤ maxSize)
      (read : Files.readText files path = .ok text) (form : ¬ WellFormed text) :
      Fault files path (.manifestMalformed path)

theorem exists_textMember_iff {key : String} {members : List (String × Json)} :
    (∃ value, textMember key members = some value) ↔ IsTextMember key members := by
  rw [IsTextMember]
  simp only [textMember]
  generalize members.filter (·.1 == key) = found
  cases found with
  | nil => simp
  | cons m rest =>
      obtain ⟨k, v⟩ := m
      cases rest with
      | nil => cases v <;> simp
      | cons next rest => simp

/-- A manifest is read from a text that is well-formed, and holds its members. -/
theorem wellFormed_iff {text : String} (path : Path) : WellFormed text ↔
    ∃ manifest, (Json.parse? text).bind (ofJson? path) = some manifest := by
  cases hjson : Json.parse? text with
  | none => simp [WellFormed, hjson]
  | some json =>
      cases json with
      | object members =>
          simp only [WellFormed, hjson, Option.some.injEq, Json.object.injEq, exists_eq_left',
            ← exists_textMember_iff, Option.bind_some, ofJson?]
          cases textMember "name" members with
          | none => simp
          | some name =>
              cases textMember "version" members with
              | none => simp
              | some version => simp
      | _ => simp [WellFormed, hjson, ofJson?]

variable {files : σ} {path : Path}

theorem load_of_size {metadata : Metadata} (hm : Files.metadata files path = .ok metadata)
    (hsize : metadata.size ≤ maxSize) : load files path = match Files.readText files path with
      | .error e => .error (.file e)
      | .ok text => match (Json.parse? text).bind (ofJson? path) with
        | some manifest => .ok manifest
        | none => .error (.manifestMalformed path) := by
  have hlarge : ¬ metadata.size > maxSize := by simpa using hsize
  simp only [load, hm, Except.mapError, bind, Except.bind, if_neg hlarge]
  cases Files.readText files path <;> rfl

theorem Valid.exists_load (h : Valid files path) : ∃ manifest, load files path = .ok manifest := by
  obtain ⟨⟨metadata, hm, hsize⟩, text, hread, hform⟩ := h
  obtain ⟨manifest, hmanifest⟩ := (wellFormed_iff path).mp hform
  exact ⟨manifest, by simp only [load_of_size hm hsize, hread, hmanifest]⟩

/-- Loading a file that is no valid manifest fails with what is wrong with it. -/
theorem exists_fault (hfile : Files.isFile files path) (h : ¬ Valid files path) :
    ∃ e, Fault files path e ∧ load files path = .error e := by
  cases hm : Files.metadata files path with
  | error e => simp [Files.isFile, hm] at hfile
  | ok metadata =>
      by_cases hlarge : maxSize < metadata.size
      · refine ⟨_, .tooLarge hm hlarge, ?_⟩
        simp only [load, hm, Except.mapError, bind, Except.bind]
        rw [if_pos hlarge]
      · have hsize : metadata.size ≤ maxSize := by simpa using hlarge
        rw [load_of_size hm hsize]
        cases hread : Files.readText files path with
        | error e => exact ⟨_, .unread hm hsize hread, rfl⟩
        | ok text =>
            have hform : ¬ WellFormed text := fun hform =>
              h ⟨⟨metadata, hm, hsize⟩, text, hread, hform⟩
            refine ⟨_, .malformed hm hsize hread hform, ?_⟩
            have hnone : (Json.parse? text).bind (ofJson? path) = none :=
              Option.not_isSome_iff_eq_none.mp fun hsome =>
                hform ((wellFormed_iff path).mpr (Option.isSome_iff_exists.mp hsome))
            simp only [hnone]

theorem valid_iff_isOk (hfile : Files.isFile files path) :
    Valid files path ↔ (load files path).isOk := by
  constructor
  · intro h
    obtain ⟨manifest, hload⟩ := h.exists_load
    rw [hload]
    rfl
  · intro hok
    by_contra h
    obtain ⟨e, -, hfails⟩ := exists_fault hfile h
    rw [hfails] at hok
    cases hok

theorem read_of_load {manifest : Manifest} (h : load files path = .ok manifest) :
    ∃ text members, Files.readText files path = .ok text ∧
      Json.parse? text = some (.object members) ∧
      manifest.fields = members.filter fun m => m.1 != "name" && m.1 != "version" := by
  cases hm : Files.metadata files path with
  | error e => simp [load, hm, Except.mapError, bind, Except.bind] at h
  | ok metadata =>
      by_cases hlarge : maxSize < metadata.size
      · simp [load, hm, Except.mapError, bind, Except.bind, hlarge] at h
      · rw [load_of_size hm (by simpa using hlarge)] at h
        cases hread : Files.readText files path with
        | error e => simp [hread] at h
        | ok text =>
            refine ⟨text, ?_⟩
            cases hjson : Json.parse? text with
            | none => simp [hread, hjson] at h
            | some json =>
                cases json with
                | object members =>
                    refine ⟨members, rfl, rfl, ?_⟩
                    simp only [hread, hjson, Option.bind_some, ofJson?] at h
                    cases hname : textMember "name" members with
                    | none => simp [hname] at h
                    | some name =>
                        cases hversion : textMember "version" members with
                        | none => simp [hname, hversion] at h
                        | some version =>
                            simp [hname, hversion] at h
                            rw [← h]
                | _ => simp [hread, hjson, ofJson?] at h

/-- The entry fields of a manifest are the members of its text, but for the name and the version. -/
theorem entryField?_of_load {manifest : Manifest} (h : load files path = .ok manifest)
    {field : String} (hname : field ≠ "name") (hversion : field ≠ "version") :
    manifest.entryField? field =
      (((Files.readText files path).toOption.bind Json.parse?).bind fun json =>
        (json.get? field).bind Json.string?).filter (· ≠ "") := by
  obtain ⟨text, members, hread, hjson, hfields⟩ := read_of_load h
  have hlookup : Json.lookup field manifest.fields = Json.lookup field members := by
    rw [hfields, ← List.filter_filter]
    simp only [bne]
    rw [Json.lookup_filter_ne, if_neg hname.symm, Json.lookup_filter_ne, if_neg hversion.symm]
  have hempty : (fun value : String => !value.isEmpty) = fun value => decide (value ≠ "") := by
    funext value
    rw [Bool.eq_iff_iff]
    simp
  rw [entryField?, hlookup, hread, hempty]
  simp only [Except.toOption, Option.bind_some, hjson, Json.get?]

end Manifest

namespace Resolver

variable {σ : Type} [Files σ] {files : σ} {options : ResolveOptions} {root dir path file : Path}
  {specifier name : String} {subpath : Option String}

/-! ## The sequence of a search -/

/-- What the main fields hold in the manifest of a directory, in the order of the fields: the texts
that are not empty. -/
def declaredEntries (files : σ) (options : ResolveOptions) (dir : Path) : List String :=
  if Files.isFile files (dir.join "package.json") then
    options.mainFields.filterMap fun field =>
      (((Files.readText files (dir.join "package.json")).toOption.bind Json.parse?).bind fun json =>
        (json.get? field).bind Json.string?).filter (· ≠ "")
  else []

/-- Where the entry of a directory is looked for: at each declared entry, cleaned, then at the index
below it, and last at the index of the directory, with all extensions every time. -/
def dirSequence (options : ResolveOptions) (dir : Path) (entries : List String) : List Path :=
  (entries.flatMap fun entry =>
    fileCandidates options (dir.join ⟨entry⟩).clean ++
      fileCandidates options ((dir.join ⟨entry⟩).clean.join "index")) ++
    fileCandidates options (dir.join "index")

/-- Where the file of a literal specifier is looked for in the directory of its package. -/
def sequence (files : σ) (options : ResolveOptions) (dir : Path) : Option String → List Path
  | none => dirSequence options dir (declaredEntries files options dir)
  | some subpath =>
      let path := dir.join ⟨subpath⟩
      fileCandidates options path ++
        if Files.isDir files path then
          dirSequence options path (declaredEntries files options path)
        else []

/-- The directory whose entry is asked for: the one of the package, or one in it when the subpath
leads to no file. -/
def searchedDir? (files : σ) (options : ResolveOptions) (dir : Path) : Option String → Option Path
  | none => some dir
  | some subpath =>
      let path := dir.join ⟨subpath⟩
      if (∃ p ∈ fileCandidates options path, Files.isFile files p) then none
      else if Files.isDir files path then some path else none

/-- The manifest that a search looks into, if it looks into one. -/
def consulted? (files : σ) (options : ResolveOptions) (dir : Path) (subpath : Option String) :
    Option Path :=
  ((searchedDir? files options dir subpath).map (·.join "package.json")).filter
    (Files.isFile files ·)

/-- A file that stands at the first place of a sequence where one does. -/
def FirstFile (files : σ) (sequence : List Path) (file : Path) : Prop :=
  ∃ before after, sequence = before ++ file :: after ∧ Files.isFile files file ∧
    ∀ p ∈ before, Files.isFile files p = false

theorem find?_eq_some_iff_firstFile {sequence : List Path} :
    sequence.find? (Files.isFile files ·) = some file ↔ FirstFile files sequence file := by
  rw [List.find?_eq_some_iff_append, FirstFile]
  constructor
  · rintro ⟨hfile, before, after, hsplit, hbefore⟩
    exact ⟨before, after, hsplit, hfile, fun p hp => by simpa using hbefore p hp⟩
  · rintro ⟨before, after, hsplit, hfile, hbefore⟩
    exact ⟨hfile, before, after, hsplit, fun p hp => by simpa using hbefore p hp⟩

theorem findDeclared?_eq (files : σ) (options : ResolveOptions) (dir : Path) (entry : String) :
    findDeclared? files options dir entry =
      (fileCandidates options (dir.join ⟨entry⟩).clean ++
        fileCandidates options ((dir.join ⟨entry⟩).clean.join "index")).find?
          (Files.isFile files ·) := by
  rw [List.find?_append]
  rfl

theorem findSome?_findDeclared? (files : σ) (options : ResolveOptions) (dir : Path)
    (entries : List String) :
    (entries.findSome? (findDeclared? files options dir)).or
        (findFile? files options (dir.join "index")) =
      (dirSequence options dir entries).find? (Files.isFile files ·) := by
  rw [dirSequence, List.find?_append, List.find?_flatMap]
  simp only [← findDeclared?_eq]
  rfl

/-! ## What a search finds -/

theorem findInDir_of_no_manifest (h : Files.isFile files (dir.join "package.json") = false) :
    findInDir files options dir =
      .ok ((dirSequence options dir []).find? (Files.isFile files ·)) := by
  rw [← findSome?_findDeclared?]
  simp only [findInDir, h, Bool.false_eq_true, if_false]
  rfl

theorem findInDir_of_load {manifest : Manifest} (h : Files.isFile files (dir.join "package.json"))
    (hload : Manifest.load files (dir.join "package.json") = .ok manifest) :
    findInDir files options dir = .ok ((dirSequence options dir
      (options.mainFields.filterMap manifest.entryField?)).find? (Files.isFile files ·)) := by
  rw [← findSome?_findDeclared?]
  simp only [findInDir, h, if_true, hload]
  rfl

theorem findInDir_of_error {e : ResolveError} (h : Files.isFile files (dir.join "package.json"))
    (hload : Manifest.load files (dir.join "package.json") = .error e) :
    findInDir files options dir = .error e := by
  simp only [findInDir, h, if_true, hload]
  rfl

/-- Main fields are entry fields when they are not the name or the version of the package. -/
def EntryFields (options : ResolveOptions) : Prop :=
  ∀ field ∈ options.mainFields, field ≠ "name" ∧ field ≠ "version"

instance (options : ResolveOptions) : Decidable (EntryFields options) :=
  inferInstanceAs (Decidable (∀ _ ∈ _, _))

/-- A directory whose manifest is valid, if it has one, is searched through its sequence. -/
theorem findInDir_of_valid (ho : EntryFields options)
    (h : Files.isFile files (dir.join "package.json") →
      Manifest.Valid files (dir.join "package.json")) :
    findInDir files options dir =
      .ok ((dirSequence options dir (declaredEntries files options dir)).find?
        (Files.isFile files ·)) := by
  rw [declaredEntries]
  cases hfile : Files.isFile files (dir.join "package.json") with
  | false => rw [if_neg Bool.false_ne_true, findInDir_of_no_manifest hfile]
  | true =>
      obtain ⟨manifest, hload⟩ := (h hfile).exists_load
      rw [if_pos rfl, findInDir_of_load hfile hload]
      have hentries : options.mainFields.filterMap manifest.entryField? =
          options.mainFields.filterMap fun field =>
            (((Files.readText files (dir.join "package.json")).toOption.bind Json.parse?).bind
              fun json => (json.get? field).bind Json.string?).filter (· ≠ "") :=
        List.filterMap_congr fun field hfield =>
          Manifest.entryField?_of_load hload (ho field hfield).1 (ho field hfield).2
      rw [hentries]

theorem findFile?_eq_none_iff : findFile? files options path = none ↔
    ¬ ∃ p ∈ fileCandidates options path, Files.isFile files p := by
  rw [findFile?, List.find?_eq_none]
  simp

/-- A search that looks into no manifest that is not valid finds the first file of its sequence. -/
theorem findLiteral_of_valid (ho : EntryFields options)
    (h : ∀ path, consulted? files options dir subpath = some path → Manifest.Valid files path) :
    findLiteral files options dir subpath =
      .ok ((sequence files options dir subpath).find? (Files.isFile files ·)) := by
  have hvalid : ∀ d, searchedDir? files options dir subpath = some d →
      Files.isFile files (d.join "package.json") →
        Manifest.Valid files (d.join "package.json") := by
    intro d hd hfile
    exact h _ (by rw [consulted?, hd, Option.map_some, Option.filter_some, if_pos hfile])
  cases subpath with
  | none => exact findInDir_of_valid ho (hvalid dir rfl)
  | some subpath =>
      simp only [findLiteral, findPath, sequence, List.find?_append]
      cases hfile : findFile? files options (dir.join ⟨subpath⟩) with
      | some file =>
          rw [findFile?] at hfile
          simp only [hfile, Option.some_or]
      | none =>
          have hnone := findFile?_eq_none_iff.mp hfile
          rw [findFile?] at hfile
          simp only [hfile, Option.none_or]
          cases hdir : Files.isDir files (dir.join ⟨subpath⟩) with
          | false => rfl
          | true =>
              refine findInDir_of_valid ho (hvalid _ ?_)
              simp only [searchedDir?]
              rw [if_neg hnone, if_pos hdir]

/-- A search that looks into a manifest that is not valid fails with what is wrong with it. -/
theorem findLiteral_of_not_valid {path : Path}
    (hc : consulted? files options dir subpath = some path) (h : ¬ Manifest.Valid files path) :
    ∃ e, Manifest.Fault files path e ∧ findLiteral files options dir subpath = .error e := by
  obtain ⟨hmap, hfile⟩ := Option.filter_eq_some_iff.mp hc
  obtain ⟨d, hd, rfl⟩ := Option.map_eq_some_iff.mp hmap
  obtain ⟨e, hfault, hload⟩ := Manifest.exists_fault hfile h
  refine ⟨e, hfault, ?_⟩
  cases subpath with
  | none =>
      obtain rfl := Option.some.inj hd
      exact findInDir_of_error hfile hload
  | some subpath =>
      simp only [searchedDir?] at hd
      split at hd
      · cases hd
      · rename_i hnone
        split at hd
        · rename_i hdir
          obtain rfl := Option.some.inj hd
          simp only [findLiteral, findPath, findFile?_eq_none_iff.mpr hnone, hdir, if_true]
          exact findInDir_of_error hfile hload
        · cases hd

/-! ## Where a literal leads -/

/-- The directory of the package that belongs to the nearest directory, at or above the root, that
has one. -/
structure Nearest (files : σ) (root : Path) (name : String) (dir : Path) : Prop where
  isDir : Files.isDir files dir
  first : ∃ nearer above farther, root.ancestors = nearer ++ above :: farther ∧
    dir = (above.join "node_modules").join ⟨name⟩ ∧
    ∀ b ∈ nearer, Files.isDir files ((b.join "node_modules").join ⟨name⟩) = false

theorem packageDir?_eq_some_iff : packageDir? files root name = some dir ↔
    Nearest files root name dir := by
  rw [packageDir?, List.find?_map, Option.map_eq_some_iff]
  constructor
  · rintro ⟨above, hfind, rfl⟩
    obtain ⟨hdir, nearer, farther, hsplit, hnearer⟩ := List.find?_eq_some_iff_append.mp hfind
    exact ⟨hdir, nearer, above, farther, hsplit, rfl, fun b hb => by simpa using hnearer b hb⟩
  · rintro ⟨hdir, nearer, above, farther, hsplit, rfl, hnearer⟩
    refine ⟨above, List.find?_eq_some_iff_append.mpr ⟨hdir, nearer, farther, hsplit, ?_⟩, rfl⟩
    exact fun b hb => by simpa using hnearer b hb

theorem packageDir?_eq_none_iff : packageDir? files root name = none ↔
    ∀ above ∈ root.ancestors,
      Files.isDir files ((above.join "node_modules").join ⟨name⟩) = false := by
  simp [packageDir?]

theorem answer_literal (hs : Specifier.ofText specifier = .package name subpath)
    (hd : Nearest files root name dir) : answer files options root specifier false =
      match findLiteral files options dir subpath with
      | .error e => .error e
      | .ok (some file) => .ok (.external file)
      | .ok none => .error (.entryNotFound specifier dir root) := by
  rw [answer_of_package hs rfl, search, packageDir?_eq_some_iff.mpr hd]
  rfl

/-- For a resolver without memory a literal specifier leads to a package that is not installed
exactly when no directory at or above the root has one. Otherwise, if the manifest that is looked
into is valid, it leads to the first file of its sequence, and to an error that there is none
exactly when no path of the sequence is a file. A manifest that is not valid fails with what is
wrong with it. -/
theorem literal_first_file (ho : EntryFields options)
    (hs : Specifier.ofText specifier = .package name subpath) :
    (answer files options root specifier false = .ok .notInstalled ↔
      ∀ above ∈ root.ancestors,
        Files.isDir files ((above.join "node_modules").join ⟨name⟩) = false) ∧
    ∀ dir, Nearest files root name dir →
      ((∀ path, consulted? files options dir subpath = some path → Manifest.Valid files path) →
        (∀ file, answer files options root specifier false = .ok (.external file) ↔
          FirstFile files (sequence files options dir subpath) file) ∧
        (answer files options root specifier false = .error (.entryNotFound specifier dir root) ↔
          ∀ p ∈ sequence files options dir subpath, Files.isFile files p = false)) ∧
      ∀ path, consulted? files options dir subpath = some path → ¬ Manifest.Valid files path →
        ∃ e, Manifest.Fault files path e ∧
          answer files options root specifier false = .error e := by
  refine ⟨?_, fun dir hd => ⟨fun hvalid => ?_, fun path hc hinvalid => ?_⟩⟩
  · rw [← packageDir?_eq_none_iff, answer_of_package hs rfl, search]
    cases packageDir? files root name with
    | none => simp
    | some dir =>
        simp only [Bool.false_eq_true, if_false, reduceCtorEq, iff_false]
        cases findLiteral files options dir subpath with
        | error e => simp
        | ok found => cases found <;> simp
  · rw [answer_literal hs hd, findLiteral_of_valid ho hvalid]
    simp only [← find?_eq_some_iff_firstFile]
    cases hfind : (sequence files options dir subpath).find? (Files.isFile files ·) with
    | none =>
        refine ⟨fun file => by simp, ⟨fun _ p hp => ?_, fun _ => rfl⟩⟩
        simpa using List.find?_eq_none.mp hfind p hp
    | some found =>
        refine ⟨fun file => by simp, ⟨fun h => (nomatch h), fun hnone => ?_⟩⟩
        have hfile := hnone found (List.mem_of_find?_eq_some hfind)
        exact absurd (List.find?_some hfind) (by simp [hfile])
  · obtain ⟨e, hfault, hfails⟩ := findLiteral_of_not_valid hc hinvalid
    exact ⟨e, hfault, by rw [answer_literal hs hd, hfails]⟩

namespace Declared

/-- A package whose manifest names two entries, the second of them without its extension. -/
def installed : Memory :=
  (((Memory.empty ⟨"/app"⟩).addFile ⟨"/app/node_modules/dual/package.json"⟩
    "\x7b\"main\":\"lib.js\",\"module\":\"es/index\"\x7d".toUTF8).addFile
    ⟨"/app/node_modules/dual/lib.js"⟩ ByteArray.empty).addFile
    ⟨"/app/node_modules/dual/es/index.mjs"⟩ ByteArray.empty

/-- The field that comes first among the main fields decides, and an extension completes it. -/
theorem module_before_main :
    EntryFields {} ∧ Specifier.ofText "dual" = .package "dual" none ∧
    Nearest installed ⟨"/app"⟩ "dual" ⟨"/app/node_modules/dual"⟩ ∧
    consulted? installed {} ⟨"/app/node_modules/dual"⟩ none =
      some ⟨"/app/node_modules/dual/package.json"⟩ ∧
    Manifest.Valid installed ⟨"/app/node_modules/dual/package.json"⟩ ∧
    answer installed {} ⟨"/app"⟩ "dual" false =
      .ok (.external ⟨"/app/node_modules/dual/es/index.mjs"⟩) := by
  -- One evaluation of the file system serves for all that is asked about it.
  obtain ⟨ho, hs, hdir, hc, hmanifest, hok, hfind⟩ : EntryFields {} ∧
      Specifier.ofText "dual" = .package "dual" none ∧
      packageDir? installed ⟨"/app"⟩ "dual" = some ⟨"/app/node_modules/dual"⟩ ∧
      consulted? installed {} ⟨"/app/node_modules/dual"⟩ none =
        some ⟨"/app/node_modules/dual/package.json"⟩ ∧
      Files.isFile installed ⟨"/app/node_modules/dual/package.json"⟩ ∧
      (Manifest.load installed ⟨"/app/node_modules/dual/package.json"⟩).isOk ∧
      (sequence installed {} ⟨"/app/node_modules/dual"⟩ none).find? (Files.isFile installed ·) =
        some ⟨"/app/node_modules/dual/es/index.mjs"⟩ := by
    decide +kernel
  have hd := packageDir?_eq_some_iff.mp hdir
  have hvalid := (Manifest.valid_iff_isOk hmanifest).mpr hok
  have hfirst := find?_eq_some_iff_firstFile.mp hfind
  refine ⟨ho, hs, hd, hc, hvalid, ?_⟩
  refine ((((literal_first_file ho hs).2 _ hd).1 fun path hpath => ?_).1 _).mpr hfirst
  obtain rfl := Option.some.inj (hc.symm.trans hpath)
  exact hvalid

/-- One package whose manifest has its entry as the version, and one whose manifest is no text. -/
def misread : Memory :=
  (((Memory.empty ⟨"/app"⟩).addFile ⟨"/app/node_modules/p/package.json"⟩
    "\x7b\"version\":\"lib.js\"\x7d".toUTF8).addFile
    ⟨"/app/node_modules/p/lib.js"⟩ ByteArray.empty).addFile
    ⟨"/app/node_modules/q/package.json"⟩ ⟨#[255]⟩

/-- Only the version is a main field. -/
def byVersion : ResolveOptions := { extensions := [], mainFields := ["version"] }

theorem version_misread :
    Nearest misread ⟨"/app"⟩ "p" ⟨"/app/node_modules/p"⟩ ∧
    Manifest.Valid misread ⟨"/app/node_modules/p/package.json"⟩ ∧
    FirstFile misread (sequence misread byVersion ⟨"/app/node_modules/p"⟩ none)
      ⟨"/app/node_modules/p/lib.js"⟩ ∧
    answer misread byVersion ⟨"/app"⟩ "p" false =
      .error (.entryNotFound "p" ⟨"/app/node_modules/p"⟩ ⟨"/app"⟩) := by
  obtain ⟨hdir, hmanifest, hok, hfind, hanswer⟩ :
      packageDir? misread ⟨"/app"⟩ "p" = some ⟨"/app/node_modules/p"⟩ ∧
      Files.isFile misread ⟨"/app/node_modules/p/package.json"⟩ ∧
      (Manifest.load misread ⟨"/app/node_modules/p/package.json"⟩).isOk ∧
      (sequence misread byVersion ⟨"/app/node_modules/p"⟩ none).find? (Files.isFile misread ·) =
        some ⟨"/app/node_modules/p/lib.js"⟩ ∧
      answer misread byVersion ⟨"/app"⟩ "p" false =
        .error (.entryNotFound "p" ⟨"/app/node_modules/p"⟩ ⟨"/app"⟩) := by
    decide +kernel
  exact ⟨packageDir?_eq_some_iff.mp hdir, (Manifest.valid_iff_isOk hmanifest).mpr hok,
    find?_eq_some_iff_firstFile.mp hfind, hanswer⟩

theorem bytes_misread :
    Nearest misread ⟨"/app"⟩ "q" ⟨"/app/node_modules/q"⟩ ∧
    consulted? misread byVersion ⟨"/app/node_modules/q"⟩ none =
      some ⟨"/app/node_modules/q/package.json"⟩ ∧
    ¬ Manifest.Valid misread ⟨"/app/node_modules/q/package.json"⟩ ∧
    answer misread byVersion ⟨"/app"⟩ "q" false =
      .error (.file (.notText ⟨"/app/node_modules/q/package.json"⟩ ⟨0, some 1⟩)) := by
  obtain ⟨hdir, hc, hmanifest, hfails, hanswer⟩ :
      packageDir? misread ⟨"/app"⟩ "q" = some ⟨"/app/node_modules/q"⟩ ∧
      consulted? misread byVersion ⟨"/app/node_modules/q"⟩ none =
        some ⟨"/app/node_modules/q/package.json"⟩ ∧
      Files.isFile misread ⟨"/app/node_modules/q/package.json"⟩ ∧
      ¬ (Manifest.load misread ⟨"/app/node_modules/q/package.json"⟩).isOk ∧
      answer misread byVersion ⟨"/app"⟩ "q" false =
        .error (.file (.notText ⟨"/app/node_modules/q/package.json"⟩ ⟨0, some 1⟩)) := by
    decide +kernel
  exact ⟨packageDir?_eq_some_iff.mp hdir, hc, mt (Manifest.valid_iff_isOk hmanifest).mp hfails,
    hanswer⟩

/-- The version of a package is never taken for an entry field, though the sequence has its text. A
manifest that is no text is not reported as an invalid one. -/
theorem version_and_bytes_misread :
    (Nearest misread ⟨"/app"⟩ "p" ⟨"/app/node_modules/p"⟩ ∧
      Manifest.Valid misread ⟨"/app/node_modules/p/package.json"⟩ ∧
      FirstFile misread (sequence misread byVersion ⟨"/app/node_modules/p"⟩ none)
        ⟨"/app/node_modules/p/lib.js"⟩ ∧
      answer misread byVersion ⟨"/app"⟩ "p" false =
        .error (.entryNotFound "p" ⟨"/app/node_modules/p"⟩ ⟨"/app"⟩)) ∧
    (Nearest misread ⟨"/app"⟩ "q" ⟨"/app/node_modules/q"⟩ ∧
      consulted? misread byVersion ⟨"/app/node_modules/q"⟩ none =
        some ⟨"/app/node_modules/q/package.json"⟩ ∧
      ¬ Manifest.Valid misread ⟨"/app/node_modules/q/package.json"⟩ ∧
      answer misread byVersion ⟨"/app"⟩ "q" false =
        .error (.file (.notText ⟨"/app/node_modules/q/package.json"⟩ ⟨0, some 1⟩))) :=
  ⟨version_misread, bytes_misread⟩

end Declared

end Resolver

end VendorBundle
