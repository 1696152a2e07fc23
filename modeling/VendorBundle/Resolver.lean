import VendorBundle.Manifest
import VendorBundle.Specifier

/-!
# Resolving package specifiers

A package is looked for in the `node_modules` of a directory and of the directories above it. Its
entry is found through the manifest fields in their order, then as `index`; every candidate is
tried as it stands and then with each extension. The resolver remembers the targets and versions it
found, but not that a package was missing.
-/

namespace VendorBundle

structure ResolveOptions where
  /-- Tried in order, without the leading dot. -/
  extensions : List String := ["js", "mjs", "cjs", "json"]
  /-- Manifest fields that name an entry, in order. -/
  mainFields : List String := ["browser", "module", "main"]
  deriving DecidableEq, Repr, Inhabited

instance : JsonForm ResolveOptions where
  toJson o :=
    .object [("extensions", toJson o.extensions), ("mainFields", toJson o.mainFields)]
  ofJson? v := do
    let r ← Record.ofJson? 2 v
    let default : ResolveOptions := {}
    pure {
      extensions := ← r.withDefault 0 "extensions" default.extensions
      mainFields := ← r.withDefault 1 "mainFields" default.mainFields }

/-- Where a specifier points. -/
inductive Target where
  | url
  /-- Relative to the importing file. -/
  | localPath (path : Path)
  /-- The leading text of a template that names no whole package. -/
  | imprecise
  | notInstalled
  /-- A file of a package, or for a template a path in its directory. -/
  | external (path : Path)
  deriving DecidableEq, Repr

namespace Resolver

variable {σ : Type} [Files σ]

/-! ## Searching -/

/-- The directory of a package, seen from `root`. -/
def packageDir? (files : σ) (root : Path) (name : String) : Option Path :=
  (root.ancestors.map fun dir => (dir.join "node_modules").join ⟨name⟩).find?
    (Files.isDir files ·)

/-- The paths a file may stand at: as given, then with each extension. -/
def fileCandidates (options : ResolveOptions) (path : Path) : List Path :=
  path :: options.extensions.map fun extension => path.extend ("." ++ extension)

def findFile? (files : σ) (options : ResolveOptions) (path : Path) : Option Path :=
  (fileCandidates options path).find? (Files.isFile files ·)

/-- The file that an entry field leads to, directly or as the `index` of a directory. -/
def findDeclared? (files : σ) (options : ResolveOptions) (dir : Path) (entry : String) :
    Option Path :=
  let candidate := (dir.join ⟨entry⟩).clean
  (findFile? files options candidate).or (findFile? files options (candidate.join "index"))

/-- The entry of a directory: through its manifest, then `index`. -/
def findInDir (files : σ) (options : ResolveOptions) (dir : Path) :
    Except ResolveError (Option Path) := do
  let manifestPath := dir.join "package.json"
  let declared ←
    if Files.isFile files manifestPath then do
      let manifest ← Manifest.load files manifestPath
      pure ((options.mainFields.filterMap manifest.entryField?).findSome?
        (findDeclared? files options dir))
    else pure none
  pure (declared.or (findFile? files options (dir.join "index")))

/-- A file, or the entry of a directory. -/
def findPath (files : σ) (options : ResolveOptions) (path : Path) :
    Except ResolveError (Option Path) :=
  match findFile? files options path with
  | some file => .ok (some file)
  | none => if Files.isDir files path then findInDir files options path else .ok none

/-- The file that a literal specifier names in the directory of its package. -/
def findLiteral (files : σ) (options : ResolveOptions) (dir : Path) :
    Option String → Except ResolveError (Option Path)
  | none => findInDir files options dir
  | some subpath => findPath files options (dir.join ⟨subpath⟩)

/-- What follows the package name of a template, without the slashes in front. -/
def templateRest (name specifier : String) : String :=
  String.ofList ((specifier.toList.drop name.length).dropWhile (· == '/'))

/-- Where a package specifier points, searched for afresh. -/
def search (files : σ) (options : ResolveOptions) (root : Path) (specifier name : String)
    (subpath : Option String) (template : Bool) : Except ResolveError Target :=
  match packageDir? files root name with
  | none => .ok .notInstalled
  | some dir =>
      if template then .ok (.external (dir.join ⟨templateRest name specifier⟩))
      else
        match findLiteral files options dir subpath with
        | .error e => .error e
        | .ok (some file) => .ok (.external file)
        | .ok none => .error (.entryNotFound specifier dir root)

def unknownVersion : String := "unknown"

/-- The version declared by the nearest manifest at or above a path. -/
def searchVersion (files : σ) (entrypoint : Path) : Except ResolveError String :=
  let manifests := entrypoint.ancestors.map (·.join "package.json")
  match manifests.find? (Files.isFile files ·) with
  | none => .ok unknownVersion
  | some path => (Manifest.load files path).map (·.version.getD unknownVersion)

end Resolver

/-! ## Remembering -/

/-- What a remembered target belongs to; paths with the same components are one. -/
abbrev Resolver.Key := List Path.Component × String × Bool

/-- A resolver with what it has found so far. -/
structure Resolver where
  options : ResolveOptions
  targets : List (Resolver.Key × Target) := []
  versions : List (List Path.Component × String) := []

namespace Resolver

variable {σ : Type} [Files σ]

/-- Remembers a target unless the package was missing: a later install has to be noticed. -/
def remember (r : Resolver) (key : Key) : Target → Resolver
  | .notInstalled => r
  | target => { r with targets := (key, target) :: r.targets }

/-- Where a specifier points, seen from the package at `root`. Of a `template` the specifier is the
leading text, and only its package is looked for. -/
def resolve (r : Resolver) (files : σ) (root : Path) (specifier : String) (template : Bool) :
    Except ResolveError Target × Resolver :=
  match Specifier.ofText specifier with
  | .url => (.ok .url, r)
  | .localPath => (.ok (.localPath ⟨specifier⟩), r)
  | .package name subpath =>
      if template && !Specifier.isPrecise specifier then (.ok .imprecise, r)
      else
        let key := (root.components, specifier, template)
        match r.targets.lookup key with
        | some target => (.ok target, r)
        | none =>
            match search files r.options root specifier name subpath template with
            | .error e => (.error e, r)
            | .ok target => (.ok target, r.remember key target)

def versionOf (r : Resolver) (files : σ) (entrypoint : Path) :
    Except ResolveError String × Resolver :=
  match r.versions.lookup entrypoint.components with
  | some version => (.ok version, r)
  | none =>
      match searchVersion files entrypoint with
      | .error e => (.error e, r)
      | .ok version =>
          (.ok version, { r with versions := (entrypoint.components, version) :: r.versions })

end Resolver

end VendorBundle
