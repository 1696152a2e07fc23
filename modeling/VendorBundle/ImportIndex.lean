import VendorBundle.Memo
import VendorBundle.Script.Imports
import VendorBundle.Tree.Patch

/-!
# The imports of a source tree

An index knows the imports of every file of a source tree and follows the tree by patches. Only
files that changed are read again, and the list over all files is made anew only when the imports
of a file differ from those it had.
-/

namespace VendorBundle

/-- Where the files of a package lie, and how they are labelled. -/
structure SourceTree where
  root : Path
  /-- What stands in front of the path of a file where it is reported. -/
  label : String := ""
  /-- The kind of code in the tree, which may decide on a bundle. -/
  kind : Option String := none
  deriving DecidableEq

/-- Why the imports of a tree cannot be told. -/
inductive AnalysisError where
  | unreadable (path : Path) (cause : FileError)
  | source (fault : SourceFault)
  deriving DecidableEq

namespace AnalysisError

def message : AnalysisError → String
  | unreadable path cause => "Failed to read '" ++ path.text ++ "': " ++ cause.message
  | source fault => fault.message

end AnalysisError

structure ImportIndex where
  package : Package
  tree : SourceTree
  snapshot : Snapshot := ∅
  /-- The imports of each file that has any. -/
  perFile : Table String (List Import) := ∅
  collected : Memo (Shared (List Import)) := {}
  /-- How often the imports of all files were collected. -/
  collections : Nat := 0

namespace ImportIndex

variable {σ : Type} [Files σ]

/-- The imports of a file of the tree. One that is no program has none. -/
def readFile (files : σ) (index : ImportIndex) (path : String) :
    Except AnalysisError (List Import) :=
  let file := index.tree.root.join ⟨path⟩
  let shown := index.tree.label ++ path
  match Files.readText files file with
  | .error (.notText _ fault) => .error (.source (.notText shown fault.message))
  | .error cause => .error (.unreadable file cause)
  | .ok source =>
      match Script.imports shown source with
      | .ok forms => .ok (forms.map (.ofForm ⟨shown, index.package, index.tree.kind⟩))
      | .error fault => if fault.isRecoverable then .ok [] else .error (.source fault)

/-- Sets the imports of a file. -/
def setFile (index : ImportIndex) (path : String) (imports : List Import) : ImportIndex :=
  if (index.perFile.get? path).getD [] = imports then index
  else
    { index with
      perFile :=
        if imports.isEmpty then index.perFile.erase path else index.perFile.insert path imports
      collected := index.collected.invalidate }

/-- The files of the package that a patch removes. -/
def removed (index : ImportIndex) (patch : Patch) : List String :=
  patch.filterMap fun
    | .unlink path => if index.package.matchesPath path then some path else none
    | _ => none

/-- The files of the package that a patch creates or changes. -/
def written (index : ImportIndex) (patch : Patch) : List String :=
  patch.filterMap fun
    | .create path _ | .change path _ => if index.package.matchesPath path then some path else none
    | _ => none

/-- Reads a file and takes its imports over. -/
def refresh (files : σ) (path : String) : Effect ImportIndex AnalysisError Unit := do
  let imports ← Files.look (readFile files · path)
  modify (setFile · path imports)

/-- Follows a patch of the tree. A file with a fault ends this; those before it are taken over. -/
def follow (files : σ) (patch : Patch) : Effect ImportIndex AnalysisError Unit := do
  modify fun index => (index.removed patch).foldl (setFile · · []) index
  ((← get).written patch).forM (refresh files)

/-- Brings the index to a new listing of the tree. The listing is taken over only when all of the
patch was followed, so a file with a fault comes up again. -/
def update (files : σ) (listing : List Entry) : Effect ImportIndex AnalysisError Unit := do
  let pending := (← get).snapshot.prepare listing
  follow files pending.patch
  modify fun index => { index with snapshot := index.snapshot.commit pending.entries }

/-- The imports of all files, in the order of their paths. It is the same result as long as no
file's imports change. -/
def imports (index : ImportIndex) : Shared (List Import) × ImportIndex :=
  let (shared, collected) := index.collected.get fun _ =>
    ⟨index.collections + 1, index.perFile.values.flatten⟩
  (shared, { index with
    collected
    collections := if index.collected.isStale then index.collections + 1 else index.collections })

end ImportIndex

end VendorBundle
