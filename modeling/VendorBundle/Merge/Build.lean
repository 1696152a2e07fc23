import VendorBundle.Merge.Overlay
import VendorBundle.Merge.Splice
import VendorBundle.Tree.Patch

/-!
# Merging generated files into build output

A merger keeps the listings of its last successful build. A build carries the changes of the build
output over to the result and makes those files anew whose own text or whose fragments changed.
-/

namespace VendorBundle

/-- Why a merge failed: outright, or while something was done to a path. -/
inductive MergeError where
  | listing (cause : FileError)
  | failed (action : FileAction) (path : Path) (cause : FileError)
  deriving DecidableEq

namespace MergeError

def message : MergeError → String
  | listing cause => cause.message
  | failed action path cause => s!"Failed to {action.text} '{path.text}': {cause.message}"

end MergeError

/-- What a build did to the result. -/
structure MergeSummary where
  /-- Files that were copied. -/
  written : Nat := 0
  /-- Files and directories that were removed. -/
  removed : Nat := 0
  /-- Files that were made of their text and fragments. -/
  regenerated : Nat := 0
  directoriesCreated : Nat := 0
  deriving DecidableEq, Repr

namespace MergeSummary

def isEmpty (s : MergeSummary) : Bool := s == {}

def add (a b : MergeSummary) : MergeSummary where
  written := a.written + b.written
  removed := a.removed + b.removed
  regenerated := a.regenerated + b.regenerated
  directoriesCreated := a.directoriesCreated + b.directoriesCreated

instance : Add MergeSummary := ⟨add⟩

/-- One file copied. -/
def copied : MergeSummary := { written := 1 }

/-- One file or directory removed. -/
def dropped : MergeSummary := { removed := 1 }

/-- One file made of its text and fragments. -/
def merged : MergeSummary := { regenerated := 1 }

/-- One directory created. -/
def created : MergeSummary := { directoriesCreated := 1 }

def message (s : MergeSummary) : String :=
  if s.isEmpty then "output up to date"
  else s!"{s.regenerated} merged, {s.written} copied, {s.removed} removed"

end MergeSummary

structure Merger where
  options : MergeOptions
  targets : Table String FragmentSource
  feeds : Feeds
  built : Snapshot := ∅
  generated : Snapshot := ∅

namespace Merger

def create (options : MergeOptions) : Merger where
  options
  targets := options.targets
  feeds := .ofTargets options.targets

variable {σ : Type} [Files σ]

abbrev MergeEffect (σ α : Type) := Effect σ MergeError α

/-! ## Files -/

/-- Tells what was done to which path when a file operation failed. -/
def tried {α : Type} (action : FileAction) (path : Path) (run : Effect σ FileError α) :
    MergeEffect σ α :=
  run.adapt (MergeError.failed action path)

/-- Writes a file, whose directory is created. -/
def writeFile (path : Path) (bytes : ByteArray) : MergeEffect σ Unit := do
  match path.parent? with
  | some parent => tried .createDir parent (Files.createDir true parent)
  | none => pure ()
  tried .write path (Files.write path bytes)

def copyFile (source target : Path) : MergeEffect σ Unit := do
  let bytes ← tried .read source (Files.look (Files.read · source))
  writeFile target bytes

/-- Removes a path of the result, which may be gone already. -/
def remove (path : Path) (isDir : Bool) : MergeEffect σ Unit := do
  let before ← get
  let action : Effect σ FileError Unit :=
    if isDir then Files.removeDir path else Files.removeFile path
  let (result, after) := action.run.run before
  set after
  match result with
  | .ok () => pure ()
  | .error e => if e.isNotFound then pure () else throw (.failed .removeFile path e)

/-! ## Making a file of its text and fragments -/

/-- The generated files of a directory with the extension, in the order of their names. -/
def fragmentNames (files : σ) (dir : Path) (extension : String) : Except FileError (List String) :=
  (Files.names files dir).map fun names => names.filter fun name =>
    extensionOf? name == some extension && Files.isFile files (dir.join ⟨name⟩)

def readFragment (dir : Path) (name : String) : MergeEffect σ String :=
  let file := dir.join ⟨name⟩
  tried .read file (Files.look (Files.readText · file))

/-- The fragments of a file. -/
def fragments (m : Merger) (source : FragmentSource) : MergeEffect σ (List String) := do
  let dir := m.options.generatedDir.join ⟨source.subdir⟩
  if Files.isDir (← get) dir then
    let names ← tried .readDir dir (Files.look (fragmentNames · dir source.extension))
    names.mapM (readFragment dir)
  else pure []

/-- Makes a file of the result anew. Without a file in the build output it is removed; without
fragments it is a copy. -/
def regenerate (m : Merger) (target : String) : MergeEffect σ MergeSummary := do
  let built := m.options.builtDir.join ⟨target⟩
  let output := m.options.outputDir.join ⟨target⟩
  if !Files.isFile (← get) built then
    remove output false
    pure .dropped
  else
    match m.targets.get? target with
    | none =>
        copyFile built output
        pure .copied
    | some source =>
        match ← m.fragments source with
        | [] =>
            copyFile built output
            pure .copied
        | fragments =>
            let text ← tried .read built (Files.look (Files.readText · built))
            writeFile output (splice text fragments (separatorFor source.extension)).toUTF8
            pure .merged

/-! ## Building -/

/-- The files whose fragments a patch of the generated tree changes. -/
def affected (m : Merger) (patch : Patch) : List String :=
  patch.flatMap fun op => m.feeds.targetsOf op.path

/-- A change of the build output settles the file it is about: it is gone or made anew. -/
def settles (m : Merger) : PatchOp → Option String
  | .unlink path => some path
  | .create path _ | .change path _ => if m.targets.contains path then some path else none
  | .rmdir _ | .mkdir _ => none

/-- The files that are left to make anew after a patch of the build output. -/
def remaining (m : Merger) (affected : List String) (patch : Patch) : List String :=
  let settled := patch.filterMap m.settles
  let left := affected.filter (!settled.contains ·)
  (Table.ofList (left.map (·, ()))).keys

/-- Carries one change over to the result. -/
def apply (m : Merger) (overlay : Overlay) (op : PatchOp) : MergeEffect σ MergeSummary := do
  let output := m.options.outputDir.join ⟨op.path⟩
  match op with
  | .unlink _ =>
      remove output false
      pure .dropped
  | .rmdir _ =>
      remove output true
      pure .dropped
  | .mkdir _ =>
      tried .createDir output (Files.createDir true output)
      pure .created
  | .create path _ | .change path _ =>
      if m.targets.contains path then m.regenerate path
      else
        match overlay.sources.get? path with
        | some source => copyFile (m.options.generatedDir.join ⟨source⟩) output
        | none => copyFile (m.options.builtDir.join ⟨path⟩) output
        pure .copied

/-- Runs a step for each item and adds up what was done. -/
def summed {α : Type} (step : α → MergeEffect σ MergeSummary) (items : List α) :
    MergeEffect σ MergeSummary :=
  items.foldlM (fun s a => do pure (s + (← step a))) {}

def listing (dir : Path) (options : ListOptions) : MergeEffect σ (List Entry) :=
  (Files.look (listTree · dir options)).adapt .listing

/-- Brings the result up to date. The new listings are kept only when all of it succeeded, so after
a failure the same changes are carried over once more. -/
def build (m : Merger) : MergeEffect σ (MergeSummary × Merger) := do
  let options := m.options
  let generatedListing ← listing options.generatedDir options.listOptions
  let builtListing ← listing options.builtDir options.listOptions
  tried .createDir options.outputDir (Files.createDir true options.outputDir)
  let overlay := Overlay.ofListing options.passthrough generatedListing
  let generated := m.generated.prepare generatedListing
  let built := m.built.prepare (builtListing ++ overlay.entries)
  let changes ← summed (m.apply overlay) built.patch
  let more ← summed m.regenerate (m.remaining (m.affected generated.patch) built.patch)
  pure (changes + more, { m with
    generated := m.generated.commit generated.entries
    built := m.built.commit built.entries })

end Merger

end VendorBundle
