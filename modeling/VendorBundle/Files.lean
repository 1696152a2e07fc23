import VendorBundle.Path
import VendorBundle.Text.Utf8

/-!
# File systems

What the rest of the library asks of a file system, as a class over the type of its states. Reading
is a function of the state; an operation that writes is an `Effect`, which passes the state on also
when it fails, so that a failure in the middle of a longer run keeps what was written before it.
-/

namespace VendorBundle

/-- A computation over states `σ` that may fail with `ε`; the state survives a failure. -/
abbrev Effect (σ ε α : Type) := ExceptT ε (StateM σ) α

/-- What was tried when an operation failed. -/
inductive FileAction where
  | read
  | write
  | stat
  | createDir
  | removeFile
  | removeDir
  | readDir
  deriving DecidableEq, Repr

def FileAction.text : FileAction → String
  | .read => "read"
  | .write => "write"
  | .stat => "stat"
  | .createDir => "create directory"
  | .removeFile => "remove"
  | .removeDir => "remove directory"
  | .readDir => "read directory"

/-- Why a file operation failed. -/
inductive FileError where
  | notFound (path : Path)
  | notText (path : Path) (fault : Text.Utf8.Fault)
  | refused (action : FileAction) (path : Path) (reason : String)
  deriving DecidableEq, Repr

namespace FileError

def message : FileError → String
  | notFound path => s!"File not found: {path.text}"
  | notText path fault => s!"File is not valid UTF-8: {path.text}: {fault.message}"
  | refused action path reason => s!"I/O error: Failed to {action.text} {path.text}: {reason}"

def isNotFound : FileError → Bool
  | notFound _ => true
  | _ => false

end FileError

/-- What is known of a file or directory without reading it. -/
structure Metadata where
  size : UInt64
  isDir : Bool
  modified : Option UInt64
  deriving DecidableEq, Repr

namespace Metadata

/-- Every node is a directory or a file. -/
def isFile (m : Metadata) : Bool := !m.isDir

end Metadata

class Files (σ : Type) where
  /-- The directory that relative paths of a command line start from. -/
  cwd : σ → Path
  read : σ → Path → Except FileError ByteArray
  metadata : σ → Path → Except FileError Metadata
  /-- The names in a directory, in ascending order. -/
  names : σ → Path → Except FileError (List String)
  /-- No chain of nested directories is longer than this. -/
  depth : σ → Nat
  write : Path → ByteArray → Effect σ FileError Unit
  createDir : (recursive : Bool) → Path → Effect σ FileError Unit
  removeFile : Path → Effect σ FileError Unit
  removeDir : Path → Effect σ FileError Unit

namespace Files

variable {σ : Type} [Files σ]

def readText (files : σ) (path : Path) : Except FileError String :=
  match read files path with
  | .error e => .error e
  | .ok bytes =>
      match Text.Utf8.decode bytes with
      | .ok text => .ok text
      | .error fault => .error (.notText path fault)

def isFile (files : σ) (path : Path) : Bool :=
  match metadata files path with
  | .ok m => m.isFile
  | .error _ => false

def isDir (files : σ) (path : Path) : Bool :=
  match metadata files path with
  | .ok m => m.isDir
  | .error _ => false

def pathExists (files : σ) (path : Path) : Bool :=
  match metadata files path with
  | .ok _ => true
  | .error _ => false

/-- Uses the current state without changing it. -/
def look {ε α : Type} (f : σ → Except ε α) : Effect σ ε α := do
  match f (← get) with
  | .ok a => pure a
  | .error e => throw e

def copy (source target : Path) : Effect σ FileError Unit := do
  let bytes ← look (read · source)
  write target bytes

end Files

end VendorBundle
