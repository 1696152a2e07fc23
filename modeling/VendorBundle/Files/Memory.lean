import VendorBundle.Files
import VendorBundle.Table

/-!
# A file system in memory

Nodes are kept under the names on the way from the root. Every write takes the next tick of a clock
as the time of modification, so two writes never share one.
-/

namespace VendorBundle

/-- What stands at a place. -/
inductive Node where
  | file (content : ByteArray) (modified : UInt64)
  | dir

instance : DecidableEq Node
  | .dir, .dir => .isTrue rfl
  | .dir, .file .. | .file .., .dir => .isFalse nofun
  | .file a m, .file b n =>
      decidable_of_iff (a.data = b.data ∧ m = n)
        ⟨fun ⟨h, h'⟩ => ByteArray.ext h ▸ h' ▸ rfl, fun h => by cases h; exact ⟨rfl, rfl⟩⟩

/-- The names on the way from the root to a place. -/
abbrev Place := List String

structure Memory where
  cwd : Place
  nodes : Table Place Node
  clock : UInt64

namespace Memory

/-- The absolute path of a place. -/
def pathOf (place : Place) : Path := ⟨"/" ++ "/".intercalate place⟩

/-- The place itself and the places above it, the root last. -/
def above : Place → List Place
  | [] => [[]]
  | name :: rest => (above rest).map (name :: ·) ++ [[]]

/-- The place without its last name. -/
def parent? (place : Place) : Option Place :=
  if place.isEmpty then none else some place.dropLast

/-- Makes directories of a place and of the places above it where there is nothing yet. -/
def makeDirs (nodes : Table Place Node) (place : Place) : Table Place Node :=
  (above place).foldl (fun nodes p => nodes.insertIfNew p .dir) nodes

def get? (m : Memory) (path : Path) : Option Node := m.nodes.get? path.resolved

/-- The names directly below a place. -/
def children (m : Memory) (place : Place) : List String :=
  m.nodes.keys.filterMap fun key =>
    if parent? key = some place then key.getLast? else none

/-! ## Setting up -/

def addDir (m : Memory) (path : Path) : Memory :=
  { m with nodes := makeDirs m.nodes path.resolved }

def empty (cwd : Path) : Memory :=
  addDir { cwd := cwd.resolved, nodes := ∅, clock := 1 } cwd

/-- Puts a file at a place, with the next tick as its time of modification. -/
def put (m : Memory) (place : Place) (content : ByteArray) : Memory :=
  { m with nodes := m.nodes.insert place (.file content m.clock), clock := m.clock + 1 }

/-- Puts a file, after making the directories above it. -/
def addFile (m : Memory) (path : Path) (content : ByteArray) : Memory :=
  let place := path.resolved
  match parent? place with
  | some above => put { m with nodes := makeDirs m.nodes above } place content
  | none => put m place content

/-- Takes away a place and everything below it. -/
def remove (m : Memory) (path : Path) : Memory :=
  { m with nodes := m.nodes.filter (fun key _ => !path.resolved.isPrefixOf key) }

/-! ## Reading -/

def read (m : Memory) (path : Path) : Except FileError ByteArray :=
  match m.get? path with
  | some (.file content _) => .ok content
  | some .dir => .error (.refused .read path "is a directory")
  | none => .error (.notFound path)

def metadata (m : Memory) (path : Path) : Except FileError Metadata :=
  match m.get? path with
  | some (.file content modified) => .ok ⟨content.size.toUInt64, false, some modified⟩
  | some .dir => .ok ⟨0, true, none⟩
  | none => .error (.notFound path)

def names (m : Memory) (path : Path) : Except FileError (List String) :=
  match m.get? path with
  | some .dir => .ok (m.children path.resolved)
  | _ => .error (.notFound path)

/-! ## Writing -/

/-- Something stands right above a place, or the place is the root. -/
def parentHolds (m : Memory) (place : Place) (test : Node → Bool) : Bool :=
  match parent? place with
  | some above => (m.nodes.get? above).any test
  | none => false

def write (m : Memory) (path : Path) (content : ByteArray) : Except FileError Memory :=
  if m.parentHolds path.resolved (· matches .dir) then .ok (m.put path.resolved content)
  else .error (.notFound path)

def createDir (m : Memory) (recursive : Bool) (path : Path) : Except FileError Memory :=
  if recursive || path.resolved.isEmpty || m.parentHolds path.resolved (fun _ => true) then
    .ok (m.addDir path)
  else .error (.notFound path)

def removeFile (m : Memory) (path : Path) : Except FileError Memory :=
  match m.get? path with
  | some (.file ..) => .ok { m with nodes := m.nodes.erase path.resolved }
  | some .dir => .error (.refused .removeFile path "is a directory")
  | none => .error (.notFound path)

def removeDir (m : Memory) (path : Path) : Except FileError Memory :=
  match m.get? path with
  | some .dir =>
      if (m.children path.resolved).isEmpty then
        .ok { m with nodes := m.nodes.erase path.resolved }
      else .error (.refused .removeDir path "not empty")
  | _ => .error (.notFound path)

/-- Moves to the new state of a step that succeeds and stays in the old one otherwise. -/
def step (f : Memory → Except FileError Memory) : Effect Memory FileError Unit := do
  match f (← get) with
  | .ok m => set m
  | .error e => throw e

instance : Files Memory where
  cwd m := pathOf m.cwd
  read := read
  metadata := metadata
  names := names
  depth m := m.nodes.size
  write path content := step (·.write path content)
  createDir recursive path := step (·.createDir recursive path)
  removeFile path := step (·.removeFile path)
  removeDir path := step (·.removeDir path)

end Memory

end VendorBundle
