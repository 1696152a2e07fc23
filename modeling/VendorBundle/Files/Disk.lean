import VendorBundle.Files.Memory

/-!
# A file system as the operating system shows it

The same tree of nodes as in memory, reached the way POSIX looks a path up: every directory on the
way has to be there, `..` leaves the directory it stands in, and a slash at the end asks for a
directory. Links and permissions are left out.
-/

namespace VendorBundle

structure Disk where
  cwd : Place
  nodes : Table Place Node
  clock : UInt64

/-- Why the operating system refuses a call. -/
inductive OsError where
  | noEntry
  | busy
  | alreadyThere
  | notDirectory
  | isDirectory
  | invalidArgument
  | nameTooLong
  | notEmpty
  | nulByte
  | noAncestor
  deriving DecidableEq, Repr

def OsError.text : OsError → String
  | noEntry => "No such file or directory (os error 2)"
  | busy => "Device or resource busy (os error 16)"
  | alreadyThere => "File exists (os error 17)"
  | notDirectory => "Not a directory (os error 20)"
  | isDirectory => "Is a directory (os error 21)"
  | invalidArgument => "Invalid argument (os error 22)"
  | nameTooLong => "File name too long (os error 36)"
  | notEmpty => "Directory not empty (os error 39)"
  | nulByte => "file name contained an unexpected NUL byte"
  | noAncestor => "failed to create whole tree"

/-- An absent file has an error of its own; the others say what was refused. -/
def OsError.onFile (action : FileAction) (path : Path) : OsError → FileError
  | noEntry => .notFound path
  | e => .refused action path e.text

namespace Disk

/-- A tree that holds the given directory and nothing else. -/
def empty (cwd : Path) : Disk :=
  { cwd := cwd.resolved, nodes := Memory.makeDirs ∅ cwd.resolved, clock := 1 }

def put (d : Disk) (place : Place) (content : ByteArray) : Disk :=
  { d with nodes := d.nodes.insert place (.file content d.clock), clock := d.clock + 1 }

def addDir (d : Disk) (place : Place) : Disk :=
  { d with nodes := Memory.makeDirs d.nodes place }

/-- Puts a file, after making the directories above it. -/
def addFile (d : Disk) (place : Place) (content : ByteArray) : Disk :=
  (d.addDir place.dropLast).put place content

/-- Takes away a place and everything below it. -/
def removeTree (d : Disk) (place : Place) : Disk :=
  { d with nodes := d.nodes.filter (fun key _ => !place.isPrefixOf key) }

def children (d : Disk) (place : Place) : List String :=
  d.nodes.keys.filterMap fun key =>
    if Memory.parent? key = some place then key.getLast? else none

/-! ## Looking paths up -/

/-- Where a path leads, and how its text ends. -/
structure Target where
  place : Place
  /-- The text ends with a slash. -/
  trailing : Bool
  /-- The last segment, unless the path is the root. -/
  last : Option String

/-- Follows the segments from `place`; only the last may lead to nothing. -/
def walk (d : Disk) (place : Place) : List String → Except OsError Place
  | [] => .ok place
  | segment :: rest =>
      match d.nodes.get? place with
      | none => .error .noEntry
      | some (.file ..) => .error .notDirectory
      | some .dir =>
          if segment = "." then d.walk place rest
          else if segment = ".." then d.walk place.dropLast rest
          else if segment.utf8ByteSize > 255 then .error .nameTooLong
          else d.walk (place ++ [segment]) rest

def target (d : Disk) (path : Path) : Except OsError Target :=
  if path.text.isEmpty then .error .noEntry
  else if path.text.toList.contains '\x00' then .error .nulByte
  else if path.text.utf8ByteSize ≥ 4096 then .error .nameTooLong
  else
    let segments := (Text.split '/' path.text).filter (!·.isEmpty)
    match d.walk (if path.isAbsolute then [] else d.cwd) segments with
    | .error e => .error e
    | .ok place => .ok ⟨place, path.text.toList.getLast? == some '/', segments.getLast?⟩

/-- The node a path leads to; a file is not found under a text that asks for a directory. -/
def lookup (d : Disk) (path : Path) : Except OsError (Place × Node) :=
  match d.target path with
  | .error e => .error e
  | .ok t =>
      match d.nodes.get? t.place with
      | none => .error .noEntry
      | some (.file c m) => if t.trailing then .error .notDirectory else .ok (t.place, .file c m)
      | some .dir => .ok (t.place, .dir)

def isDir (d : Disk) (path : Path) : Bool :=
  match d.lookup path with
  | .ok (_, .dir) => true
  | _ => false

/-! ## Reading -/

def read (d : Disk) (path : Path) : Except OsError ByteArray :=
  match d.lookup path with
  | .error e => .error e
  | .ok (_, .dir) => .error .isDirectory
  | .ok (_, .file content _) => .ok content

def metadata (d : Disk) (path : Path) : Except OsError Metadata :=
  match d.lookup path with
  | .error e => .error e
  | .ok (_, .dir) => .ok ⟨4096, true, some 0⟩
  | .ok (_, .file content modified) => .ok ⟨content.size.toUInt64, false, some modified⟩

def names (d : Disk) (path : Path) : Except OsError (List String) :=
  match d.lookup path with
  | .error e => .error e
  | .ok (_, .file ..) => .error .notDirectory
  | .ok (place, .dir) => .ok (d.children place)

/-! ## Writing -/

/-- The last segment names no new entry. -/
def Target.isDots (t : Target) : Bool :=
  t.last = none || t.last = some "." || t.last = some ".."

def write (d : Disk) (path : Path) (content : ByteArray) : Except OsError Disk :=
  match d.target path with
  | .error e => .error e
  | .ok t =>
      if t.trailing || t.isDots then .error .isDirectory
      else match d.nodes.get? t.place with
        | some .dir => .error .isDirectory
        | _ => .ok (d.put t.place content)

def makeDir (d : Disk) (path : Path) : Except OsError Disk :=
  match d.target path with
  | .error e => .error e
  | .ok t =>
      if t.isDots then .error .alreadyThere
      else match d.nodes.get? t.place with
        | some _ => .error .alreadyThere
        | none => .ok { d with nodes := d.nodes.insert t.place .dir }

/-- Makes the first of the paths, each of which lies below the next, with those it needs. -/
def makeDirsAlong (d : Disk) : List Path → Except OsError Unit × Disk
  | [] => (.error .noAncestor, d)
  | path :: rest =>
      if path.text.isEmpty then (.ok (), d)
      else match d.makeDir path with
        | .ok d => (.ok (), d)
        | .error .noEntry =>
            match d.makeDirsAlong rest with
            | (.error e, d) => (.error e, d)
            | (.ok (), d) =>
                match d.makeDir path with
                | .ok d => (.ok (), d)
                | .error e => if d.isDir path then (.ok (), d) else (.error e, d)
        | .error e => if d.isDir path then (.ok (), d) else (.error e, d)

def removeFile (d : Disk) (path : Path) : Except OsError Disk :=
  match d.target path with
  | .error e => .error e
  | .ok t =>
      if t.isDots then .error .isDirectory
      else match d.nodes.get? t.place with
        | none => .error .noEntry
        | some .dir => .error .isDirectory
        | some (.file ..) =>
            if t.trailing then .error .notDirectory
            else .ok { d with nodes := d.nodes.erase t.place }

def removeDir (d : Disk) (path : Path) : Except OsError Disk :=
  match d.target path with
  | .error e => .error e
  | .ok t =>
      if t.last = some "." then .error .invalidArgument
      else if t.last = some ".." then .error .notEmpty
      else match d.nodes.get? t.place with
        | none => .error .noEntry
        | some (.file ..) => .error .notDirectory
        | some .dir =>
            if t.place.isEmpty then .error .busy
            else if (d.children t.place).isEmpty then
              .ok { d with nodes := d.nodes.erase t.place }
            else .error .notEmpty

/-- Moves to the new state of a call that succeeds and stays in the old one otherwise. -/
def call (action : FileAction) (path : Path) (f : Disk → Except OsError Disk) :
    Effect Disk FileError Unit := do
  match f (← get) with
  | .ok d => set d
  | .error e => throw (e.onFile action path)

def createDir (recursive : Bool) (path : Path) : Effect Disk FileError Unit := do
  if recursive then
    let (result, d) := (← get).makeDirsAlong path.ancestors
    set d
    match result with
    | .ok () => pure ()
    | .error e => throw (e.onFile .createDir path)
  else call .createDir path (·.makeDir path)

instance : Files Disk where
  cwd d := Memory.pathOf d.cwd
  read d path := (d.read path).mapError (OsError.onFile .read path)
  metadata d path := (d.metadata path).mapError (OsError.onFile .stat path)
  names d path := (d.names path).mapError (OsError.onFile .readDir path)
  depth d := d.nodes.size
  write path content := call .write path (·.write path content)
  createDir := createDir
  removeFile path := call .removeFile path (·.removeFile path)
  removeDir path := call .removeDir path (·.removeDir path)

end Disk

end VendorBundle
