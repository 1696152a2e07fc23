import VendorBundle.Command.Arguments
import VendorBundle.Command.Run
import VendorBundle.Duration
import VendorBundle.Files.Disk

/-!
# The command line

The files that a command can see are read first: the current directory, that of the project, and
the packages installed above them. The command then runs on them, and what it changed is written.
-/

namespace VendorBundle.Main

/-- Directories that nest deeper than this are passed over. -/
def depthLimit : Nat := 128

/-! ## Reading -/

/-- An entry of a directory with everything below it, the last place first. Links and what cannot
be read are passed over. -/
def nodes (place : Place) : Nat → IO.FS.DirEntry → IO (List (Place × Node))
  | 0, _ => pure []
  | depth + 1, entry =>
      try
        let place := place ++ [entry.fileName]
        let info ← entry.path.symlinkMetadata
        match info.type with
        | .dir =>
            let entries := (← entry.path.readDir).toList.mergeSort fun a b =>
              b.fileName ≤ a.fileName
            let below ← entries.mapM (nodes place depth)
            pure (below.flatten ++ [(place, .dir)])
        | .file =>
            let seconds := info.modified.sec.toNat * 1000000000 + info.modified.nsec.toNat
            pure [(place, .file (← IO.FS.readBinFile entry.path) seconds.toUInt64)]
        | _ => pure []
      catch _ => pure []

/-- Adds an entry of a directory to what was read. -/
def add (files : Disk) (dir : Path) (name : String) : IO Disk := do
  let below ← nodes dir.resolved depthLimit { root := ⟨dir.text⟩, fileName := name }
  pure (below.foldl
    (fun files (place, node) => { files with nodes := files.nodes.insert place node }) files)

/-- Adds a directory to what was read, with the packages installed above it. -/
def addProject (files : Disk) (dir : Path) : IO Disk := do
  let mut files := files
  for above in (dir.ancestors.drop 1).reverse do
    files := files.addDir above.resolved
    for name in ["package.json", "node_modules"] do
      files ← add files above name
  match dir.parent?, dir.fileName? with
  | some parent, some name => add files parent name
  | _, _ => pure files

/-- What a command in the current directory can see. -/
def load (options : ConfigOptions) : IO Disk := do
  let cwd : Path := ⟨(← IO.currentDir).toString⟩
  let files ← addProject (Disk.empty cwd) cwd
  match options.cwd with
  | none => pure files
  | some dir => addProject files (Path.ofComponents (cwd.join dir).clean.components)

/-! ## Writing -/

/-- A node that another one does not replace in place. -/
def isGone (node : Node) : Option Node → Bool
  | some (.file ..) => node = .dir
  | some .dir => node ≠ .dir
  | none => true

/-- Brings the directories on the disk from one state to another. -/
def store (old new : Disk) : IO Unit := do
  for (place, node) in old.nodes.entries.reverse do
    if isGone node (new.nodes.get? place) then
      let path := (Memory.pathOf place).text
      match node with
      | .dir => IO.FS.removeDir path
      | .file .. => IO.FS.removeFile path
  for (place, node) in new.nodes.entries do
    if old.nodes.get? place ≠ some node then
      let path := (Memory.pathOf place).text
      match node with
      | .dir => IO.FS.createDirAll path
      | .file content _ => IO.FS.writeBinFile path content

/-- The variables of the environment. -/
def environment : IO (List (String × String)) := do
  let bytes ← try IO.FS.readBinFile "/proc/self/environ" catch _ => pure .empty
  let entries := Text.pieces '\x00' (Text.Utf8.decodeLossy bytes).toList
  pure (entries.filterMap fun v =>
    (Text.cut? '=' v).map fun p => (String.ofList p.1, String.ofList p.2))

/-! ## Running -/

def usage : String :=
  "Usage: autodep [-v | -q] [--no-color] <COMMAND>\n\n"
    ++ "Commands:\n"
    ++ "  analyze  find imports and write the plan of bundles [-o FILE]\n"
    ++ "  append   merge generated files into build output\n"
    ++ "  build    analyze, then append [-o FILE]\n"
    ++ "  watch    build whenever files change [-o FILE] [--debounce MS] [--analyze-only]\n"
    ++ "  check    check the configuration [--fs] [--print]\n\n"
    ++ "Options of every command:\n"
    ++ "  -c, --config FILE  --cwd DIR  --concurrency N  --token-mode stat|content"

def report (e : CommandError) : IO Unit := do
  IO.eprintln ("Error: " ++ e.message?.getD "failed to load the configuration")
  match e.hint? with
  | some hint => IO.eprintln ("  help: " ++ hint)
  | none => pure ()

/-- Runs on files, writes what changed and prints what was said. -/
def perform {α : Type} (files : Disk) (run : Workspace.Run Disk α) :
    IO (Except CommandError α) := do
  let start ← IO.monoMsNow
  let (result, w) := run.run.run { files }
  store files w.files
  let time := Duration.render ⟨(← IO.monoMsNow) - start⟩
  w.printed.forM IO.print
  w.lines.forM fun line => IO.eprintln (line.text time)
  pure result

/-- The nodes whose changes start a build. -/
def watched (w : Workspace.Watch) (files : Disk) : List (Place × Node) :=
  files.nodes.entries.filter fun (place, _) => !w.ignores (Memory.pathOf place)

/-- Builds again whenever files change. -/
def follow (options : ConfigOptions) (watch : Workspace.Watch) (files : Disk) : IO Unit := do
  let mut watch := watch
  let mut seen := watched watch files
  repeat
    IO.sleep 200
    if watched watch (← load options) ≠ seen then
      IO.sleep watch.debounce.toNat.toUInt32
      let files ← load options
      seen := watched watch files
      match ← perform files (Workspace.rebuild watch.session) with
      | .ok session => watch := { watch with session }
      | .error e => IO.eprintln (Status.error.sign ++ " " ++ e.message?.getD "build failed")

def run (line : CommandLine) : IO UInt32 := do
  let options := line.command.options
  let files ← load options
  match ← perform files (Workspace.run (← environment) line.command) with
  | .error e =>
      report e
      pure 1
  | .ok none => pure 0
  | .ok (some watch) =>
      follow options watch (← load options)
      pure 0

end VendorBundle.Main

def main (args : List String) : IO UInt32 := do
  match VendorBundle.CommandLine.ofArguments args with
  | .ok line => VendorBundle.Main.run line
  | .error .help =>
      IO.println VendorBundle.Main.usage
      pure 0
  | .error .version =>
      IO.println "autodep 0.1.0"
      pure 0
  | .error _ =>
      IO.eprintln VendorBundle.Main.usage
      pure 2
