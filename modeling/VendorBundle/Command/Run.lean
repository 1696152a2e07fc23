import VendorBundle.Command.Session

/-!
# Running commands

A command works on files and reports what it does in status lines; only the configuration is
printed as output. What was reported before a failure stays.
-/

namespace VendorBundle

inductive Status where
  | success
  | info
  | warning
  | error
  deriving DecidableEq, Repr

def Status.sign : Status → String
  | success => "✓"
  | info => "ℹ"
  | warning => "⚠"
  | error => "✗"

/-- A line about the progress of a command. -/
structure StatusLine where
  status : Status
  message : String
  /-- The line tells how long the command took. -/
  timed : Bool := false
  deriving DecidableEq, Repr

/-- The line, where `time` stands for how long the command took. -/
def StatusLine.text (l : StatusLine) (time : String) : String :=
  l.status.sign ++ " " ++ l.message ++ (if l.timed then " in " ++ time else "")

/-- The files a command works on, and what it said. -/
structure Workspace (σ : Type) where
  files : σ
  printed : List String := []
  lines : List StatusLine := []

namespace Workspace

variable {σ : Type} [Files σ]

abbrev Run (σ α : Type) := Effect (Workspace σ) CommandError α

/-! ## Reporting -/

def say (status : Status) (message : String) : Run σ Unit :=
  modify fun w => { w with lines := w.lines ++ [⟨status, message, false⟩] }

/-- Reports success and how long it took. -/
def sayDone (message : String) : Run σ Unit :=
  modify fun w => { w with lines := w.lines ++ [⟨.success, message, true⟩] }

def print (text : String) : Run σ Unit :=
  modify fun w => { w with printed := w.printed ++ [text] }

/-! ## Working on the files -/

/-- Looks at the files. -/
def look {α : Type} (f : σ → Except CommandError α) : Run σ α := do
  match f (← get).files with
  | .ok a => pure a
  | .error e => throw e

/-- Works on the files. -/
def work {α : Type} (f : Effect σ CommandError α) : Run σ α := do
  let w ← get
  let (result, files) := f.run.run w.files
  set { w with files }
  match result with
  | .ok a => pure a
  | .error e => throw e

def sayPlan (outcome : BuildOutcome) : Run σ Unit :=
  outcome.plan.value.summary.forM (say .info)

/-! ## Commands -/

variable (environment : List (String × String))

def analyze (options : ConfigOptions) (out : Option Path) : Run σ Unit := do
  let loaded ← look fun files => options.load files environment out
  let session ← look fun files => Session.start files loaded.config false
  let (outcome, _) ← work session.analyze
  sayPlan outcome
  sayDone s!"Wrote {loaded.config.planFile.text}"

def append (options : ConfigOptions) : Run σ Unit := do
  let loaded ← look fun files => options.load files environment none
  let merger ← look fun _ => loaded.config.merger
  let (summary, _) ← work (ExceptT.adapt CommandError.merge merger.build)
  sayDone summary.message

def build (options : ConfigOptions) (out : Option Path) : Run σ Unit := do
  let loaded ← look fun files => options.load files environment out
  let merges := loaded.config.merge.isSome
  if !merges then say .warning "No [append] section; only writing the dependency snapshot"
  let session ← look fun files => Session.start files loaded.config merges
  let (outcome, session) ← work session.analyze
  sayPlan outcome
  match ← work session.merge with
  | (some summary, _) => say .info summary.message
  | (none, _) => pure ()
  sayDone "Built"

/-- Builds with a session and reports what is new. -/
def rebuild (session : Session) : Run σ Session := do
  let (outcome, session) ← work session.analyze
  if outcome.recomputed then sayPlan outcome
  let (summary, session) ← work session.merge
  match summary with
  | some summary => if summary.isEmpty then pure () else say .info summary.message
  | none => pure ()
  sayDone "Rebuilt"
  pure session

/-- A watch after its first build. -/
structure Watch where
  root : Path
  session : Session
  debounce : UInt64

/-- A path whose changes start no build: what builds write, and installed packages. -/
def Watch.ignores (w : Watch) (path : Path) : Bool :=
  let config := w.session.config
  let ignored := [config.planFile, w.root.join "node_modules"]
    ++ config.merge.toList.map (·.outputDir)
  ignored.any (·.contains path)

/-- The first build of a watch. -/
def startWatch (options : ConfigOptions) (out : Option Path) (debounce : Option UInt64)
    (analyzeOnly : Bool) : Run σ Watch := do
  let root ← look fun files => options.root files
  let loaded ← look fun files => options.load files environment out
  let merges := !analyzeOnly && loaded.config.merge.isSome
  let session ← look fun files => Session.start files loaded.config merges
  let session ← rebuild session
  say .info s!"Watching {root.text} (Ctrl+C to stop)"
  pure { root, session, debounce := debounce.getD loaded.config.general.debounce }

def check (options : ConfigOptions) (withFiles prints : Bool) : Run σ Unit := do
  say .info "Checking configuration..."
  let loaded ← look fun files => options.load files environment none
  match loaded.source with
  | some source => say .info s!"Using {source.path.text}"
  | none => say .warning "No configuration file found, using defaults"
  if withFiles then
    look fun files => (loaded.config.checkWithFiles files).mapError fun f => .config (.fault f)
  if prints then print (loaded.config.toToml ++ "\n")
  say .success "Configuration is valid"

/-- Runs a command; a watch that goes on is returned. -/
def run : Command → Run σ (Option Watch)
  | .analyze options out => do
      analyze environment options out
      pure none
  | .append options => do
      append environment options
      pure none
  | .build options out => do
      build environment options out
      pure none
  | .watch options out debounce analyzeOnly =>
      some <$> startWatch environment options out debounce analyzeOnly
  | .check options withFiles prints => do
      check environment options withFiles prints
      pure none

end Workspace

end VendorBundle
