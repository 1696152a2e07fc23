import VendorBundle.Command.Basic
import VendorBundle.Config.Load
import VendorBundle.Merge.Build
import VendorBundle.Pipeline

/-!
# Sessions

A session holds what a command works with: the configuration, the pipeline over its trees, and the
merger if there is something to merge. It is kept from one build to the next.
-/

namespace VendorBundle

/-- Why a command failed. -/
inductive CommandError where
  | config (error : ConfigError)
  | package (error : ResolveError)
  | build (error : BuildError)
  | writing (error : FileError)
  | merge (error : MergeError)
  | nothingToMerge
  | noDirectory (path : Path)
  deriving DecidableEq

namespace CommandError

def message? : CommandError → Option String
  | config e => e.message?.map ("Configuration error: " ++ ·)
  | package e => e.message?
  | build (.listing e) => some e.message
  | build (.analysis e) => some e.message
  | build (.split e) => e.message?
  | writing e => some e.message
  | merge e => some e.message
  | nothingToMerge => some "No [append] section in the configuration"
  | noDirectory path => some s!"Directory not found: {path.text}"

def resolveHint? : ResolveError → Option String
  | .entryNotFound .. =>
      some "Reinstall the package, adjust resolve.main_fields, or add it to package.exclude"
  | _ => none

def splitHint? : SplitError → Option String
  | .relativeDynamic .. | .relativeTemplate .. =>
      some "Only packages can be imported dynamically; import local modules statically"
  | .impreciseTemplate .. =>
      some "Start the template with the full package name, e.g. `lodash/$\x7bname\x7d`"
  | .versionConflict .. => some "Align both importers on one installed version of the package"
  | .unknownBundle .. => some "Declare the bundle in bundles.names"
  | .resolve e => resolveHint? e

/-- What can be done about it. -/
def hint? : CommandError → Option String
  | config e => e.hint?
  | package e => resolveHint? e
  | build (.split e) => splitHint? e
  | nothingToMerge =>
      some "Add [append] with upstream_dir, generated_dir, output_dir and mappings"
  | _ => none

end CommandError

/-! ## Starting -/

namespace ConfigOptions

variable {σ : Type} [Files σ] (files : σ)

/-- A path given on the command line, seen from the current directory. -/
def absolute (path : Path) : Path :=
  if path.isAbsolute then path else (Files.cwd files).join path

/-- The directory of the project, which has to be there. -/
def root (o : ConfigOptions) : Except CommandError Path :=
  let root := match o.cwd with
    | some dir => absolute files dir
    | none => Files.cwd files
  if Files.isDir files root then .ok root else .error (.noDirectory root)

/-- The configuration with the command line over it. -/
def load (o : ConfigOptions) (environment : List (String × String)) (out : Option Path) :
    Except CommandError LoadedConfig := do
  let loader : ConfigLoader := {
    root := ← o.root files
    file := o.config.map (absolute files)
    environment
    overrides := {
      maxConcurrency := o.concurrency
      tokenMode := o.tokenMode
      planFile := out.map (absolute files) } }
  (loader.load files).mapError .config

end ConfigOptions

namespace Config

/-- The package of a configuration. Without a manifest it is named after its directory. -/
def packageOf {σ : Type} [Files σ] (files : σ) (c : Config) : Except CommandError Package := do
  let root := c.package.root
  let package ←
    if Files.pathExists files (root.join "package.json") then
      (Package.load files root).mapError .package
    else pure { name := root.fileName?.getD "app", root }
  pure (c.applyTo package)

def pipeline (c : Config) (package : Package) : Pipeline :=
  let tree (t : Config.Tree) : Package × SourceTree :=
    (package, { root := t.root, label := t.label, kind := t.kind })
  Pipeline.create (c.trees.map tree) c.resolve c.listOptions c.policy

def merger (c : Config) : Except CommandError Merger :=
  match c.mergeOptions with
  | some options => .ok (Merger.create options)
  | none => .error .nothingToMerge

end Config

structure Session where
  config : Config
  pipeline : Pipeline
  merger : Option Merger

namespace Session

variable {σ : Type} [Files σ]

def start (files : σ) (config : Config) (merges : Bool) : Except CommandError Session := do
  let package ← config.packageOf files
  let merger ← if merges then some <$> config.merger else pure none
  pure { config, pipeline := config.pipeline package, merger }

/-! ## Building -/

/-- Builds the plan, and writes it unless it is written already. -/
def analyze (s : Session) : Effect σ CommandError (BuildOutcome × Session) := do
  match (Pipeline.build (← get)).run.run s.pipeline with
  | (.error e, _) => throw (.build e)
  | (.ok outcome, pipeline) =>
      let path := s.config.planFile
      if outcome.recomputed || !Files.pathExists (← get) path then
        ExceptT.adapt .writing (pipeline.writePlan path)
      pure (outcome, { s with pipeline })

/-- Merges, if there is something to merge. -/
def merge (s : Session) : Effect σ CommandError (Option MergeSummary × Session) := do
  match s.merger with
  | none => pure (none, s)
  | some merger =>
      let (summary, merger) ← ExceptT.adapt .merge merger.build
      pure (some summary, { s with merger := some merger })

end Session

end VendorBundle
