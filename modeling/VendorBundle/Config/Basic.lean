import VendorBundle.Bundle.Policy
import VendorBundle.Merge.Options
import VendorBundle.Package

/-!
# Configurations

A configuration names a package with its source trees, the bundles its imports are split into, and
what is merged into which build output. Relative paths are meant relative to the project, those of
the trees to the package.
-/

namespace VendorBundle

structure Config.Owner where
  /-- Without a name, that of the manifest is taken. -/
  name : Option String := none
  root : Path := "."
  fileExtensions : Option (List String) := none
  aliases : Table String String := ∅
  exclude : List String := []
  deriving DecidableEq

structure Config.Tree where
  root : Path
  /-- What stands in front of the paths of files. -/
  label : String := ""
  kind : Option String := none
  deriving DecidableEq

structure Config.Bundles where
  names : List String := BundlePolicy.standard.names
  default : String := BundlePolicy.standard.defaultBundle
  rules : List BundleRule := []
  treeKinds : Table String String := ∅
  deriving DecidableEq

/-- The bundles of a configuration that says nothing about them. -/
def Config.Bundles.standard : Config.Bundles := { rules := [⟨"tests/", "tests"⟩] }

structure Config.Merge where
  builtDir : Path
  generatedDir : Path
  outputDir : Path
  mappings : Table String (Table String String) := ∅
  passthrough : Table String String := ∅
  deriving DecidableEq

structure Config.General where
  maxConcurrency : Option UInt64 := none
  tokenMode : TokenMode := .stat
  ignore : Option (List String) := none
  logLevel : Option String := none
  /-- How long a watch waits for further changes, in milliseconds. -/
  debounce : UInt64 := 0
  deriving DecidableEq

structure Config where
  package : Config.Owner := {}
  trees : List Config.Tree := [⟨"app", "app/", some "app"⟩, ⟨"tests", "tests/", some "tests"⟩]
  resolve : ResolveOptions := {}
  bundles : Config.Bundles := .standard
  merge : Option Config.Merge := none
  /-- Where the plan of bundles is written. -/
  planFile : Path := "dist/autodep-deps.json"
  general : Config.General := {}
  deriving DecidableEq

namespace Config

/-! ## Paths -/

/-- A path seen from a directory, where a dot is the directory itself. -/
def seenFrom (base path : Path) : Path :=
  if path.isAbsolute then path else if path.same "." then base else base.join path

/-- The configuration with its paths seen from the root of the project. -/
def resolvePaths (c : Config) (root : Path) : Config :=
  let packageRoot := seenFrom root c.package.root
  { c with
    package := { c.package with root := packageRoot }
    trees := c.trees.map fun t => { t with root := seenFrom packageRoot t.root }
    merge := c.merge.map fun m => { m with
      builtDir := seenFrom root m.builtDir
      generatedDir := seenFrom root m.generatedDir
      outputDir := seenFrom root m.outputDir }
    planFile := seenFrom root c.planFile }

/-! ## What the parts of the library are given -/

/-- A package with what the configuration says about it. -/
def applyTo (c : Config) (p : Package) : Package where
  name := c.package.name.getD p.name
  version := p.version
  root := p.root
  fileExtensions := c.package.fileExtensions.getD p.fileExtensions
  aliases := c.package.aliases.entries.foldl (fun t e => t.insert e.1 e.2) p.aliases
  exclude := c.package.exclude

def listOptions (c : Config) : ListOptions :=
  let default : ListOptions := {}
  { tokenMode := c.general.tokenMode, ignore := c.general.ignore.getD default.ignore }

def mergeOptions (c : Config) : Option MergeOptions :=
  c.merge.map fun m => {
    builtDir := m.builtDir
    generatedDir := m.generatedDir
    outputDir := m.outputDir
    mappings := m.mappings
    passthrough := m.passthrough
    listOptions := c.listOptions }

def policy (c : Config) : BundlePolicy where
  names := c.bundles.names
  rules := c.bundles.rules
  treeKinds := c.bundles.treeKinds
  defaultBundle := c.bundles.default

end Config

end VendorBundle
