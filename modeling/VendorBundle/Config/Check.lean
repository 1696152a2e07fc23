import VendorBundle.Config.Basic
import VendorBundle.Files
import VendorBundle.Text.Blank

/-!
# Checking configurations

A configuration is checked on its own, and on request against the directories it names. The first
fault in the order of the checks is reported.
-/

namespace VendorBundle

/-- Where a configuration refers to a bundle. -/
inductive BundleUse where
  | default
  | rule (pathStart : String)
  | treeKind (kind : String)
  deriving DecidableEq, Repr

def BundleUse.text : BundleUse → String
  | default => "'bundles.default'"
  | rule pathStart => s!"rule for '{pathStart}'"
  | treeKind kind => s!"tree kind '{kind}'"

/-- What a directory is needed for. -/
inductive RequiredDir where
  | package
  | tree
  | built
  deriving DecidableEq, Repr

def RequiredDir.text : RequiredDir → String
  | package => "package root"
  | tree => "source tree"
  | built => "append upstream directory"

/-- What is wrong with a configuration. -/
inductive ConfigFault where
  | noBundles
  | emptyBundleName
  | repeatedBundle (name : String)
  | undeclaredBundle (use : BundleUse) (bundle : String) (declared : List String)
  | noTrees
  | emptyTreeRoot
  | dottedExtension
  | emptyMappingKey
  | emptyMapping (file : String)
  | emptyPassthrough
  | noConcurrency
  | missingDir (use : RequiredDir) (path : Path)
  deriving DecidableEq, Repr

namespace ConfigFault

def message : ConfigFault → String
  | noBundles => "no bundles declared"
  | emptyBundleName => "bundle names cannot be empty"
  | repeatedBundle name => s!"bundle '{name}' is declared twice"
  | undeclaredBundle use bundle _ => s!"{use.text} refers to undeclared bundle '{bundle}'"
  | noTrees => "no source trees configured"
  | emptyTreeRoot => "tree root cannot be empty"
  | dottedExtension => "resolve extensions must not start with '.'"
  | emptyMappingKey => "append mapping keys cannot be empty"
  | emptyMapping file => s!"append mapping for '{file}' has an empty extension or directory"
  | emptyPassthrough => "passthrough source prefixes cannot be empty"
  | noConcurrency => "max_concurrency must be at least 1"
  | missingDir use path => s!"{use.text} not found: {path.text}"

/-- What can be done about it. -/
def hint? : ConfigFault → Option String
  | noBundles => some "Declare at least one name in 'bundles.names'"
  | emptyBundleName => some "Remove empty strings from 'bundles.names'"
  | repeatedBundle _ => some "Bundle names must be unique"
  | undeclaredBundle _ _ declared => some ("Declared bundles: " ++ ", ".intercalate declared)
  | noTrees => some "Add at least one [[trees]] entry"
  | emptyTreeRoot => some "Give every [[trees]] entry a 'root'"
  | dottedExtension => some "Write extensions as \"js\", not \".js\""
  | emptyMappingKey => some "Use an upstream path such as \"assets/vendor.js\""
  | emptyMapping _ => some "Map each extension to a generated subdirectory"
  | emptyPassthrough => some "Use a generated subdirectory such as \"lazy\""
  | noConcurrency => some "Remove 'settings.max_concurrency' to use the CPU count"
  | missingDir .. => none

end ConfigFault

namespace Config

/-- A test that a configuration has to pass. -/
def ensure (holds : Bool) (fault : ConfigFault) : Except ConfigFault Unit :=
  if holds then .ok () else .error fault

/-- Bundle names are not blank and not repeated. -/
def checkNames : (seen : List String) → List String → Except ConfigFault Unit
  | _, [] => .ok ()
  | seen, name :: rest => do
      ensure (!Text.isBlank name) .emptyBundleName
      ensure (!seen.contains name) (.repeatedBundle name)
      checkNames (name :: seen) rest

def checkUse (declared : List String) (use : BundleUse) (bundle : String) :
    Except ConfigFault Unit :=
  ensure (declared.contains bundle) (.undeclaredBundle use bundle declared)

def checkBundles (b : Bundles) : Except ConfigFault Unit := do
  ensure (!b.names.isEmpty) .noBundles
  checkNames [] b.names
  checkUse b.names .default b.default
  b.rules.forM fun rule => checkUse b.names (.rule rule.pathStart) rule.bundle
  b.treeKinds.entries.forM fun (kind, bundle) => checkUse b.names (.treeKind kind) bundle

def checkTrees (trees : List Tree) : Except ConfigFault Unit := do
  ensure (!trees.isEmpty) .noTrees
  trees.forM fun t => ensure (!t.root.text.isEmpty) .emptyTreeRoot

def checkMapping (file : String) (byExtension : Table String String) :
    Except ConfigFault Unit := do
  ensure (!Text.isBlank file) .emptyMappingKey
  byExtension.entries.forM fun (extension, subdir) =>
    ensure (!extension.isEmpty && !(trimSlashes subdir).isEmpty) (.emptyMapping file)

def checkMerge (m : Merge) : Except ConfigFault Unit := do
  m.mappings.entries.forM fun (file, byExtension) => checkMapping file byExtension
  ensure (m.passthrough.keys.all fun source => !(trimSlashes source).isEmpty) .emptyPassthrough

/-- The checks that need no files. -/
def check (c : Config) : Except ConfigFault Unit := do
  checkBundles c.bundles
  checkTrees c.trees
  ensure (c.resolve.extensions.all (!Text.startsWith · ".")) .dottedExtension
  c.merge.forM checkMerge
  ensure (c.general.maxConcurrency != some 0) .noConcurrency

/-- The directories that have to be there. -/
def requiredDirs (c : Config) : List (RequiredDir × Path) :=
  (.package, c.package.root) :: c.trees.map (.tree, ·.root)
    ++ c.merge.toList.map (.built, ·.builtDir)

/-- All checks, those of the directories last. -/
def checkWithFiles {σ : Type} [Files σ] (files : σ) (c : Config) : Except ConfigFault Unit := do
  c.check
  c.requiredDirs.forM fun (use, path) => ensure (Files.isDir files path) (.missingDir use path)

end Config

end VendorBundle
