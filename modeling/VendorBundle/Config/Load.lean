import VendorBundle.Config.Check
import VendorBundle.Config.Environment
import VendorBundle.Config.Form
import VendorBundle.Json.Parser

/-!
# Loading configurations

A configuration is laid together from four layers: the defaults, a file, the environment and what
the command line says, each over the ones before it. The file is `autodep.toml`, or the field
`autodep` of `package.json`, unless one is given.
-/

namespace VendorBundle

inductive ConfigFormat where
  | toml
  | json
  /-- The configuration is one field of a manifest. -/
  | manifest
  deriving DecidableEq, Repr

/-- A configuration file and how it is read. -/
structure ConfigSource where
  path : Path
  format : ConfigFormat
  deriving DecidableEq, Repr

/-- Why no configuration was loaded. -/
inductive ConfigError where
  | notFound (path : Path)
  | unsupported (path : Path)
  /-- The layers cannot be read, or do not make a configuration. -/
  | malformed
  | fault (fault : ConfigFault)
  deriving DecidableEq, Repr

namespace ConfigError

def message? : ConfigError → Option String
  | notFound path => some s!"config not found in {path.text}"
  | unsupported path => some s!"unsupported configuration format: {path.text}"
  | malformed => none
  | fault f => some s!"schema validation failed: {f.message}"

def hint? : ConfigError → Option String
  | notFound _ => some "Create autodep.toml or add an \"autodep\" field to package.json"
  | fault f => f.hint?
  | _ => none

end ConfigError

/-! ## Files -/

namespace ConfigSource

/-- The field of a manifest that holds a configuration. -/
def manifestField : String := "autodep"

/-- The format that the name of a file tells. -/
def ofPath (path : Path) : Except ConfigError ConfigSource :=
  if path.fileName? = some "package.json" then .ok ⟨path, .manifest⟩
  else match path.extension? with
    | some "toml" => .ok ⟨path, .toml⟩
    | some "json" => .ok ⟨path, .json⟩
    | _ => .error (.unsupported path)

section Files

variable {σ : Type} [Files σ] (files : σ)

/-- The manifest holds a configuration: its field is there and not null. -/
def inManifest (path : Path) : Bool :=
  match Files.readText files path with
  | .error _ => false
  | .ok text =>
      match (Json.parse? text).bind (·.get? manifestField) with
      | some .null | none => false
      | some _ => true

/-- The configuration file of a project. -/
def find? (root : Path) : Option ConfigSource :=
  let file := root.join "autodep.toml"
  let manifest := root.join "package.json"
  if Files.isFile files file then some ⟨file, .toml⟩
  else if inManifest files manifest then some ⟨manifest, .manifest⟩
  else none

def require (root : Path) : Except ConfigError ConfigSource :=
  match find? files root with
  | some source => .ok source
  | none => .error (.notFound root)

/-- What a file says; the field of a manifest says nothing unless it is an object. -/
def layer? (source : ConfigSource) : Option Json :=
  match Files.readText files source.path with
  | .error _ => none
  | .ok text =>
      match source.format with
      | .toml => Toml.parse? text
      | .json => object? text
      | .manifest =>
          (object? text).map fun v =>
            match v.get? manifestField with
            | some (.object members) => .object members
            | _ => .object []
where
  object? (text : String) : Option Json :=
    match Json.parse? text with
    | some (.object members) => some (.object members)
    | _ => none

end Files

end ConfigSource

/-! ## Layers -/

/-- What the command line says about a configuration. -/
structure ConfigOverrides where
  maxConcurrency : Option UInt64 := none
  tokenMode : Option TokenMode := none
  planFile : Option Path := none
  deriving DecidableEq

def ConfigOverrides.layer (o : ConfigOverrides) : Json :=
  let setting {α : Type} [JsonForm α] (keys : List String) (value : Option α) (v : Json) : Json :=
    match value with
    | some a => v.overlay (.nest (toJson a) keys)
    | none => v
  setting ["output", "deps_file"] o.planFile
    (setting ["settings", "token_mode"] o.tokenMode
      (setting ["settings", "max_concurrency"] o.maxConcurrency (.object [])))

/-- Where the layers of a configuration come from. -/
structure ConfigLoader where
  root : Path
  /-- The file to take instead of looking for one. -/
  file : Option Path := none
  environment : List (String × String) := []
  overrides : ConfigOverrides := {}

/-- A configuration and the file it came from. -/
structure LoadedConfig where
  config : Config
  source : Option ConfigSource

namespace ConfigLoader

variable {σ : Type} [Files σ] (files : σ)

def source? (l : ConfigLoader) : Except ConfigError (Option ConfigSource) :=
  match l.file with
  | none => .ok (ConfigSource.find? files l.root)
  | some file =>
      let path := l.root.join file
      if Files.isFile files path then (ConfigSource.ofPath path).map some
      else .error (.notFound path)

/-- All layers in one. -/
def layers? (l : ConfigLoader) (source : Option ConfigSource) : Option Json :=
  let fromFile : Option Json := match source with
    | none => some (.object [])
    | some source => source.layer? files
  fromFile.map fun v =>
    let default : Config := {}
    ((default.toJson.overlay v).overlay (Environment.settings l.environment)).overlay
      l.overrides.layer

/-- The configuration as it is written, neither resolved nor checked. -/
def extract (l : ConfigLoader) : Except ConfigError LoadedConfig := do
  let source ← l.source? files
  match (l.layers? files source).bind (Config.ofJson? .layers) with
  | some config => pure { config, source }
  | none => throw .malformed

/-- The configuration with its paths resolved, after checking it. -/
def load (l : ConfigLoader) : Except ConfigError LoadedConfig := do
  let loaded ← l.extract files
  let config := loaded.config.resolvePaths l.root
  match config.check with
  | .ok () => pure { loaded with config }
  | .error f => throw (.fault f)

end ConfigLoader

end VendorBundle
