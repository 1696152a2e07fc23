import VendorBundle.Config.Basic
import VendorBundle.Toml.Printer

/-!
# The written form of configurations

A configuration is written as a tree of values and read from one. Values that were put together
from several layers are read more freely than a single JSON value: an array of fields may be too
long, and a choice may be the first key of a table.
-/

namespace VendorBundle

/-- Whether a tree of values is a single JSON value or was put together from layers. -/
inductive ValueOrigin where
  | single
  | layers
  deriving DecidableEq

namespace Config

/-! ## Reading -/

/-- The fields of a record. -/
def fields? (origin : ValueOrigin) (count : Nat) (v : Json) : Option Record :=
  match origin, v with
  | .layers, .array items => some (.listed items)
  | _, v => Record.ofJson? count v

/-- A section that may be missing. -/
def section? {α : Type} (r : Record) (index : Nat) (key : String) (default : α)
    (read : Json → Option α) : Option α :=
  match r.field? index key with
  | some v => read v
  | none => some default

/-- The smallest key of an object, when it is bound to null. -/
def firstKey? (members : List (String × Json)) : Option String :=
  match members.map Prod.fst with
  | [] => none
  | k :: ks =>
      let key := ks.foldl (fun a b => if b < a then b else a) k
      match Json.lookup key members with
      | some .null => some key
      | _ => none

def tokenMode? (origin : ValueOrigin) (v : Json) : Option TokenMode :=
  match origin, v with
  | .layers, .object members => (firstKey? members).bind fun key => ofJson? (.string key)
  | _, v => ofJson? v

def Owner.ofJson? (origin : ValueOrigin) (v : Json) : Option Owner := do
  let r ← fields? origin 5 v
  let default : Owner := {}
  pure {
    name := ← r.withDefault 0 "name" default.name
    root := ← r.withDefault 1 "root" default.root
    fileExtensions := ← r.withDefault 2 "file_extensions" default.fileExtensions
    aliases := ← r.withDefault 3 "aliases" default.aliases
    exclude := ← r.withDefault 4 "exclude" default.exclude }

def Tree.ofJson? (origin : ValueOrigin) (v : Json) : Option Tree := do
  let r ← fields? origin 3 v
  pure {
    root := ← r.required 0 "root"
    label := ← r.withDefault 1 "prefix" ""
    kind := ← r.withDefault 2 "kind" none }

def treesOfJson? (origin : ValueOrigin) : Json → Option (List Tree)
  | .array items => items.mapM (Tree.ofJson? origin)
  | _ => none

def resolveOfJson? (origin : ValueOrigin) (v : Json) : Option ResolveOptions := do
  let r ← fields? origin 2 v
  let default : ResolveOptions := {}
  pure {
    extensions := ← r.withDefault 0 "extensions" default.extensions
    mainFields := ← r.withDefault 1 "main_fields" default.mainFields }

def ruleOfJson? (origin : ValueOrigin) (v : Json) : Option BundleRule := do
  let r ← fields? origin 2 v
  pure { pathStart := ← r.required 0 "prefix", bundle := ← r.required 1 "bundle" }

def rulesOfJson? (origin : ValueOrigin) : Json → Option (List BundleRule)
  | .array items => items.mapM (ruleOfJson? origin)
  | _ => none

def Bundles.ofJson? (origin : ValueOrigin) (v : Json) : Option Bundles := do
  let r ← fields? origin 4 v
  let default : Bundles := {}
  pure {
    names := ← r.withDefault 0 "names" default.names
    default := ← r.withDefault 1 "default" default.default
    rules := ← section? r 2 "rules" default.rules (rulesOfJson? origin)
    treeKinds := ← r.withDefault 3 "tree_kinds" default.treeKinds }

def Merge.ofJson? (origin : ValueOrigin) (v : Json) : Option Merge := do
  let r ← fields? origin 5 v
  pure {
    builtDir := ← r.required 0 "upstream_dir"
    generatedDir := ← r.required 1 "generated_dir"
    outputDir := ← r.required 2 "output_dir"
    mappings := ← r.withDefault 3 "mappings" ∅
    passthrough := ← r.withDefault 4 "passthrough" ∅ }

def mergeOfJson? (origin : ValueOrigin) : Json → Option (Option Merge)
  | .null => some none
  | v => (Merge.ofJson? origin v).map some

def defaultPlanFile : Path := ({} : Config).planFile

def planFileOfJson? (origin : ValueOrigin) (v : Json) : Option Path := do
  let r ← fields? origin 1 v
  r.withDefault 0 "deps_file" defaultPlanFile

/-- The time a watch waits when the section says nothing about it. -/
def defaultDebounce : UInt64 := 200

def General.ofJson? (origin : ValueOrigin) (v : Json) : Option General := do
  let r ← fields? origin 5 v
  pure {
    maxConcurrency := ← r.withDefault 0 "max_concurrency" none
    tokenMode := ← section? r 1 "token_mode" .stat (tokenMode? origin)
    ignore := ← r.withDefault 2 "ignore" none
    logLevel := ← r.withDefault 3 "log_level" none
    debounce := ← r.withDefault 4 "debounce_ms" defaultDebounce }

def ofJson? (origin : ValueOrigin) (v : Json) : Option Config := do
  let r ← fields? origin 7 v
  let default : Config := {}
  pure {
    package := ← section? r 0 "package" default.package (Owner.ofJson? origin)
    trees := ← section? r 1 "trees" default.trees (treesOfJson? origin)
    resolve := ← section? r 2 "resolve" default.resolve (resolveOfJson? origin)
    bundles := ← section? r 3 "bundles" default.bundles (Bundles.ofJson? origin)
    merge := ← section? r 4 "append" default.merge (mergeOfJson? origin)
    planFile := ← section? r 5 "output" default.planFile (planFileOfJson? origin)
    general := ← section? r 6 "settings" default.general (General.ofJson? origin) }

/-! ## Writing -/

def Owner.toJson (o : Owner) : Json := .object [
  ("name", JsonForm.toJson o.name), ("root", JsonForm.toJson o.root),
  ("file_extensions", JsonForm.toJson o.fileExtensions), ("aliases", JsonForm.toJson o.aliases),
  ("exclude", JsonForm.toJson o.exclude)]

def Tree.toJson (t : Tree) : Json := .object [
  ("root", JsonForm.toJson t.root), ("prefix", JsonForm.toJson t.label),
  ("kind", JsonForm.toJson t.kind)]

def Bundles.toJson (b : Bundles) : Json := .object [
  ("names", JsonForm.toJson b.names), ("default", JsonForm.toJson b.default),
  ("rules", JsonForm.toJson b.rules), ("tree_kinds", JsonForm.toJson b.treeKinds)]

def Merge.toJson (m : Merge) : Json := .object [
  ("upstream_dir", JsonForm.toJson m.builtDir),
  ("generated_dir", JsonForm.toJson m.generatedDir),
  ("output_dir", JsonForm.toJson m.outputDir), ("mappings", JsonForm.toJson m.mappings),
  ("passthrough", JsonForm.toJson m.passthrough)]

def General.toJson (g : General) : Json := .object [
  ("max_concurrency", JsonForm.toJson g.maxConcurrency),
  ("token_mode", JsonForm.toJson g.tokenMode), ("ignore", JsonForm.toJson g.ignore),
  ("log_level", JsonForm.toJson g.logLevel), ("debounce_ms", JsonForm.toJson g.debounce)]

def toJson (c : Config) : Json := .object [
  ("package", c.package.toJson),
  ("trees", .array (c.trees.map Tree.toJson)),
  ("resolve", .object [("extensions", JsonForm.toJson c.resolve.extensions),
    ("main_fields", JsonForm.toJson c.resolve.mainFields)]),
  ("bundles", c.bundles.toJson),
  ("append", Json.ofOption Merge.toJson c.merge),
  ("output", .object [("deps_file", JsonForm.toJson c.planFile)]),
  ("settings", c.general.toJson)]

/-- The configuration as a TOML document. -/
def toToml (c : Config) : String := Toml.render c.toJson

end Config

end VendorBundle
