import VendorBundle.Json.Codec
import VendorBundle.Text

/-!
# Bundle policies

A policy declares bundles in order of priority and says which of them a file that imports something
belongs to: by the kind of its tree, else by the first rule whose prefix its path has, else to the
default bundle.
-/

namespace VendorBundle

structure BundleRule where
  pathStart : String
  bundle : String
  deriving DecidableEq, Repr, Inhabited

structure BundlePolicy where
  names : List String
  rules : List BundleRule := []
  treeKinds : Table String String := ∅
  defaultBundle : String
  deriving DecidableEq

namespace BundlePolicy

/-- Bundles `app` and `tests`, where `tests` takes the trees of that kind and the files below
`tests/`. -/
def standard : BundlePolicy where
  names := ["app", "tests"]
  rules := [⟨"tests/", "tests"⟩]
  treeKinds := Table.ofList [("tests", "tests")]
  defaultBundle := "app"

instance : Inhabited BundlePolicy := ⟨standard⟩

def bundleForPath (p : BundlePolicy) (path : String) : String :=
  match p.rules.find? (fun rule => Text.startsWith path rule.pathStart) with
  | some rule => rule.bundle
  | none => p.defaultBundle

def bundleForTreeKind? (p : BundlePolicy) (kind : String) : Option String := p.treeKinds.get? kind

/-- The bundle of a file, by its path and the kind of its tree. -/
def bundleFor (p : BundlePolicy) (path : String) (treeKind : Option String) : String :=
  (treeKind.bind p.bundleForTreeKind?).getD (p.bundleForPath path)

end BundlePolicy

instance : JsonForm BundleRule where
  toJson rule := .object [("prefix", rule.pathStart), ("bundle", rule.bundle)]
  ofJson? v := do
    let r ← Record.ofJson? 2 v
    pure { pathStart := ← r.required 0 "prefix", bundle := ← r.required 1 "bundle" }

instance : JsonForm BundlePolicy where
  toJson p := .object [
    ("names", toJson p.names), ("rules", toJson p.rules), ("treeKinds", toJson p.treeKinds),
    ("defaultBundle", p.defaultBundle)]
  ofJson? v := do
    let r ← Record.ofJson? 4 v
    pure {
      names := ← r.required 0 "names"
      rules := ← r.withDefault 1 "rules" []
      treeKinds := ← r.withDefault 2 "treeKinds" ∅
      defaultBundle := ← r.required 3 "defaultBundle" }

end VendorBundle
