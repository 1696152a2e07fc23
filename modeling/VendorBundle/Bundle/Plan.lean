import VendorBundle.Import
import VendorBundle.Json.Printer

/-!
# What bundles have to hold

A plan lists for every declared bundle the modules it has to hold, each with the imports that ask
for it.
-/

namespace VendorBundle

/-- Imports that count as one, with the entry file that they lead to. -/
structure ImportGroup (α : Type) where
  /-- What the imports have in common. -/
  key : String
  /-- Where the first of them leads. -/
  entrypoint : Path
  first : α
  /-- The others, in the order of discovery. -/
  more : List α := []
  deriving DecidableEq

namespace ImportGroup

variable {α : Type}

def importers (g : ImportGroup α) : List α := g.first :: g.more

def add (g : ImportGroup α) (i : α) : ImportGroup α := { g with more := g.more ++ [i] }

/-- The part of the group that satisfies `p`, if there is any. -/
def filter? (g : ImportGroup α) (p : α → Bool) : Option (ImportGroup α) :=
  match g.importers.filter p with
  | [] => none
  | first :: more => some { g with first, more }

end ImportGroup

/-- The modules of one bundle. -/
structure BundleContents where
  staticImports : List (ImportGroup LiteralImport) := []
  dynamicImports : List (ImportGroup LiteralImport) := []
  templateImports : List (ImportGroup TemplateImport) := []
  deriving DecidableEq, Inhabited

namespace BundleContents

def isEmpty (c : BundleContents) : Bool :=
  c.staticImports.isEmpty && c.dynamicImports.isEmpty && c.templateImports.isEmpty

/-- The order of template imports: by the text in front, then by the key. -/
def templateBefore (a b : ImportGroup TemplateImport) : Bool :=
  ((compare a.first.leadingText b.first.leadingText).then (compare a.key b.key)).isLE

/-- The contents in the order they are reported in. -/
def sorted (c : BundleContents) : BundleContents where
  staticImports := c.staticImports.mergeSort fun a b => (compare a.key b.key).isLE
  dynamicImports := c.dynamicImports.mergeSort fun a b => (compare a.key b.key).isLE
  templateImports := c.templateImports.mergeSort templateBefore

end BundleContents

/-- The contents of the declared bundles, in the order of declaration. -/
structure BundlePlan where
  bundles : List (String × BundleContents) := []
  deriving DecidableEq, Inhabited

namespace BundlePlan

/-- A plan of empty bundles; a name that is declared twice is one bundle. -/
def declare (names : List String) : BundlePlan :=
  ⟨(names.eraseDups).map (·, {})⟩

def get? (plan : BundlePlan) (bundle : String) : Option BundleContents :=
  plan.bundles.lookup bundle

/-- Changes the contents of a bundle; other bundles stay. -/
def modify (plan : BundlePlan) (bundle : String) (f : BundleContents → BundleContents) :
    BundlePlan :=
  ⟨plan.bundles.map fun (name, c) => if name = bundle then (name, f c) else (name, c)⟩

def sorted (plan : BundlePlan) : BundlePlan :=
  ⟨plan.bundles.map fun (name, c) => (name, c.sorted)⟩

def isEmpty (plan : BundlePlan) : Bool := plan.bundles.all (·.2.isEmpty)

/-- A line for each bundle. -/
def summary (plan : BundlePlan) : List String :=
  plan.bundles.map fun (name, c) =>
    s!"{name}: {c.staticImports.length} static, {c.dynamicImports.length} dynamic, "
      ++ s!"{c.templateImports.length} template"

end BundlePlan

/-! ## Written form -/

def literalGroupJson (g : ImportGroup LiteralImport) : Json := .object [
  ("specifier", .string g.key), ("entrypoint", toJson g.entrypoint),
  ("importedBy", .array (g.importers.map LiteralImport.toJson))]

def templateGroupJson (g : ImportGroup TemplateImport) : Json := .object [
  ("cookedQuasis", .strings g.first.texts),
  ("expressionNameHints", .array (g.first.hints.map (Json.ofOption .string))),
  ("entrypoint", toJson g.entrypoint),
  ("importedBy", .array (g.importers.map TemplateImport.toJson))]

def BundleContents.toJson (c : BundleContents) : Json := .object [
  ("staticImports", .array (c.staticImports.map literalGroupJson)),
  ("dynamicImports", .array (c.dynamicImports.map literalGroupJson)),
  ("dynamicTemplateImports", .array (c.templateImports.map templateGroupJson))]

def BundlePlan.toJson (plan : BundlePlan) : Json :=
  .object (plan.bundles.map fun (name, c) => (name, c.toJson))

end VendorBundle
