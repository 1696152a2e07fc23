import VendorBundle.Package

/-!
# Imports

An import names another module by a literal specifier, or by a template whose value is only known
when the program runs. One that was found in a source file also knows the file and its package.
-/

namespace VendorBundle

/-- An import as a program writes it. -/
inductive ImportForm where
  /-- An import declaration, a re-export, or a call of `import` with a fixed text. -/
  | literal (specifier : String) (isDynamic : Bool)
  /-- A call of `import` with a template: its fixed texts, and for each expression between them the
  name, if it is one. -/
  | template (texts : List String) (hints : List (Option String))
  deriving DecidableEq, Repr

/-- Where an import was found. -/
structure ImportSite where
  /-- The path of the file, with the prefix of its tree. -/
  file : String
  package : Package
  treeKind : Option String := none
  deriving DecidableEq

structure LiteralImport where
  specifier : String
  isDynamic : Bool
  site : ImportSite
  deriving DecidableEq

structure TemplateImport where
  /-- The fixed texts; only the first has a say in resolution. -/
  texts : List String
  hints : List (Option String)
  site : ImportSite
  deriving DecidableEq

namespace TemplateImport

/-- The text in front of the first expression. -/
def leadingText (i : TemplateImport) : String := i.texts.headD ""

/-- What stands for an expression in a key. -/
def placeholder : String := "$\x7be\x7d"

/-- Templates with one key count as the same import. -/
def key (i : TemplateImport) : String := placeholder.intercalate i.texts

end TemplateImport

inductive Import where
  | literal (i : LiteralImport)
  | template (i : TemplateImport)
  deriving DecidableEq

namespace Import

def site : Import → ImportSite
  | literal i => i.site
  | template i => i.site

/-- An import of a program that stands at the given site. -/
def ofForm (site : ImportSite) : ImportForm → Import
  | .literal specifier isDynamic => literal ⟨specifier, isDynamic, site⟩
  | .template texts hints => template ⟨texts, hints, site⟩

end Import

/-! ## Written form -/

/-- The members of an import that tell where it was found. -/
def ImportSite.members (s : ImportSite) : List (String × Json) :=
  [("sourceFile", .string s.file), ("package", .string s.package.name)]
    ++ s.treeKind.toList.map fun kind => ("treeKind", .string kind)

def LiteralImport.toJson (i : LiteralImport) : Json :=
  .object ([("specifier", .string i.specifier), ("isDynamic", .bool i.isDynamic)] ++ i.site.members)

def TemplateImport.toJson (i : TemplateImport) : Json :=
  .object ([("cookedQuasis", .array (i.texts.map .string)),
    ("expressionNameHints", .array (i.hints.map (Json.ofOption .string)))] ++ i.site.members)

/-- An import with the mark which form it has. -/
def Import.toJson (i : Import) : Json :=
  let (kind, body) := match i with
    | literal i => ("literal", i.toJson)
    | template i => ("template", i.toJson)
  match body with
  | .object members => .object (("kind", .string kind) :: members)
  | body => body

end VendorBundle
