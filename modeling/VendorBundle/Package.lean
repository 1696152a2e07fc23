import VendorBundle.Resolver
import VendorBundle.Tree.Entry

/-!
# Packages under analysis

A package owns source trees: it says which of their files are read, how specifiers are replaced
before they are resolved, and which packages its imports leave alone.
-/

namespace VendorBundle

structure Package where
  name : String
  version : String := Resolver.unknownVersion
  root : Path
  fileExtensions : List String := ["js", "mjs", "cjs", "ts"]
  /-- A specifier that is a key, or goes on below one, is replaced. -/
  aliases : Table String String := ∅
  /-- Packages that are never bundled. -/
  exclude : List String := []
  deriving DecidableEq

namespace Package

/-- The package whose manifest stands in `root`; without a declared name it is named after the
directory. -/
def load {σ : Type} [Files σ] (files : σ) (root : Path) : Except ResolveError Package := do
  let manifest ← Manifest.load files (root.join "package.json")
  pure {
    name := manifest.name.getD (root.fileName?.getD "")
    version := manifest.version.getD Resolver.unknownVersion
    root }

def matchesPath (p : Package) (path : String) : Bool :=
  (extensionOf? path).any (p.fileExtensions.contains ·)

/-- The package that the specifier names is left alone. -/
def excludes (p : Package) (specifier : String) : Bool :=
  (Specifier.packageName? specifier).any (p.exclude.contains ·)

/-! ## Aliases -/

/-- What follows an alias in a specifier that is the alias or goes on below it. -/
def aliasRest? (source specifier : String) : Option (List Char) :=
  (Text.stripStart? source.toList specifier.toList).filter
    fun rest => rest.isEmpty || rest.head? == some '/'

/-- An alias that applies to a specifier, with what follows it. -/
structure AliasMatch where
  source : String
  replacement : String
  rest : List Char

def aliasMatches (p : Package) (specifier : String) : List AliasMatch :=
  p.aliases.entries.filterMap fun (source, replacement) =>
    (aliasRest? source specifier).map (⟨source, replacement, ·⟩)

def AliasMatch.longer (a b : AliasMatch) : AliasMatch :=
  if a.source.length > b.source.length then a else b

/-- The specifier with the longest alias that applies to it replaced. -/
def replaceAlias (p : Package) (specifier : String) : String :=
  match p.aliasMatches specifier with
  | [] => specifier
  | m :: ms =>
      let best := ms.foldl AliasMatch.longer m
      best.replacement ++ String.ofList best.rest

/-- Where a specifier written in the package points. -/
def resolve {σ : Type} [Files σ] (p : Package) (r : Resolver) (files : σ) (specifier : String)
    (template : Bool) : Except ResolveError Target × Resolver :=
  r.resolve files p.root (p.replaceAlias specifier) template

end Package

instance : JsonForm Package where
  toJson p := .object [
    ("name", p.name), ("version", p.version), ("root", toJson p.root),
    ("fileExtensions", toJson p.fileExtensions), ("aliases", toJson p.aliases),
    ("exclude", toJson p.exclude)]
  ofJson? v := do
    let r ← Record.ofJson? 6 v
    pure {
      name := ← r.required 0 "name"
      version := ← r.required 1 "version"
      root := ← r.required 2 "root"
      fileExtensions := ← r.required 3 "fileExtensions"
      aliases := ← r.required 4 "aliases"
      exclude := ← r.required 5 "exclude" }

end VendorBundle
