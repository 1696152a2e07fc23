import VendorBundle.Tree.Listing

/-!
# What is merged into what

The options of a merge name three directories: build output that is taken over, generated files
that are added to it, and the result. Mappings say which generated files go into which file of the
build output; other generated directories are copied to a place of their own.
-/

namespace VendorBundle

structure MergeOptions where
  builtDir : Path
  generatedDir : Path
  outputDir : Path
  /-- For a file of the build output, with or without extension, the generated directory that
  each extension comes from. -/
  mappings : Table String (Table String String) := ∅
  /-- Generated directories that are copied, with their places in the result. -/
  passthrough : Table String String := ∅
  listOptions : ListOptions := {}
  deriving DecidableEq

/-- Where the fragments of a file come from. -/
structure FragmentSource where
  subdir : String
  extension : String
  deriving DecidableEq, Repr

/-- Removes the slashes around a path. -/
def trimSlashes (path : String) : String :=
  let front := path.toList.dropWhile (· == '/')
  String.ofList (front.reverse.dropWhile (· == '/')).reverse

namespace MergeOptions

/-- The same options with one more mapping. -/
def addMapping (o : MergeOptions) (file extension subdir : String) : MergeOptions :=
  let known := (o.mappings.get? file).getD ∅
  { o with mappings := o.mappings.insert file (known.insert extension subdir) }

/-- The file that a mapping is for: the key itself when it has the extension, else the key with the
extension. -/
def targetOf (file extension : String) : String :=
  if extensionOf? file = some extension then file else file ++ "." ++ extension

/-- The files that fragments are added to. -/
def targets (o : MergeOptions) : Table String FragmentSource :=
  Table.ofList (o.mappings.entries.flatMap fun (file, byExtension) =>
    byExtension.entries.map fun (extension, subdir) =>
      (targetOf file extension, ⟨trimSlashes subdir, extension⟩))

end MergeOptions

/-- The files that each directory and extension of generated files is added to. -/
abbrev Feeds := Table String (Table String (List String))

namespace Feeds

def add (feeds : Feeds) (target : String) (source : FragmentSource) : Feeds :=
  let byExtension := (feeds.get? source.subdir).getD ∅
  let known := (byExtension.get? source.extension).getD []
  feeds.insert source.subdir (byExtension.insert source.extension (known ++ [target]))

def ofTargets (targets : Table String FragmentSource) : Feeds :=
  targets.entries.foldl (fun feeds (target, source) => add feeds target source) ∅

/-- A path is the given one or lies below it; the empty path is above all. -/
def covers (dir path : String) : Bool :=
  match Text.stripStart? dir.toList path.toList with
  | some rest => dir.isEmpty || rest.isEmpty || rest.head? == some '/'
  | none => false

/-- The longer of two directories. -/
def longer (a b : String) : String := if b.utf8ByteSize ≥ a.utf8ByteSize then b else a

/-- The longest directory that covers a path. -/
def dirOf? (feeds : Feeds) (path : String) : Option String :=
  match feeds.keys.filter (covers · path) with
  | [] => none
  | dir :: dirs => some (dirs.foldl longer dir)

/-- The files that a generated file is added to. -/
def targetsOf (feeds : Feeds) (path : String) : List String :=
  match feeds.dirOf? path, extensionOf? path with
  | some dir, some extension =>
      ((feeds.get? dir).bind (·.get? extension)).getD []
  | _, _ => []

end Feeds

instance : JsonForm MergeOptions where
  toJson o := .object [
    ("upstreamDir", toJson o.builtDir), ("generatedDir", toJson o.generatedDir),
    ("outputDir", toJson o.outputDir), ("mappings", toJson o.mappings),
    ("passthrough", toJson o.passthrough), ("listOptions", toJson o.listOptions)]
  ofJson? v := do
    let r ← Record.ofJson? 6 v
    pure {
      builtDir := ← r.required 0 "upstreamDir"
      generatedDir := ← r.required 1 "generatedDir"
      outputDir := ← r.required 2 "outputDir"
      mappings := ← r.withDefault 3 "mappings" ∅
      passthrough := ← r.withDefault 4 "passthrough" ∅
      listOptions := ← r.withDefault 5 "listOptions" {} }

end VendorBundle
