import VendorBundle.Merge.Options

/-!
# Laying generated directories over the build output

A generated directory that is passed through appears in the result at a place of its own. Its
entries are laid over those of the build output, together with the directories above that place.
-/

namespace VendorBundle

/-- Entries that are laid over a listing. -/
structure Overlay where
  entries : List Entry := []
  /-- For each laid over file, the generated file that it is. -/
  sources : Table String String := ∅

namespace Overlay

/-- What follows a directory and a slash in a path below it. -/
def below? (dir path : String) : Option String :=
  match Text.stripStart? dir.toList path.toList with
  | some ('/' :: rest) => some (String.ofList rest)
  | _ => none

/-- The path `rest` below a directory; the empty path is the root. -/
def place (dir rest : String) : String := if dir.isEmpty then rest else dir ++ "/" ++ rest

/-- The directories on the way to a path and the path itself. -/
def directories (path : String) : List Entry :=
  let segments := (Text.split '/' path).filter (!·.isEmpty)
  (List.range segments.length).map fun n => .dir ("/".intercalate (segments.take (n + 1)))

/-- Adds a generated entry at its place. -/
def addEntry (o : Overlay) (source : Entry) (path : String) : Overlay where
  entries := o.entries ++ [{ source with path }]
  sources := if source.kind = .directory then o.sources else o.sources.insert path source.path

/-- Adds what a generated directory holds, and the directories above its place if it holds
anything. -/
def addTree (generated : List Entry) (o : Overlay) (source target : String) : Overlay :=
  let found := generated.filterMap fun e => (below? source e.path).map (e, ·)
  let o' := found.foldl (fun o (e, rest) => o.addEntry e (place target rest)) o
  if found.isEmpty then o' else { o' with entries := o'.entries ++ directories target }

/-- The overlay of all generated directories that are passed through. -/
def ofListing (passthrough : Table String String) (generated : List Entry) : Overlay :=
  passthrough.entries.foldl
    (fun o (source, target) => addTree generated o (trimSlashes source) (trimSlashes target)) {}

end Overlay

end VendorBundle
