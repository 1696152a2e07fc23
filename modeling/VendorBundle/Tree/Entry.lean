import VendorBundle.Digest
import VendorBundle.Json.Codec
import VendorBundle.Text

/-!
# Entries of a directory listing

A listing holds slash-separated paths relative to its root. Paths are ordered segment by segment,
which puts what a directory holds right after the directory.
-/

namespace VendorBundle

inductive EntryKind where
  | file
  | directory
  deriving DecidableEq, Repr, Inhabited

/-- A value that differs whenever the content of a file may differ. -/
inductive ChangeToken where
  | stat (size : UInt64) (modified : Option UInt64)
  | content (hash : String)
  | directory
  deriving DecidableEq, Repr, Inhabited

def ChangeToken.ofContent (bytes : ByteArray) : ChangeToken := .content (Digest.hex bytes)

structure Entry where
  path : String
  kind : EntryKind
  token : ChangeToken
  deriving DecidableEq, Repr, Inhabited

namespace Entry

def file (path : String) (token : ChangeToken) : Entry := ⟨path, .file, token⟩

def dir (path : String) : Entry := ⟨path, .directory, .directory⟩

end Entry

/-- What follows the last dot of the last segment, unless that dot is the first character. -/
def extensionOf? (path : String) : Option String :=
  let segment := match Text.cutLast? '/' path.toList with
    | some (_, last) => last
    | none => path.toList
  match Text.cutLast? '.' segment with
  | some ([], _) | none => none
  | some (_, extension) => some (String.ofList extension)

/-- The order of paths, segment by segment. -/
def comparePaths (a b : String) : Ordering := compare (Text.split '/' a) (Text.split '/' b)

namespace Entry

def extension? (e : Entry) : Option String := extensionOf? e.path

/-- Of neighbours with one path, the last. -/
def keepLast : List Entry → List Entry
  | [] => []
  | [e] => [e]
  | a :: b :: rest => if a.path = b.path then keepLast (b :: rest) else a :: keepLast (b :: rest)

/-- The entries in ascending order of their paths; of entries with one path, the last. -/
def normalize (entries : List Entry) : List Entry :=
  keepLast (entries.mergeSort fun a b => (comparePaths a.path b.path).isLE)

end Entry

/-! ## JSON forms -/

instance : JsonForm EntryKind where
  toJson
    | .file => "file"
    | .directory => "directory"
  ofJson? v := match v.choice? with
    | some "file" => some .file
    | some "directory" => some .directory
    | _ => none

/-- A token is written as an object tagged with its kind, and read from one or from an array that
starts with the kind. -/
instance : JsonForm ChangeToken where
  toJson
    | .stat size modified =>
        .object [("type", "stat"), ("size", toJson size), ("modified", toJson modified)]
    | .content hash => .object [("type", "content"), ("hash", hash)]
    | .directory => .object [("type", "directory")]
  ofJson? v := do
    let (kind, r) ← match v with
      | .object members => some (← Json.lookup "type" members, Record.named members)
      | .array (kind :: items) => some (kind, Record.listed items)
      | _ => none
    match kind, r with
    | .string "stat", r => do
        let size ← r.required 0 "size"
        let modified ← r.optional 1 "modified"
        if let .listed items := r then guard (items.length ≤ 2)
        pure (.stat size modified)
    | .string "content", r => do
        let hash ← r.required 0 "hash"
        if let .listed items := r then guard (items.length ≤ 1)
        pure (.content hash)
    | .string "directory", .named _ => some .directory
    | .string "directory", .listed [] => some .directory
    | _, _ => none

instance : JsonForm Entry where
  toJson e := .object [("path", e.path), ("kind", toJson e.kind), ("token", toJson e.token)]
  ofJson? v := do
    let r ← Record.ofJson? 3 v
    pure ⟨← r.required 0 "path", ← r.required 1 "kind", ← r.required 2 "token"⟩

end VendorBundle
