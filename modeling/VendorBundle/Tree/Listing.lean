import VendorBundle.Files
import VendorBundle.Tree.Entry

/-!
# Listing a tree

A listing holds every file and directory below a root that is reached without passing an ignored
name. A root that is no directory has an empty listing.
-/

namespace VendorBundle

/-- Where the token of a file comes from: its size and time of modification, or its content. -/
inductive TokenMode where
  | stat
  | content
  deriving DecidableEq, Repr, Inhabited

structure ListOptions where
  tokenMode : TokenMode := .stat
  /-- Names that are passed over at any depth. -/
  ignore : List String := ["node_modules", ".git"]
  deriving DecidableEq, Repr, Inhabited

namespace Listing

variable {σ : Type} [Files σ]

def token (files : σ) (mode : TokenMode) (path : Path) (m : Metadata) :
    Except FileError ChangeToken :=
  match mode with
  | .stat => .ok (.stat m.size m.modified)
  | .content => (Files.read files path).map ChangeToken.ofContent

/-- The path of `name` below a directory of the listing. -/
def child (relative name : String) : String :=
  if relative.isEmpty then name else relative ++ "/" ++ name

/-- The entries of the named members of a directory and of everything below them; `depth` bounds
how deep directories nest. -/
def below (files : σ) (options : ListOptions) (root : Path) :
    (depth : Nat) → (relative : String) → Except FileError (List Entry)
  | 0, _ => .ok []
  | depth + 1, relative => do
      let dir := if relative.isEmpty then root else root.join ⟨relative⟩
      let names ← Files.names files dir
      let entries ← (names.filter (!options.ignore.contains ·)).mapM fun name =>
        let path := dir.join ⟨name⟩
        let relative := child relative name
        match Files.metadata files path with
        | .error e => if e.isNotFound then .ok [] else .error e
        | .ok m =>
            if m.isDir then
              (below files options root depth relative).map (Entry.dir relative :: ·)
            else
              (token files options.tokenMode path m).map ([Entry.file relative ·])
      pure entries.flatten

end Listing

/-- The listing of the tree below `root`. -/
def listTree {σ : Type} [Files σ] (files : σ) (root : Path) (options : ListOptions) :
    Except FileError (List Entry) :=
  if Files.isDir files root then
    (Listing.below files options root (Files.depth files + 1) "").map Entry.normalize
  else .ok []

instance : JsonForm TokenMode where
  toJson
    | .stat => "stat"
    | .content => "content"
  ofJson? v := match v.choice? with
    | some "stat" => some .stat
    | some "content" => some .content
    | _ => none

instance : JsonForm ListOptions where
  toJson o := .object [("tokenMode", toJson o.tokenMode), ("ignore", toJson o.ignore)]
  ofJson? v := do
    let r ← Record.ofJson? 2 v
    let default : ListOptions := {}
    pure {
      tokenMode := ← r.withDefault 0 "tokenMode" default.tokenMode
      ignore := ← r.withDefault 1 "ignore" default.ignore }

end VendorBundle
