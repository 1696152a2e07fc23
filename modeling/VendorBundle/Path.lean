import VendorBundle.Text

/-!
# Paths

A path keeps the text it was written with, so a doubled or trailing slash survives joining and
printing. What it denotes is its list of components, in which empty segments and `.` segments other
than a leading one do not show.
-/

namespace VendorBundle

/-- A slash-separated path, as written. -/
structure Path where
  text : String
  deriving DecidableEq, Inhabited, Repr

namespace Path

instance : Coe String Path := ⟨Path.mk⟩

/-- What one segment of a path stands for. -/
inductive Component where
  | root
  | here
  | up
  | name (text : String)
  deriving DecidableEq, Repr

/-- A segment that adds no component: an empty one or a dot. -/
def isBlank (segment : List Char) : Bool := segment == [] || segment == ['.']

def isAbsolute (p : Path) : Bool :=
  match p.text.toList with
  | '/' :: _ => true
  | _ => false

/-- The text in front of the segments (a leading slash, or a leading dot that is a segment of its
own) and the segments after it. -/
def parts (p : Path) : List Char × List (List Char) :=
  match p.text.toList with
  | '/' :: rest => (['/'], Text.pieces '/' rest)
  | ['.'] => (['.'], [[]])
  | '.' :: '/' :: rest => (['.'], Text.pieces '/' ('/' :: rest))
  | rest => ([], Text.pieces '/' rest)

def Component.ofSegment (segment : List Char) : Component :=
  if segment = ['.', '.'] then .up else .name (String.ofList segment)

def Component.ofLead : List Char → List Component
  | '/' :: _ => [.root]
  | '.' :: _ => [.here]
  | _ => []

def components (p : Path) : List Component :=
  Component.ofLead p.parts.1 ++ (p.parts.2.filter (!isBlank ·)).map Component.ofSegment

/-- Two paths denote the same place. -/
def same (p q : Path) : Bool := p.components == q.components

/-! ## Joining -/

/-- Continues `p` with `q`; an absolute `q` replaces `p`, and an empty one adds a slash. -/
def join (p q : Path) : Path :=
  if q.isAbsolute then q
  else match p.text.toList.getLast? with
    | none => q
    | some '/' => ⟨p.text ++ q.text⟩
    | some _ => ⟨p.text ++ "/" ++ q.text⟩

/-- The path with `suffix` written directly after it. -/
def extend (p : Path) (suffix : String) : Path := ⟨p.text ++ suffix⟩

/-! ## Ancestors -/

def ofParts (lead : List Char) (segments : List (List Char)) : Path :=
  ⟨String.ofList (lead ++ ['/'].intercalate segments)⟩

/-- The remaining segments, last one first, after each component is taken off the end. -/
def shortened : List (List Char) → List (List (List Char))
  | [] => []
  | segment :: rest =>
      if isBlank segment then shortened rest
      else rest.dropWhile isBlank :: shortened rest

/-- The path itself, then what is left after taking components off its end one by one. -/
def ancestors (p : Path) : List Path :=
  let (lead, segments) := p.parts
  p :: ((shortened segments.reverse).map (fun r => ofParts lead r.reverse)
    ++ (if lead = ['.'] then [⟨""⟩] else []))

/-- The path without its last component; the root and the empty path have none. -/
def parent? (p : Path) : Option Path := p.ancestors[1]?

/-- The last component, when it is a name. -/
def fileName? (p : Path) : Option String :=
  match p.components.getLast? with
  | some (.name text) => some text
  | _ => none

/-- What follows the last dot of the file name, unless the name has no other dot than a leading
one. -/
def extension? (p : Path) : Option String :=
  p.fileName?.bind fun name =>
    match Text.cutLast? '.' name.toList with
    | some ([], _) => none
    | some (_, rest) => some (String.ofList rest)
    | none => none

/-- `q` lies at or below `p`. -/
def contains (p q : Path) : Bool := p.components.isPrefixOf q.components

/-! ## Cleaning -/

/-- Takes a component off a reversed list of kept components. -/
def cleanStep (kept : List Component) : Component → List Component
  | .here => kept
  | .up =>
      match kept with
      | .root :: _ => kept
      | .name _ :: rest => rest
      | _ => .up :: kept
  | c => c :: kept

def Component.text : Component → String
  | .root => "/"
  | .here => "."
  | .up => ".."
  | .name text => text

def ofComponents (cs : List Component) : Path :=
  cs.foldl (fun p c => p.join ⟨c.text⟩) ⟨""⟩

/-- The shortest path with the same meaning as long as no component is a link. -/
def clean (p : Path) : Path :=
  match (p.components.foldl cleanStep []).reverse with
  | [] => ⟨"."⟩
  | cs => ofComponents cs

/-- The names on the way from the root of a tree without links, reading a relative path as one
below the root. -/
def resolved (p : Path) : List String :=
  (p.components.foldl
    (fun kept c => match c with
      | .name text => text :: kept
      | .up => kept.tail
      | _ => kept)
    ([] : List String)).reverse

end Path

end VendorBundle
