import VendorBundle.Text.Number

/-!
# Versions

A version is a list of release parts with an optional list of prerelease parts; build metadata is
dropped. Any text is a version, and the order is total: parts that are numbers compare by value,
other parts as texts, a missing part is smaller, and a prerelease comes before its release.
-/

namespace VendorBundle

/-- One dot-separated part: a number below `2 ^ 64`, or any other text. -/
inductive VersionPart where
  | number (value : Nat)
  | text (value : String)
  deriving DecidableEq, Repr

namespace VersionPart

def ofText (text : String) : VersionPart :=
  match Text.word? text.toList with
  | some n => number n
  | none => VersionPart.text text

/-- The order of two parts, where `mixed` is the order of a number and another text. -/
def compareWith (mixed : Ordering) : VersionPart → VersionPart → Ordering
  | number a, number b => compare a b
  | number _, text _ => mixed
  | text _, number _ => mixed.swap
  | text a, text b => compare a b

end VersionPart

structure Version where
  release : List VersionPart
  prerelease : Option (List VersionPart)
  deriving DecidableEq, Repr

namespace Version

def parts (text : List Char) : List VersionPart :=
  (Text.pieces '.' text).map fun part => VersionPart.ofText (String.ofList part)

def ofText (text : String) : Version :=
  let core := match Text.cut? '+' text.toList with
    | some (core, _) => core
    | none => text.toList
  match Text.cut? '-' core with
  | some (release, prerelease) => ⟨parts release, some (parts prerelease)⟩
  | none => ⟨parts core, none⟩

/-- Part by part; where one list ends first, it is smaller. -/
def compareParts (mixed : Ordering) : List VersionPart → List VersionPart → Ordering
  | [], [] => .eq
  | [], _ :: _ => .lt
  | _ :: _, [] => .gt
  | a :: as, b :: bs => (VersionPart.compareWith mixed a b).then (compareParts mixed as bs)

/-- A release comes after its prereleases. -/
def comparePrereleases : Option (List VersionPart) → Option (List VersionPart) → Ordering
  | none, none => .eq
  | none, some _ => .gt
  | some _, none => .lt
  | some a, some b => compareParts .lt a b

/-- Of a number and another text, the number is greater in a release and smaller in a
prerelease. -/
def compare (a b : Version) : Ordering :=
  (compareParts .gt a.release b.release).then (comparePrereleases a.prerelease b.prerelease)

end Version

/-- The order of two versions given as texts. -/
def compareVersions (a b : String) : Ordering := (Version.ofText a).compare (Version.ofText b)

end VendorBundle
