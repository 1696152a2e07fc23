import VendorBundle.Files
import VendorBundle.Json.Codec
import VendorBundle.Json.Parser

/-!
# Package manifests

A manifest is a `package.json`. It declares a name, a version and, in fields that the resolver is
told to look at, the entry files of the package.
-/

namespace VendorBundle

structure Manifest where
  name : Option String
  version : Option String
  /-- All other members of the object. -/
  fields : List (String × Json)
  path : Path

/-- Why a package specifier leads nowhere. -/
inductive ResolveError where
  | entryNotFound (specifier : String) (packageDir source : Path)
  | manifestTooLarge (path : Path)
  | manifestMalformed (path : Path)
  | file (error : FileError)
  deriving DecidableEq, Repr

namespace Manifest

def maxSize : UInt64 := 10 * 1024 * 1024

/-- A text member that may be missing or null but not repeated. -/
def textMember (key : String) (members : List (String × Json)) : Option (Option String) :=
  match members.filter (·.1 == key) with
  | [] | [(_, .null)] => some none
  | [(_, .string s)] => some (some s)
  | _ => none

def ofJson? (path : Path) : Json → Option Manifest
  | .object members => do
      pure {
        name := ← textMember "name" members
        version := ← textMember "version" members
        fields := members.filter fun m => m.1 != "name" && m.1 != "version"
        path }
  | _ => none

def load {σ : Type} [Files σ] (files : σ) (path : Path) : Except ResolveError Manifest := do
  let metadata ← (Files.metadata files path).mapError .file
  if metadata.size > maxSize then .error (.manifestTooLarge path)
  else
    let text ← (Files.readText files path).mapError .file
    match (Json.parse? text).bind (ofJson? path) with
    | some manifest => .ok manifest
    | none => .error (.manifestMalformed path)

/-- The text of an entry field; empty texts and other values count as absent. -/
def entryField? (m : Manifest) (field : String) : Option String :=
  ((Json.lookup field m.fields).bind Json.string?).filter (!·.isEmpty)

end Manifest

/-- The message of an error; the wording for a malformed manifest belongs to the JSON reader. -/
def ResolveError.message? : ResolveError → Option String
  | entryNotFound specifier packageDir source =>
      some s!"Could not resolve an entry for '{specifier}' in '{packageDir.text}' (from '{source.text}')"
  | manifestTooLarge path =>
      some s!"Invalid package.json at '{path.text}': exceeds maximum size of 10MB"
  | manifestMalformed _ => none
  | file e => some e.message

end VendorBundle
