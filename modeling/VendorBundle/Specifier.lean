import VendorBundle.Text

/-!
# Import specifiers

A specifier is a URL, a path that is local to the importing file, or the name of a package with an
optional path inside it. The kind is read off the text alone.
-/

namespace VendorBundle

inductive Specifier where
  | url
  | localPath
  | package (name : String) (subpath : Option String)
  deriving DecidableEq, Repr

namespace Specifier

def isSchemeChar (c : Char) : Bool := c.isAlphanum || c == '+' || c == '.' || c == '-'

/-- The text begins with a URL scheme and its colon. -/
def hasScheme : List Char → Bool
  | c :: rest => c.isAlpha && (rest.dropWhile isSchemeChar).head? == some ':'
  | [] => false

def isUrl : List Char → Bool
  | '/' :: '/' :: _ => true
  | text => hasScheme text

def isLocal : List Char → Bool
  | '.' :: '/' :: _ => true
  | '.' :: '.' :: '/' :: _ => true
  | '/' :: _ => true
  | _ => false

/-- The package name and the text after the slash that ends it; the first slash of a scoped name
belongs to the name. -/
def splitPackage (text : List Char) : List Char × Option (List Char) :=
  match text with
  | '@' :: _ =>
      match Text.cut? '/' text with
      | none => (text, none)
      | some (scope, rest) =>
          match Text.cut? '/' rest with
          | none => (text, none)
          | some (name, rest) => (scope ++ '/' :: name, some rest)
  | _ =>
      match Text.cut? '/' text with
      | none => (text, none)
      | some (name, rest) => (name, some rest)

def ofText (text : String) : Specifier :=
  let chars := text.toList
  if isUrl chars then .url
  else if isLocal chars then .localPath
  else
    let (name, rest) := splitPackage chars
    .package (String.ofList name)
      ((rest.filter (!·.isEmpty)).map String.ofList)

/-- The package that a specifier names, if it names one. -/
def packageName? (text : String) : Option String :=
  match ofText text with
  | .package name _ => some name
  | _ => none

/-- The leading text of a template pins down a package: it holds a whole package name and the
slash after it. -/
def isPrecise (text : String) : Bool :=
  match text.toList with
  | '@' :: rest =>
      match Text.cut? '/' rest with
      | some (_ :: _, rest) =>
          match Text.cut? '/' rest with
          | some (_ :: _, _) => true
          | _ => false
      | _ => false
  | rest =>
      match Text.cut? '/' rest with
      | some (_ :: _, _) => true
      | _ => false

end Specifier

end VendorBundle
