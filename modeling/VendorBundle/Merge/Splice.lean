import VendorBundle.Text
import VendorBundle.Text.Blank

/-!
# Splicing text into a file

Fragments are added at the end of a text, but in front of a comment that names its source map when
nothing else than blanks follows that comment.
-/

namespace VendorBundle

namespace Splice

/-- What follows the first end of a block comment. -/
def afterBlock? : List Char → Option (List Char)
  | '*' :: '/' :: rest => some rest
  | _ :: rest => afterBlock? rest
  | [] => none

/-- What is left of a text after the end of its first line, or nothing. -/
def afterLine (text : List Char) : List Char := text.dropWhile fun c => c != '\r' && c != '\n'

/-- What follows an optional mark, blanks and the keyword of a source map. -/
def afterKeyword? (text : List Char) : Option (List Char) :=
  let unmarked := match text with
    | '#' :: rest | '@' :: rest => rest
    | text => text
  Text.stripStart? "sourceMappingURL=".toList
    (unmarked.dropWhile fun c => c == ' ' || c == '\t')

/-- What follows a source map comment that a text begins with. -/
def afterComment? : List Char → Option (List Char)
  | '/' :: '*' :: rest => (afterKeyword? rest).bind afterBlock?
  | '/' :: '/' :: rest => (afterKeyword? rest).map afterLine
  | _ => none

/-- A text is a source map comment and blanks. -/
def isTail (text : List Char) : Bool := (afterComment? text).any (·.all Text.isSpace)

/-- The longest end of a text that is a source map comment and blanks, if there is one. -/
def tail? : List Char → Option (List Char)
  | [] => none
  | c :: rest => if isTail (c :: rest) then some (c :: rest) else tail? rest

/-- Each fragment with the separator in front of it. -/
def separated (separator : String) (fragments : List String) : String :=
  String.join (fragments.map (separator ++ ·))

end Splice

/-- A text with fragments added, in front of the source map comment at its end. -/
def splice (text : String) (fragments : List String) (separator : String) : String :=
  let chars := text.toList
  match Splice.tail? chars with
  | some tail =>
      String.ofList (chars.take (chars.length - tail.length))
        ++ Splice.separated separator fragments ++ "\n" ++ String.ofList tail
  | none => text ++ Splice.separated separator fragments

/-- What stands between the pieces of a file with the given extension. -/
def separatorFor (extension : String) : String :=
  if ["js", "mjs", "cjs"].contains extension then ";\n" else "\n"

end VendorBundle
