/-!
# Tokens

Words are kept apart from the meaning a place gives them: a keyword is a word, and the grammar says
where it is one.
-/

namespace VendorBundle.Script

inductive Token where
  /-- A name or keyword; one that is written with an escape is never a keyword. -/
  | word (name : String) (escaped : Bool)
  | privateName (name : String)
  | punct (text : String)
  | string (value : String)
  | number
  | bigint
  /-- A stretch of a template, and whether a substitution follows it; one with a bad escape has no
  value. -/
  | template (value : Option String) (more : Bool)
  | regex
  | jsxText
  /-- Text that is no token. -/
  | invalid
  | done
  deriving DecidableEq, Repr, Inhabited

/-- Words that name nothing in any program. -/
def reservedWords : List String := [
  "break", "case", "catch", "class", "const", "continue", "debugger", "default", "delete", "do",
  "else", "enum", "export", "extends", "false", "finally", "for", "function", "if", "import", "in",
  "instanceof", "new", "null", "return", "super", "switch", "this", "throw", "true", "try",
  "typeof", "var", "void", "while", "with"]

/-- Words that are reserved in the code of modules only. -/
def strictWords : List String := [
  "implements", "interface", "let", "package", "private", "protected", "public", "static"]

def isReserved (name : String) : Bool := reservedWords.contains name

def assignmentOperators : List String := [
  "=", "+=", "-=", "*=", "**=", "/=", "%=", "<<=", ">>=", ">>>=", "&=", "|=", "^=", "&&=", "||=",
  "??="]

/-- How tightly an operator binds, if it stands between two operands. -/
def precedence? : Token → Option Nat
  | .punct text =>
      match text with
      | "??" => some 2
      | "||" => some 3
      | "&&" => some 4
      | "|" => some 5
      | "^" => some 6
      | "&" => some 7
      | "==" | "!=" | "===" | "!==" => some 8
      | "<" | ">" | "<=" | ">=" => some 9
      | "<<" | ">>" | ">>>" => some 10
      | "+" | "-" => some 11
      | "*" | "/" | "%" => some 12
      | "**" => some 13
      | _ => none
  | .word "instanceof" false | .word "in" false => some 9
  | _ => none

def logicalOperators : List String := ["??", "||", "&&"]

end VendorBundle.Script
