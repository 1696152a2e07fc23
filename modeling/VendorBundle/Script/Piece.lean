import VendorBundle.Script.Token

/-!
# Pieces of a text

A text is read in pieces: tokens, comments and what else is no blank. A piece is told by the text
from its first character on and the text behind it.
-/

namespace VendorBundle.Script

inductive PieceKind where
  /-- The first line, when it names the interpreter. -/
  | interpreter
  | comment
  | token (token : Token)
  deriving DecidableEq, Repr

structure Piece where
  kind : PieceKind
  start : List Char
  rest : List Char
  deriving DecidableEq, Repr

/-- A token that may hold any character: a string, a stretch of a template, a regular expression or
the text of an element. -/
def Token.isLiteral : Token → Bool
  | string _ | template .. | regex | jsxText => true
  | _ => false

/-- The text begins a comment. -/
def beginsComment : List Char → Bool
  | '/' :: '/' :: _ | '/' :: '*' :: _ => true
  | _ => false

end VendorBundle.Script
