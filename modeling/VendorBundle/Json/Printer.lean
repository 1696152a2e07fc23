import VendorBundle.Json
import VendorBundle.Digest

/-!
# Writing JSON text

Two layouts: everything on one line, and one item to a line with two blanks for each level, where
an empty list is still written on one line.
-/

namespace VendorBundle.Json

def escape (c : Char) : List Char :=
  match c with
  | '"' => ['\\', '"']
  | '\\' => ['\\', '\\']
  | '\x08' => ['\\', 'b']
  | '\x0C' => ['\\', 'f']
  | '\n' => ['\\', 'n']
  | '\r' => ['\\', 'r']
  | '\t' => ['\\', 't']
  | c => if c.toNat < 0x20 then ['\\', 'u', '0', '0'] ++ Digest.hexByte c.toNat else [c]

def quote (s : String) : String :=
  String.ofList ('"' :: s.toList.flatMap escape ++ ['"'])

def Number.text : Number → String
  | .integer n => toString n
  | .decimal m e => s!"{m}e{e}"

def joinComma (items : List String) : String := ",".intercalate items

mutual

/-- The value on one line, with no blanks. -/
def render : Json → String
  | .null => "null"
  | .bool true => "true"
  | .bool false => "false"
  | .number n => n.text
  | .string s => quote s
  | .array items => "[" ++ joinComma (renderItems items) ++ "]"
  | .object members => "\x7b" ++ joinComma (renderMembers members) ++ "\x7d"

def renderItems : List Json → List String
  | [] => []
  | v :: rest => render v :: renderItems rest

def renderMembers : List (String × Json) → List String
  | [] => []
  | (k, v) :: rest => (quote k ++ ":" ++ render v) :: renderMembers rest

end

def indent (level : Nat) : String := String.ofList (List.replicate (2 * level) ' ')

/-- Brackets around items that stand on lines of their own. -/
def block (level : Nat) (opening closing : String) : List String → String
  | [] => opening ++ closing
  | items =>
      opening ++ "\n" ++ ",\n".intercalate (items.map (indent (level + 1) ++ ·)) ++ "\n"
        ++ indent level ++ closing

mutual

/-- The value at the given level of indentation. -/
def prettyAt (level : Nat) : Json → String
  | .array items => block level "[" "]" (prettyItems (level + 1) items)
  | .object members => block level "\x7b" "\x7d" (prettyMembers (level + 1) members)
  | v => render v

def prettyItems (level : Nat) : List Json → List String
  | [] => []
  | v :: rest => prettyAt level v :: prettyItems level rest

def prettyMembers (level : Nat) : List (String × Json) → List String
  | [] => []
  | (k, v) :: rest => (quote k ++ ": " ++ prettyAt level v) :: prettyMembers level rest

end

def pretty (v : Json) : String := prettyAt 0 v

end VendorBundle.Json
