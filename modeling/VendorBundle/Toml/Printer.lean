import VendorBundle.Json
import VendorBundle.Digest

/-!
# Writing TOML text

A table is written with its values first and the tables in it after them, each under a header.
Members that are null are left out. An array with more than one item takes a line for each.
-/

namespace VendorBundle.Toml

/-! ## Strings and keys -/

/-- The longest run of a character. -/
def longestRun (c : Char) (text : List Char) : Nat :=
  (text.foldl (fun (best, run) d => if d = c then (max best (run + 1), run + 1) else (best, 0))
    (0, 0)).1

def isControl (c : Char) : Bool := c.toNat < 0x20 || c.toNat == 0x7F

/-- A character that no string can hold as it is. -/
def needsCode (c : Char) : Bool := isControl c && c != '\t' && c != '\n'

/-- The escape of a character, if it has to be escaped in a string on one line or on several. -/
def escape? (onLines : Bool) : Char → Option (List Char)
  | '\x08' => some ['\\', 'b']
  | '\t' => some ['\\', 't']
  | '\n' => if onLines then none else some ['\\', 'n']
  | '\x0C' => some ['\\', 'f']
  | '\r' => some ['\\', 'r']
  | '\\' => some ['\\', '\\']
  | c =>
      if isControl c then
        some (['\\', 'u', '0', '0'] ++ (Digest.hexByte c.toNat).map Char.toUpper)
      else none

/-- Escapes a text of which at most `quotes` quotes in a row may stand as they are. -/
def escaped (onLines : Bool) (quotes : Nat) : (run : Nat) → List Char → List Char
  | _, [] => []
  | run, c :: rest =>
      if c = '"' then
        if run < quotes then c :: escaped onLines quotes (run + 1) rest
        else '\\' :: '"' :: escaped onLines quotes 0 rest
      else
        match escape? onLines c with
        | some e => e ++ escaped onLines quotes 0 rest
        | none => c :: escaped onLines quotes 0 rest

def basic (text : List Char) : String :=
  "\"" ++ String.ofList (escaped false 0 0 text) ++ "\""

def literal (text : List Char) : String := "'" ++ String.ofList text ++ "'"

/-- A text with line ends starts on a line of its own. -/
def lead (text : List Char) : String := if text.contains '\n' then "\n" else ""

def basicLines (text : List Char) : String :=
  "\"\"\"" ++ lead text ++ String.ofList (escaped true 2 0 text) ++ "\"\"\""

def literalLines (text : List Char) : String :=
  "'''" ++ lead text ++ String.ofList text ++ "'''"

/-- A string in the simplest form that needs no escapes, if there is one. -/
def string (s : String) : String :=
  let text := s.toList
  let plain := !text.any needsCode
  let noEscape := plain && !text.contains '\\'
  let oneLine := !text.contains '\n'
  if noEscape && oneLine && !text.contains '"' then basic text
  else if plain && oneLine && !text.contains '\'' then literal text
  else if noEscape && longestRun '"' text ≤ 2 then basicLines text
  else if plain && longestRun '\'' text ≤ 2 then literalLines text
  else if oneLine then basic text
  else basicLines text

def isBare (c : Char) : Bool := c.isAlphanum || c == '_' || c == '-'

def key (k : String) : String :=
  let text := k.toList
  let plain := !text.any fun c => isControl c && c != '\t'
  if !text.isEmpty && text.all isBare then k
  else if plain && !text.contains '\\' && !text.contains '"' then basic text
  else if plain && !text.contains '\'' then literal text
  else basic text

/-! ## Values and tables -/

/-- A value that takes no header. -/
def scalar : Json → String
  | .string s => string s
  | .bool true => "true"
  | .bool false => "false"
  | .number (.integer n) => toString n
  | _ => ""

def isTable : Json → Bool
  | .object _ => true
  | _ => false

def array (items : List Json) : String :=
  match items with
  | [] => "[]"
  | [v] => "[" ++ scalar v ++ "]"
  | items => "[\n" ++ String.join (items.map fun v => "    " ++ scalar v ++ ",\n") ++ "]"

/-- The lines of the members that take no header. -/
def values (members : List (String × Json)) : List String :=
  members.filterMap fun (k, v) =>
    match v with
    | .null | .object _ => none
    | .array items =>
        if !items.isEmpty && items.all isTable then none
        else some (key k ++ " = " ++ array items ++ "\n")
    | v => some (key k ++ " = " ++ scalar v ++ "\n")

def header (path : List String) : String := "[" ++ ".".intercalate (path.map key) ++ "]\n"

def elementHeader (path : List String) : String :=
  "[[" ++ ".".intercalate (path.map key) ++ "]]\n"

/-- The header of a table is left out when only tables follow it. -/
def showsHeader (members : List (String × Json)) : Bool :=
  !(values members).isEmpty || members.all (·.2 matches .null)

mutual

/-- The sections of the tables in a value. -/
def sections (path : List String) : Json → List String
  | .object members =>
      let own := String.join (values members)
      (if showsHeader members then [header path ++ own] else []) ++ sectionsOf path members
  | .array items => elements path items
  | _ => []

def sectionsOf (path : List String) : List (String × Json) → List String
  | [] => []
  | (k, v) :: rest => sections (path ++ [k]) v ++ sectionsOf path rest

def elements (path : List String) : List Json → List String
  | [] => []
  | .object members :: rest =>
      (elementHeader path ++ String.join (values members)) :: sectionsOf path members
        ++ elements path rest
  | _ :: rest => elements path rest

end

/-- The text of a table. -/
def render (v : Json) : String :=
  match v with
  | .object members =>
      let own := String.join (values members)
      let parts := sectionsOf [] members
      "\n".intercalate (if own.isEmpty then parts else own :: parts)
  | _ => ""

end VendorBundle.Toml
