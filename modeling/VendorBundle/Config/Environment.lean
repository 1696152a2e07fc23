import VendorBundle.Json.Overlay
import VendorBundle.Text.Blank
import VendorBundle.Text.Number
import VendorBundle.Toml.Parser

/-!
# Settings from environment variables

A variable whose name begins with `AUTODEP_`, in any case, sets one value of the configuration: the
rest of its name is the path of keys to it, where two underscores or a dot stand between keys. Its
text is read as a value where it is one, and is a string otherwise.
-/

namespace VendorBundle.Environment

/-! ## Values -/

abbrev Reader (α : Type) := List Char → Option (α × List Char)

def isSpace (c : Char) : Bool :=
  c == ' ' || c == '\t' || c == '\n' || c == '\x0C' || c == '\r'

def skipSpace (text : List Char) : List Char := text.dropWhile isSpace

/-- A character that ends a value without quotes. -/
def isMark (c : Char) : Bool := [',', '\x7b', '\x7d', '[', ']'].contains c

def isKeyChar (c : Char) : Bool := c.isAlphanum || c == '_' || c == '-'

/-- An integer that fits in 64 bits with or without a sign bit. -/
def integer? : List Char → Option Int
  | '-' :: digits => (Text.digitsBelow? (UInt64.size / 2 + 1) digits).map fun n => -(n : Int)
  | text => (Text.word? text).map Int.ofNat

/-- The exponent of a decimal, which may be missing. -/
def isExponent : List Char → Bool
  | [] => true
  | 'e' :: rest | 'E' :: rest =>
      let digits := match rest with
        | '+' :: rest | '-' :: rest => rest
        | rest => rest
      !digits.isEmpty && digits.all Char.isDigit
  | _ => false

/-- A decimal with a dot and at least one digit beside it. -/
def isDecimal (text : List Char) : Bool :=
  let unsigned := match text with
    | '+' :: rest | '-' :: rest => rest
    | rest => rest
  let (whole, rest) := unsigned.span Char.isDigit
  match rest with
  | '.' :: rest =>
      let (fraction, rest) := rest.span Char.isDigit
      !(whole.isEmpty && fraction.isEmpty) && isExponent rest
  | _ => false

/-- A value without quotes, of which a number with a dot keeps only that it is none of the
integers. -/
def plain (text : List Char) : Json :=
  if isDecimal text then .number (.decimal 0 0)
  else match integer? text with
    | some n => .number (.integer n)
    | none => .string (String.ofList text)

def key (size : Nat) : Reader String
  | '"' :: rest => Toml.Parser.basic size [] rest
  | text =>
      match text.span isKeyChar with
      | ([], _) => none
      | (name, rest) => some (String.ofList name, rest)

/-- A key, an equals sign and a value. -/
def pair (size : Nat) (value : Reader Json) (text : List Char) :
    Option ((String × Json) × List Char) := do
  let (k, rest) ← key size (skipSpace text)
  match skipSpace rest with
  | '=' :: rest =>
      let (v, rest) ← value rest
      some ((k, v), rest)
  | _ => none

/-- Items between commas up to the closing mark, in front of which a comma may stand. -/
def items {α : Type} (closing : Char) (item : Reader α) :
    Nat → List α → List Char → Option (List α × List Char)
  | 0, _, _ => none
  | fuel + 1, done, text =>
      match text with
      | [] => none
      | c :: rest =>
          if c = closing then some (done.reverse, rest)
          else do
            let (a, rest) ← item text
            match rest with
            | ',' :: rest => items closing item fuel (a :: done) rest
            | c :: rest => if c = closing then some ((a :: done).reverse, rest) else none
            | [] => none

/-- A value between blanks that nests less than `depth` deep; `size` bounds the number of items in
any list. -/
def value (size : Nat) : Nat → Reader Json
  | 0, _ => none
  | depth + 1, text => do
      let (v, rest) ←
        match skipSpace text with
        | 't' :: 'r' :: 'u' :: 'e' :: rest => some (.bool true, rest)
        | 'f' :: 'a' :: 'l' :: 's' :: 'e' :: rest => some (.bool false, rest)
        | '\x7b' :: rest =>
            (items '\x7d' (pair size (value size depth)) size [] rest).map
              fun p => (.object p.1, p.2)
        | '[' :: rest =>
            (items ']' (value size depth) size [] rest).map fun p => (.array p.1, p.2)
        | '"' :: rest => (Toml.Parser.basic size [] rest).map fun p => (.string p.1, p.2)
        | '\'' :: c :: '\'' :: rest => some (.string (String.singleton c), rest)
        | '\'' :: _ => none
        | rest =>
            let (inner, rest) := rest.span (!isMark ·)
            some (plain (Text.trim inner), rest)
      some (v, skipSpace rest)

/-- The value of a whole text. -/
def valueOf (text : String) : Json :=
  let chars := text.toList
  match value (chars.length + 1) (chars.length + 1) chars with
  | some (v, []) => v
  | _ => .string text

/-! ## Names -/

/-- What names of settings begin with, in lower case. -/
def nameStart : List Char := "autodep_".toList

/-- The keys that two underscores or a dot separate. -/
def keysOf : List Char → List (List Char)
  | '_' :: '_' :: rest | '.' :: rest => [] :: keysOf rest
  | c :: rest =>
      match keysOf rest with
      | [] => [[c]]
      | word :: words => (c :: word) :: words
  | [] => [[]]

/-- The path of keys that a variable sets; none if it sets nothing. -/
def keys? (name : String) : Option (List String) :=
  match Text.stripStart? nameStart (Text.trim (name.toList.map Char.toLower)) with
  | none => none
  | some rest =>
      let keys := keysOf (Text.trim rest)
      if keys.any List.isEmpty then none else some (keys.map String.ofList)

/-- What the variables set, later ones over earlier ones. -/
def settings (environment : List (String × String)) : Json :=
  environment.foldl
    (fun seen (name, text) => match keys? name with
      | some keys => seen.overlay (.nest (valueOf text) keys)
      | none => seen)
    (.object [])

end VendorBundle.Environment
