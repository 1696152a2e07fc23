import VendorBundle.Json.Parser
import VendorBundle.Toml.Document

/-!
# Reading TOML text

The grammar is that of TOML 1.0. A date or time is a table with one reserved key, and numbers that
are no integers keep only that they are none.
-/

namespace VendorBundle.Toml.Parser

abbrev Reader (α : Type) := List Char → Option (α × List Char)

def isBlank (c : Char) : Bool := c == ' ' || c == '\t'

def skipBlanks (text : List Char) : List Char := text.dropWhile isBlank

/-- A character that may stand in comments and strings. -/
def isText (c : Char) : Bool := c == '\t' || (0x20 ≤ c.toNat && c.toNat != 0x7F)

/-- What follows the end of a line. -/
def newline? : List Char → Option (List Char)
  | '\n' :: rest => some rest
  | '\r' :: '\n' :: rest => some rest
  | _ => none

/-- A comment and the blanks in front of it, both of which may be missing. -/
def skipComment (text : List Char) : List Char :=
  match skipBlanks text with
  | '#' :: rest => rest.dropWhile isText
  | rest => rest

/-- The rest of a line that holds nothing more. -/
def endLine (text : List Char) : Option (List Char) :=
  match skipComment text with
  | [] => some []
  | rest => newline? rest

/-- Blanks, comments and line ends. -/
def skipLines : Nat → List Char → List Char
  | 0, text => text
  | fuel + 1, text =>
      let rest := skipComment text
      match newline? rest with
      | some rest => skipLines fuel rest
      | none => rest

/-! ## Strings -/

/-- The character of some hexadecimal digits. -/
def codePoint (count : Nat) (text : List Char) : Option (Char × List Char) := do
  let digits := text.take count
  if digits.length < count then none
  let n ← digits.foldlM (fun n c => (Json.Parser.hexValue? c).map (n * 16 + ·)) 0
  if n < 0xD800 || (0xDFFF < n && n ≤ 0x10FFFF) then some (Char.ofNat n, text.drop count) else none

/-- The character of an escape, after the backslash. -/
def escape : Reader Char
  | 'u' :: rest => codePoint 4 rest
  | 'U' :: rest => codePoint 8 rest
  | '/' :: _ => none
  | c :: rest => (Json.Parser.simpleEscape? c).map (·, rest)
  | [] => none

/-- A string on one line after its opening quote; `done` holds what was read, last one first. -/
def basic : Nat → List Char → List Char → Option (String × List Char)
  | 0, _, _ => none
  | _ + 1, _, [] => none
  | _ + 1, done, '"' :: rest => some (String.ofList done.reverse, rest)
  | fuel + 1, done, '\\' :: rest => do
      let (c, rest) ← escape rest
      basic fuel (c :: done) rest
  | fuel + 1, done, c :: rest => if isText c then basic fuel (c :: done) rest else none

/-- The end of a string on several lines, at which up to two quotes belong to the string. -/
def closing? (quote : Char) (text : List Char) : Option (List Char × List Char) :=
  let quotes := text.takeWhile (· == quote)
  if quotes.length < 3 then none
  else some (List.replicate (min quotes.length 5 - 3) quote, text.drop (min quotes.length 5))

/-- What follows blanks and line ends. -/
def skipGap : List Char → List Char
  | '\r' :: '\n' :: rest => skipGap rest
  | c :: rest => if isBlank c || c == '\n' then skipGap rest else c :: rest
  | [] => []

/-- A backslash that ends a line takes the blanks and line ends after it away. -/
def continued? (text : List Char) : Option (List Char) :=
  (newline? (skipBlanks text)).map skipGap

/-- A string on several lines after its opening quotes; a line end of any kind reads as a line
feed. -/
def lines (quote : Char) (escapes : Bool) :
    Nat → List Char → List Char → Option (String × List Char)
  | 0, _, _ => none
  | _ + 1, _, [] => none
  | fuel + 1, done, c :: rest =>
      if c == quote then
        match closing? quote (c :: rest) with
        | some (quotes, rest) => some (String.ofList (quotes ++ done).reverse, rest)
        | none => lines quote escapes fuel (c :: done) rest
      else if c == '\\' && escapes then
        match continued? rest with
        | some rest => lines quote escapes fuel done rest
        | none => do
            let (c, rest) ← escape rest
            lines quote escapes fuel (c :: done) rest
      else if c == '\n' then lines quote escapes fuel ('\n' :: done) rest
      else if c == '\r' then
        match rest with
        | '\n' :: rest => lines quote escapes fuel ('\n' :: done) rest
        | _ => none
      else if isText c then lines quote escapes fuel (c :: done) rest
      else none

/-- A literal string on one line after its opening quote. -/
def literal (text : List Char) : Option (String × List Char) :=
  let (inner, rest) := text.span fun c => isText c && c != '\''
  match rest with
  | '\'' :: rest => some (String.ofList inner, rest)
  | _ => none

/-- Strings on several lines may begin with a line end that is not part of them. -/
def afterNewline (text : List Char) : List Char := (newline? text).getD text

def string (size : Nat) : Reader String
  | '"' :: '"' :: '"' :: rest => lines '"' true size [] (afterNewline rest)
  | '\'' :: '\'' :: '\'' :: rest => lines '\'' false size [] (afterNewline rest)
  | '"' :: rest => basic size [] rest
  | '\'' :: rest => literal rest
  | _ => none

/-! ## Keys -/

def isBare (c : Char) : Bool := c.isAlphanum || c == '_' || c == '-'

def simpleKey (size : Nat) : Reader String
  | '"' :: rest => basic size [] rest
  | '\'' :: rest => literal rest
  | text =>
      match text.span isBare with
      | ([], _) => none
      | (name, rest) => some (String.ofList name, rest)

/-- Keys between dots; fewer than 80 of them. -/
def dotted (size : Nat) : (parts : Nat) → Reader (List String)
  | 0, _ => none
  | parts + 1, text => do
      let (key, rest) ← simpleKey size (skipBlanks text)
      match skipBlanks rest with
      | '.' :: rest =>
          let (keys, rest) ← dotted size parts rest
          some (key :: keys, rest)
      | rest => some ([key], rest)

/-- A dotted key as the path to a table and the last key. -/
def path (size : Nat) (text : List Char) : Option ((List String × String) × List Char) := do
  let (keys, rest) ← dotted size 79 text
  let last ← keys.getLast?
  some ((keys.dropLast, last), rest)

/-! ## Numbers -/

/-- The rest of a run of digits, between which single underscores may stand; the digits come
without them. -/
def digitsTail (isDigit : Char → Bool) : List Char → List Char × List Char
  | '_' :: c :: rest =>
      if isDigit c then
        let (ds, rest) := digitsTail isDigit rest
        (c :: ds, rest)
      else ([], '_' :: c :: rest)
  | c :: rest =>
      if isDigit c then
        let (ds, rest) := digitsTail isDigit rest
        (c :: ds, rest)
      else ([], c :: rest)
  | [] => ([], [])

def digits (isDigit : Char → Bool) : Reader (List Char)
  | c :: rest =>
      if isDigit c then
        let (ds, rest) := digitsTail isDigit rest
        some (c :: ds, rest)
      else none
  | [] => none

/-- Decimal digits of which the first is zero only if it is the only one. -/
def decimal : Reader (List Char)
  | '0' :: rest => some (['0'], rest)
  | text => digits Char.isDigit text

/-- An integer of 64 bits. -/
def integer (n : Int) (rest : List Char) : Option (Json × List Char) :=
  let limit : Int := (UInt64.size / 2 : Nat)
  if -limit ≤ n && n < limit then some (.number (.integer n), rest) else none

/-- An integer in another base, after its mark. -/
def based (base : Nat) (isDigit : Char → Bool) (text : List Char) : Option (Json × List Char) := do
  let (ds, rest) ← digits isDigit text
  let n ← ds.foldlM (fun n c => (Json.Parser.hexValue? c).map (n * base + ·)) 0
  integer n rest

/-- What follows the dot or exponent of a number that has one. -/
def fraction? (text : List Char) : Option ((List Char × Int) × List Char) :=
  match text with
  | '.' :: rest => do
      let (ds, rest) ← digits Char.isDigit rest
      match rest with
      | 'e' :: rest | 'E' :: rest =>
          let (e, rest) ← exponent rest
          some ((ds, e), rest)
      | rest => some ((ds, 0), rest)
  | 'e' :: rest | 'E' :: rest => do
      let (e, rest) ← exponent rest
      some (([], e), rest)
  | _ => none
where
  exponent (text : List Char) : Option (Int × List Char) := do
    let (negative, text) := match text with
      | '-' :: rest => (true, rest)
      | '+' :: rest => (false, rest)
      | rest => (false, rest)
    let (ds, rest) ← digits Char.isDigit text
    let n : Int := Json.Parser.ofDigits ds
    some (if negative then -n else n, rest)

/-- A number after its sign. -/
def unsigned (negative : Bool) (text : List Char) : Option (Json × List Char) := do
  let (ds, rest) ← decimal text
  let hasFraction := match rest with
    | '.' :: _ | 'e' :: _ | 'E' :: _ => true
    | _ => false
  if hasFraction then
    let ((more, e), rest) ← fraction? rest
    let mantissa := Json.Parser.ofDigits (ds ++ more)
    let scale := e - more.length
    if !negative && Json.Parser.overflows mantissa scale then none
    else some (.number (.decimal (if negative then -(mantissa : Int) else mantissa) scale), rest)
  else
    let n : Int := Json.Parser.ofDigits ds
    integer (if negative then -n else n) rest

/-- The values that are no finite numbers. -/
def special : Reader Json
  | 'i' :: 'n' :: 'f' :: rest => some (.number (.decimal 0 0), rest)
  | 'n' :: 'a' :: 'n' :: rest => some (.number (.decimal 0 0), rest)
  | _ => none

/-! ## Dates and times -/

/-- A number of two digits within bounds. -/
def twoDigits (low high : Nat) : Reader Nat
  | a :: b :: rest =>
      if a.isDigit && b.isDigit then
        let n := Json.Parser.ofDigits [a, b]
        if low ≤ n && n ≤ high then some (n, rest) else none
      else none
  | _ => none

def mark (c : Char) : List Char → Option (List Char)
  | d :: rest => if c = d then some rest else none
  | [] => none

def daysIn (year month : Nat) : Nat :=
  if month = 2 then
    if year % 4 = 0 && (year % 100 != 0 || year % 400 = 0) then 29 else 28
  else if [4, 6, 9, 11].contains month then 30
  else 31

def date (text : List Char) : Option (List Char) := do
  let year := text.take 4
  if !(year.length == 4 && year.all Char.isDigit) then none
  let rest ← mark '-' (text.drop 4)
  let (month, rest) ← twoDigits 1 12 rest
  let rest ← mark '-' rest
  let (_, rest) ← twoDigits 1 (daysIn (Json.Parser.ofDigits year) month) rest
  some rest

def time (text : List Char) : Option (List Char) := do
  let (_, rest) ← twoDigits 0 23 text
  let rest ← mark ':' rest
  let (_, rest) ← twoDigits 0 59 rest
  let rest ← mark ':' rest
  let (_, rest) ← twoDigits 0 60 rest
  match rest with
  | '.' :: c :: rest => if c.isDigit then some (rest.dropWhile Char.isDigit) else none
  | rest => some rest

def offset (text : List Char) : Option (List Char) :=
  match text with
  | 'Z' :: rest | 'z' :: rest => some rest
  | '+' :: rest | '-' :: rest => do
      let (_, rest) ← twoDigits 0 23 rest
      let rest ← mark ':' rest
      let (_, rest) ← twoDigits 0 59 rest
      some rest
  | rest => some rest

/-- What follows a date and a time, or one of them. -/
def dateTime (text : List Char) : Option (List Char) :=
  match date text with
  | some rest =>
      match rest with
      | 'T' :: rest | 't' :: rest => (time rest).bind offset
      | ' ' :: c :: more => if c.isDigit then (time (c :: more)).bind offset else some rest
      | rest => some rest
  | none => time text

/-- The key of a table that stands for a date or time. -/
def dateKey : String := "$__toml_private_datetime"

/-- The text begins like a date or a time. -/
def isDate (text : List Char) : Bool :=
  ((text.take 4).all Char.isDigit && text[4]? == some '-')
    || ((text.take 2).all Char.isDigit && text[2]? == some ':')

def number (text : List Char) : Option (Json × List Char) :=
  if isDate text then
    (dateTime text).map fun rest =>
      (.object [(dateKey, .string (String.ofList (text.take (text.length - rest.length))))], rest)
  else
    match text with
    | '0' :: 'x' :: rest => based 16 (fun c => (Json.Parser.hexValue? c).isSome) rest
    | '0' :: 'o' :: rest => based 8 (fun c => '0' ≤ c && c ≤ '7') rest
    | '0' :: 'b' :: rest => based 2 (fun c => c == '0' || c == '1') rest
    | '+' :: rest => (special rest).or (unsigned false rest)
    | '-' :: rest => (special rest).or (unsigned true rest)
    | rest => (special rest).or (unsigned false rest)

/-! ## Values -/

/-- The items of an array after its opening bracket. -/
def items (size : Nat) (value : Reader Json) :
    Nat → List Json → List Char → Option (List Json × List Char)
  | 0, _, _ => none
  | fuel + 1, done, text =>
      match skipLines size text with
      | ']' :: rest => some (done.reverse, rest)
      | rest => do
          let (v, rest) ← value rest
          match skipLines size rest with
          | ',' :: rest => items size value fuel (v :: done) rest
          | ']' :: rest => some ((v :: done).reverse, rest)
          | _ => none

/-- A key, an equals sign and a value. -/
def pair (size : Nat) (value : Reader Json) (text : List Char) :
    Option ((List String × String × Json) × List Char) := do
  let ((path, key), rest) ← path size text
  let rest ← mark '=' rest
  let (v, rest) ← value (skipBlanks rest)
  some ((path, key, v), rest)

/-- The pairs of a table on one line, after its opening bracket and up to the closing one. -/
def pairs (size : Nat) (value : Reader Json) :
    Nat → Entries → List Char → Option (Entries × List Char)
  | 0, _, _ => none
  | fuel + 1, entries, text => do
      let ((path, key, v), rest) ← pair size value text
      let entries ← entries.addTo path key v .header
      match skipBlanks rest with
      | ',' :: rest => pairs size value fuel entries rest
      | '\x7d' :: rest => some (entries, rest)
      | _ => none

/-- A value that nests less than `depth` deep; `size` bounds the number of items in any list. -/
def value (size : Nat) : Nat → Reader Json
  | 0, _ => none
  | depth + 1, text =>
      match text with
      | '"' :: _ | '\'' :: _ => (string size text).map fun p => (.string p.1, p.2)
      | '[' :: rest =>
          (items size (value size depth) size [] rest).map fun p => (.array p.1, p.2)
      | '\x7b' :: rest =>
          match skipBlanks rest with
          | '\x7d' :: rest => some (.object [], rest)
          | rest =>
              (pairs size (value size depth) size [] rest).map fun p =>
                (.object (membersOf p.1), p.2)
      | 't' :: 'r' :: 'u' :: 'e' :: rest => some (.bool true, rest)
      | 'f' :: 'a' :: 'l' :: 's' :: 'e' :: rest => some (.bool false, rest)
      | text => number text

/-! ## Documents -/

/-- What was read of a document: its tables, and the path of the current one. -/
structure State where
  entries : Entries := []
  current : List String := []

/-- One expression: a header, or a key with its value. -/
def expression (size : Nat) (s : State) (text : List Char) : Option (State × List Char) :=
  match text with
  | '[' :: '[' :: rest => do
      let ((path, key), rest) ← path size rest
      let rest ← (mark ']' rest).bind (mark ']')
      let entries ← s.entries.openElement path key
      some (⟨entries, path ++ [key]⟩, rest)
  | '[' :: rest => do
      let ((path, key), rest) ← path size rest
      let rest ← mark ']' rest
      let entries ← s.entries.openTable path key
      some (⟨entries, path ++ [key]⟩, rest)
  | text => do
      let ((path, key, v), rest) ← pair size (value size 80) text
      let entries ← s.entries.add s.current path key v
      some ({ s with entries }, rest)

/-- The lines of a document. -/
def document (size : Nat) : Nat → State → List Char → Option Entries
  | 0, _, _ => none
  | fuel + 1, s, text =>
      match skipLines size text with
      | [] => some s.entries
      | rest => do
          let (s, rest) ← expression size s rest
          let rest ← endLine rest
          document size fuel s rest

end VendorBundle.Toml.Parser

namespace VendorBundle.Toml

/-- The table that a text describes. -/
def parse? (text : String) : Option Json :=
  let chars := match text.toList with
    | '\uFEFF' :: rest => rest
    | chars => chars
  let size := chars.length + 2
  (Parser.document size size {} chars).map fun entries => .object (membersOf entries)

end VendorBundle.Toml
