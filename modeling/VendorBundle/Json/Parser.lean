import VendorBundle.Json

/-!
# Reading JSON text

The grammar is that of the JSON standard with no extension: no comments, no trailing commas, no byte
order mark. Values nest at most 127 deep, a string holds no lone surrogate, and a decimal that no
double can approximate is refused.
-/

namespace VendorBundle.Json.Parser

/-- A reader takes a value off the front of the text, or fails. -/
abbrev Reader (α : Type) := List Char → Option (α × List Char)

def isSpace (c : Char) : Bool := c == ' ' || c == '\t' || c == '\n' || c == '\r'

def skipSpace (text : List Char) : List Char := text.dropWhile isSpace

/-! ## Strings -/

def hexValue? (c : Char) : Option Nat :=
  if c.isDigit then some (c.toNat - 48)
  else if 'a' ≤ c ∧ c ≤ 'f' then some (c.toNat - 87)
  else if 'A' ≤ c ∧ c ≤ 'F' then some (c.toNat - 55)
  else none

/-- Four hexadecimal digits. -/
def codeUnit : Reader Nat
  | a :: b :: c :: d :: rest => do
      let a ← hexValue? a
      let b ← hexValue? b
      let c ← hexValue? c
      let d ← hexValue? d
      some (((a * 16 + b) * 16 + c) * 16 + d, rest)
  | _ => none

/-- The character of a `\u` escape, which takes two escapes above the basic plane. -/
def unicodeEscape (text : List Char) : Option (Char × List Char) := do
  let (unit, rest) ← codeUnit text
  if 0xDC00 ≤ unit ∧ unit ≤ 0xDFFF then none
  else if 0xD800 ≤ unit ∧ unit ≤ 0xDBFF then
    match rest with
    | '\\' :: 'u' :: rest =>
        let (low, rest) ← codeUnit rest
        if 0xDC00 ≤ low ∧ low ≤ 0xDFFF then
          some (Char.ofNat (0x10000 + (unit - 0xD800) * 0x400 + (low - 0xDC00)), rest)
        else none
    | _ => none
  else some (Char.ofNat unit, rest)

def simpleEscape? : Char → Option Char
  | '"' => some '"'
  | '\\' => some '\\'
  | '/' => some '/'
  | 'b' => some '\x08'
  | 'f' => some '\x0C'
  | 'n' => some '\n'
  | 'r' => some '\r'
  | 't' => some '\t'
  | _ => none

/-- The characters of a string up to its closing quote; `done` holds those read so far, last one
first. -/
def stringTail : Nat → List Char → List Char → Option (String × List Char)
  | 0, _, _ => none
  | _ + 1, _, [] => none
  | _ + 1, done, '"' :: rest => some (String.ofList done.reverse, rest)
  | fuel + 1, done, '\\' :: 'u' :: rest => do
      let (c, rest) ← unicodeEscape rest
      stringTail fuel (c :: done) rest
  | fuel + 1, done, '\\' :: c :: rest => do
      let c ← simpleEscape? c
      stringTail fuel (c :: done) rest
  | fuel + 1, done, c :: rest =>
      if c.toNat < 0x20 ∨ c = '\\' then none else stringTail fuel (c :: done) rest

/-! ## Numbers -/

def digits (text : List Char) : List Char × List Char := text.span Char.isDigit

def ofDigits (ds : List Char) : Nat := ds.foldl (fun n c => n * 10 + (c.toNat - 48)) 0

/-- Digits of which the first is zero only if it is the only one. -/
def integerPart (text : List Char) : Option (List Char × List Char) :=
  match digits text with
  | ([], _) => none
  | ('0' :: _ :: _, _) => none
  | (ds, rest) => some (ds, rest)

def fractionPart : List Char → Option (List Char × List Char)
  | '.' :: rest =>
      match digits rest with
      | ([], _) => none
      | (ds, rest) => some (ds, rest)
  | rest => some ([], rest)

def exponentDigits (negative : Bool) (text : List Char) : Option (Int × List Char) :=
  match digits text with
  | ([], _) => none
  | (ds, rest) => some (if negative then -(ofDigits ds : Int) else ofDigits ds, rest)

/-- Digits with an optional sign. -/
def signedDigits : List Char → Option (Int × List Char)
  | '-' :: rest => exponentDigits true rest
  | '+' :: rest => exponentDigits false rest
  | rest => exponentDigits false rest

def exponentPart : List Char → Option (Option Int × List Char)
  | 'e' :: rest | 'E' :: rest => (signedDigits rest).map (fun p => (some p.1, p.2))
  | rest => some (none, rest)

/-- The smallest number that rounds to no finite double: half a unit above the largest one. -/
def doubleLimit : Nat := (1 <<< 1024) - (1 <<< 970)

/-- The decimal rounds to no finite double. -/
def overflows (mantissa : Nat) (exponent : Int) : Bool :=
  if mantissa = 0 then false
  else
    let size : Int := (Nat.toDigits 10 mantissa).length + exponent
    if size > 310 then true
    else if size < 300 then false
    else match exponent with
      | .ofNat e => doubleLimit ≤ mantissa * Nat.pow 10 e
      | .negSucc e => doubleLimit * Nat.pow 10 (e + 1) ≤ mantissa

def number (negative : Bool) (text : List Char) : Option (Json × List Char) := do
  let (whole, rest) ← integerPart text
  let (fraction, rest) ← fractionPart rest
  let (exponent, rest) ← exponentPart rest
  let mantissa := ofDigits (whole ++ fraction)
  let scale := exponent.getD 0 - fraction.length
  if fraction.isEmpty ∧ exponent.isNone ∧
      (if negative then 0 < mantissa ∧ mantissa ≤ UInt64.size / 2 else mantissa < UInt64.size) then
    some (.number (.integer (if negative then -(mantissa : Int) else mantissa)), rest)
  else if overflows mantissa scale then none
  else some (.number (.decimal (if negative then -(mantissa : Int) else mantissa) scale), rest)

/-! ## Arrays, objects and values -/

/-- The items of an array after its opening bracket and first item. -/
def itemsTail (item : Reader Json) : Nat → List Json → List Char → Option (List Json × List Char)
  | 0, _, _ => none
  | fuel + 1, done, text =>
      match skipSpace text with
      | ']' :: rest => some (done.reverse, rest)
      | ',' :: rest => do
          let (v, rest) ← item (skipSpace rest)
          itemsTail item fuel (v :: done) rest
      | _ => none

/-- A key, a colon and a value. -/
def member (size : Nat) (item : Reader Json) (text : List Char) :
    Option ((String × Json) × List Char) :=
  match text with
  | '"' :: rest => do
      let (key, rest) ← stringTail size [] rest
      match skipSpace rest with
      | ':' :: rest =>
          let (v, rest) ← item (skipSpace rest)
          some ((key, v), rest)
      | _ => none
  | _ => none

def membersTail (size : Nat) (item : Reader Json) :
    Nat → List (String × Json) → List Char → Option (List (String × Json) × List Char)
  | 0, _, _ => none
  | fuel + 1, done, text =>
      match skipSpace text with
      | '}' :: rest => some (done.reverse, rest)
      | ',' :: rest => do
          let (m, rest) ← member size item (skipSpace rest)
          membersTail size item fuel (m :: done) rest
      | _ => none

/-- A value that starts at the front of the text and nests less than `depth` deep; `size` bounds
the number of items in any one list. -/
def value (size : Nat) : Nat → Reader Json
  | 0, _ => none
  | depth + 1, text =>
      match text with
      | 'n' :: 'u' :: 'l' :: 'l' :: rest => some (.null, rest)
      | 't' :: 'r' :: 'u' :: 'e' :: rest => some (.bool true, rest)
      | 'f' :: 'a' :: 'l' :: 's' :: 'e' :: rest => some (.bool false, rest)
      | '"' :: rest => (stringTail size [] rest).map (fun p => (.string p.1, p.2))
      | '-' :: rest => number true rest
      | '[' :: rest =>
          if depth = 0 then none
          else match skipSpace rest with
            | ']' :: rest => some (.array [], rest)
            | rest => do
                let (v, rest) ← value size depth rest
                let (items, rest) ← itemsTail (value size depth) size [v] rest
                some (.array items, rest)
      | '{' :: rest =>
          if depth = 0 then none
          else match skipSpace rest with
            | '}' :: rest => some (.object [], rest)
            | rest => do
                let (m, rest) ← member size (value size depth) rest
                let (members, rest) ← membersTail size (value size depth) size [m] rest
                some (.object members, rest)
      | rest => number false rest

end VendorBundle.Json.Parser

namespace VendorBundle.Json

/-- The value a text holds, when the whole text is one value between optional blanks. -/
def parse? (text : String) : Option Json :=
  let chars := text.toList
  match Parser.value (chars.length + 1) 128 (Parser.skipSpace chars) with
  | some (v, rest) => if (Parser.skipSpace rest).isEmpty then some v else none
  | none => none

end VendorBundle.Json
