import VendorBundle.Script.IdentifierTable
import VendorBundle.Script.Piece

/-!
# Reading tokens off the text

A token is read off the front of the text. Where the grammar expects a regular expression, the rest
of a template or JSX, it reads the text at the same place once more in another way.
-/

namespace VendorBundle.Script.Lexer

/-! ## Characters -/

def isLineEnd (c : Char) : Bool :=
  c == '\n' || c == '\r' || c == '\u2028' || c == '\u2029'

/-- The blanks within a line. -/
def isBlank (c : Char) : Bool :=
  let n := c.toNat
  n == 0x20 || n == 0x09 || n == 0x0B || n == 0x0C || n == 0x85 || n == 0xA0 || n == 0x1680
    || (0x2000 ≤ n && n ≤ 0x200B) || n == 0x202F || n == 0x205F || n == 0x3000 || n == 0xFEFF

def isNameStart (c : Char) : Bool :=
  c.isAlpha || c == '$' || c == '_'
    || (c.toNat ≥ 0x80 && IdentifierTable.isIn IdentifierTable.startRanges c)

def isNamePart (c : Char) : Bool :=
  c.isAlphanum || c == '$' || c == '_'
    || (c.toNat ≥ 0x80 && (IdentifierTable.isIn IdentifierTable.startRanges c
      || IdentifierTable.isIn IdentifierTable.partRanges c))

def hexValue? (c : Char) : Option Nat :=
  if c.isDigit then some (c.toNat - 48)
  else if 'a' ≤ c ∧ c ≤ 'f' then some (c.toNat - 87)
  else if 'A' ≤ c ∧ c ≤ 'F' then some (c.toNat - 55)
  else none

def isOctal (c : Char) : Bool := '0' ≤ c && c ≤ '7'

/-! ## Blanks and comments -/

/-- What a walk over blanks and comments stands in; a comment is told by the text that it begins. -/
inductive Trivia where
  | between
  | lineComment (start : List Char)
  | blockComment (start : List Char)

/-- What a walk over blanks and comments comes to. -/
structure Skipped where
  /-- The last comment ends. -/
  closed : Bool
  /-- A line ended on the way. -/
  newline : Bool
  /-- The comments and what was read before them, last one first. -/
  pieces : List Piece
  rest : List Char

/-- Passes over blanks and comments. In a script `<!--` also begins a line comment, and at the start
of a line `-->` does. -/
def skip (script : Bool) : Trivia → Bool → List Piece → List Char → Skipped
  | .between, newline, pieces, [] => ⟨true, newline, pieces, []⟩
  | .lineComment start, newline, pieces, [] => ⟨true, newline, ⟨.comment, start, []⟩ :: pieces, []⟩
  | .blockComment start, newline, pieces, [] =>
      ⟨false, newline, ⟨.comment, start, []⟩ :: pieces, []⟩
  | .lineComment start, newline, pieces, c :: rest =>
      if isLineEnd c then skip script .between true (⟨.comment, start, c :: rest⟩ :: pieces) rest
      else skip script (.lineComment start) newline pieces rest
  | .blockComment start, newline, pieces, '*' :: '/' :: rest =>
      skip script .between newline (⟨.comment, start, rest⟩ :: pieces) rest
  | .blockComment start, newline, pieces, c :: rest =>
      skip script (.blockComment start) (newline || isLineEnd c) pieces rest
  | .between, newline, pieces, '/' :: '/' :: rest =>
      skip script (.lineComment ('/' :: '/' :: rest)) newline pieces rest
  | .between, newline, pieces, '/' :: '*' :: rest =>
      skip script (.blockComment ('/' :: '*' :: rest)) newline pieces rest
  | .between, newline, pieces, c :: rest =>
      if isLineEnd c then skip script .between true pieces rest
      else if isBlank c then skip script .between newline pieces rest
      else if script && c == '<' && rest.take 3 == ['!', '-', '-'] then
        skip script (.lineComment (c :: rest)) newline pieces rest
      else if script && newline && c == '-' && rest.take 2 == ['-', '>'] then
        skip script (.lineComment (c :: rest)) newline pieces rest
      else ⟨true, newline, pieces, c :: rest⟩

/-! ## Escapes -/

/-- Hexadecimal digits between braces, up to the last code point. -/
def bracedCode : Nat → Bool → List Char → Option (Nat × List Char)
  | n, some?, '}' :: rest => if some? then some (n, rest) else none
  | n, _, c :: rest => do
      let d ← hexValue? c
      let n := n * 16 + d
      if n ≤ 0x10FFFF then bracedCode n true rest else none
  | _, _, [] => none

/-- The code of a `\u` escape, after the `u`. -/
def unicodeEscape : List Char → Option (Nat × List Char)
  | '{' :: rest => bracedCode 0 false rest
  | a :: b :: c :: d :: rest => do
      let a ← hexValue? a
      let b ← hexValue? b
      let c ← hexValue? c
      let d ← hexValue? d
      pure (((a * 16 + b) * 16 + c) * 16 + d, rest)
  | _ => none

def hexEscape : List Char → Option (Nat × List Char)
  | a :: b :: rest => do
      let a ← hexValue? a
      let b ← hexValue? b
      pure (a * 16 + b, rest)
  | _ => none

/-- An octal escape of up to three digits, below 256. -/
def octalEscape (c : Char) (rest : List Char) : Nat × List Char :=
  let first := c.toNat - 48
  match rest with
  | d :: rest' =>
      if isOctal d then
        let second := first * 8 + (d.toNat - 48)
        match rest' with
        | e :: rest'' =>
            if isOctal e && first ≤ 3 then (second * 8 + (e.toNat - 48), rest'')
            else (second, rest')
        | [] => (second, rest')
      else (first, rest)
  | [] => (first, rest)

/-- The codes an escape stands for, after the backslash. Octal escapes and `\8`, `\9` are for
strings only. -/
def escape (octal : Bool) : List Char → Option (List Nat × List Char)
  | [] => none
  | 'n' :: rest => some ([10], rest)
  | 't' :: rest => some ([9], rest)
  | 'r' :: rest => some ([13], rest)
  | 'b' :: rest => some ([8], rest)
  | 'f' :: rest => some ([12], rest)
  | 'v' :: rest => some ([11], rest)
  | '\r' :: '\n' :: rest => some ([], rest)
  | 'x' :: rest => (hexEscape rest).map fun p => ([p.1], p.2)
  | 'u' :: rest => (unicodeEscape rest).map fun p => ([p.1], p.2)
  | c :: rest =>
      if isLineEnd c then some ([], rest)
      else if c.isDigit then
        if c == '0' && !(rest.head?.any Char.isDigit) then some ([0], rest)
        else if !octal then none
        else if isOctal c then
          let (n, rest) := octalEscape c rest
          some ([n], rest)
        else some ([c.toNat], rest)
      else some ([c.toNat], rest)

/-! ## Texts from codes -/

def isHigh (n : Nat) : Bool := 0xD800 ≤ n && n ≤ 0xDBFF
def isLow (n : Nat) : Bool := 0xDC00 ≤ n && n ≤ 0xDFFF

/-- Joins each high surrogate with the low one after it. -/
def joinPairs : List Nat → List Nat
  | [] => []
  | [n] => [n]
  | a :: b :: rest =>
      if isHigh a && isLow b then (0x10000 + (a - 0xD800) * 0x400 + (b - 0xDC00)) :: joinPairs rest
      else a :: joinPairs (b :: rest)

def hexDigit (n : Nat) : Char := if n < 10 then Char.ofNat (48 + n) else Char.ofNat (87 + n)

/-- A code in a text with lone surrogates: those, and the character that marks them, are written as
that character and four digits. -/
def markedCode (n : Nat) : List Char :=
  if isHigh n || isLow n || n == 0xFFFD then
    ['\uFFFD', hexDigit (n / 4096 % 16), hexDigit (n / 256 % 16), hexDigit (n / 16 % 16),
      hexDigit (n % 16)]
  else [Char.ofNat n]

/-- The text of some codes. -/
def textOf (codes : List Nat) : String :=
  let codes := joinPairs codes
  if codes.any fun n => isHigh n || isLow n then String.ofList (codes.flatMap markedCode)
  else String.ofList (codes.map Char.ofNat)

/-! ## Strings, templates, names -/

/-- A string after its opening quote; `done` holds the codes so far, last one first. -/
def string (quote : Char) : Nat → List Nat → List Char → Option (String × List Char)
  | 0, _, _ => none
  | _ + 1, _, [] => none
  | fuel + 1, done, '\\' :: rest => do
      let (codes, rest) ← escape true rest
      string quote fuel (codes.reverse ++ done) rest
  | fuel + 1, done, c :: rest =>
      if c == quote then some (textOf done.reverse, rest)
      else if c == '\n' || c == '\r' then none
      else string quote fuel (c.toNat :: done) rest

/-- A stretch of a template, up to the closing mark or the next substitution. A line end of any kind
reads as a line feed. -/
def template : Nat → Option (List Nat) → List Char → Option (Token × List Char)
  | 0, _, _ => none
  | _ + 1, _, [] => none
  | fuel + 1, done, c :: rest =>
      match c, rest with
      | '`', _ => some (.template (done.map fun codes => textOf codes.reverse) false, rest)
      | '$', '{' :: rest => some (.template (done.map fun codes => textOf codes.reverse) true, rest)
      | '\r', '\n' :: rest => template fuel (done.map (10 :: ·)) rest
      | '\r', _ => template fuel (done.map (10 :: ·)) rest
      | '\\', _ =>
          match escape false rest with
          | some (codes, rest) => template fuel (done.map (codes.reverse ++ ·)) rest
          | none => template fuel none rest
      | _, _ => template fuel (done.map (c.toNat :: ·)) rest

/-- The rest of a name; `done` holds what was read, last one first. -/
def nameTail : Nat → Bool → List Char → List Char → Option (String × Bool × List Char)
  | 0, _, _, _ => none
  | fuel + 1, _, done, '\\' :: 'u' :: rest => do
      let (n, rest) ← unicodeEscape rest
      if isNamePart (Char.ofNat n) then nameTail fuel true (Char.ofNat n :: done) rest else none
  | _ + 1, _, _, '\\' :: _ => none
  | fuel + 1, escaped, done, c :: rest =>
      if isNamePart c then nameTail fuel escaped (c :: done) rest
      else some (String.ofList done.reverse, escaped, c :: rest)
  | _ + 1, escaped, done, [] => some (String.ofList done.reverse, escaped, [])

/-- A name with the mark whether it holds an escape. -/
def name (fuel : Nat) : List Char → Option (String × Bool × List Char)
  | '\\' :: 'u' :: rest => do
      let (n, rest) ← unicodeEscape rest
      if isNameStart (Char.ofNat n) then nameTail fuel true [Char.ofNat n] rest else none
  | c :: rest => if isNameStart c then nameTail fuel false [c] rest else none
  | [] => none

/-! ## Numbers -/

/-- The rest of a run of digits, where single underscores may separate digits. -/
def digitsTail (isDigit : Char → Bool) : List Char → Option (List Char)
  | '_' :: c :: rest => if isDigit c then digitsTail isDigit rest else none
  | ['_'] => none
  | c :: rest => if isDigit c then digitsTail isDigit rest else some (c :: rest)
  | [] => some []

def digits (isDigit : Char → Bool) : List Char → Option (List Char)
  | c :: rest => if isDigit c then digitsTail isDigit rest else none
  | [] => none

def exponent : List Char → Option (List Char)
  | e :: sign :: rest =>
      if e == 'e' || e == 'E' then
        if sign == '+' || sign == '-' then digits Char.isDigit rest
        else digits Char.isDigit (sign :: rest)
      else some (e :: sign :: rest)
  | [e] => if e == 'e' || e == 'E' then none else some [e]
  | [] => some []

/-- The fraction and exponent of a number, after its whole part. -/
def fraction : List Char → Option (List Char)
  | '.' :: c :: rest =>
      if c.isDigit then (digitsTail Char.isDigit rest).bind exponent
      else if c == '_' then none
      else exponent (c :: rest)
  | '.' :: [] => some []
  | rest => exponent rest

/-- A whole number may go on with the mark of big ones. -/
def withSuffix (rest : List Char) : Bool × List Char :=
  match rest with
  | 'n' :: rest => (true, rest)
  | rest => (false, rest)

/-- A number that begins with a zero, after that zero, and whether it has the mark of big ones. -/
def afterZero : List Char → Option (Bool × List Char)
  | c :: rest =>
      if c == 'x' || c == 'X' then (digits (fun d => (hexValue? d).isSome) rest).map withSuffix
      else if c == 'o' || c == 'O' then (digits isOctal rest).map withSuffix
      else if c == 'b' || c == 'B' then
        (digits (fun d => d == '0' || d == '1') rest).map withSuffix
      else if c.isDigit then
        let run := (c :: rest).takeWhile Char.isDigit
        let after := (c :: rest).dropWhile Char.isDigit
        if after.head? == some '_' then none
        else if run.all isOctal then some (false, after)
        else (fraction after).map (false, ·)
      else if c == '_' then none
      else if c == 'n' then some (true, rest)
      else (fraction (c :: rest)).map (false, ·)
  | [] => some (false, [])

/-- A number, whatever follows it, and whether it has the mark of big ones. -/
def numeral : List Char → Option (Bool × List Char)
  | '0' :: rest => afterZero rest
  | '.' :: rest => ((digits Char.isDigit rest).bind exponent).map (false, ·)
  | text =>
      match digits Char.isDigit text with
      | some ('n' :: rest) => some (true, rest)
      | some rest => (fraction rest).map (false, ·)
      | none => none

/-- A number, which no name or digit may follow directly. -/
def number (text : List Char) : Option (Token × List Char) := do
  let (big, rest) ← numeral text
  if rest.head?.any fun c => isNameStart c || c.isDigit || c == '\\' then none
  else pure (if big then .bigint else .number, rest)

/-! ## Punctuation -/

/-- The punctuation marks, longer ones before those they begin with. A closing angle bracket is
always a mark of its own; the grammar joins it with what follows. -/
def marks : List (List Char) := [
  ">", "...", "=>", "===", "!==", "==", "!=", "**=", "**", "++", "--", "+=", "-=", "*=", "/=", "%=",
  "<<=", "<<", "<=", "&&=", "&&", "&=", "||=", "||", "|=", "^=", "??=", "??", "\x7b", "\x7d", "(", ")",
  "[", "]", ".", ";", ",", "<", "+", "-", "*", "/", "%", "&", "|", "^", "!", "~", "?", ":", "=",
  "@"].map String.toList

def strip? : (start text : List Char) → Option (List Char)
  | [], text => some text
  | _ :: _, [] => none
  | c :: start, d :: text => if c == d then strip? start text else none

def firstMark (text : List Char) : List (List Char) → Option (Token × List Char)
  | [] => none
  | mark :: more =>
      match strip? mark text with
      | some rest => some (.punct (String.ofList mark), rest)
      | none => firstMark text more

def punctuation (text : List Char) : Option (Token × List Char) :=
  match text with
  | '?' :: '.' :: rest =>
      if rest.head?.any Char.isDigit then some (.punct "?", '.' :: rest)
      else some (.punct "?.", rest)
  | text => firstMark text marks

/-- The longest operator that begins with closing angle brackets. -/
def closingAngles (text : List Char) : Option (Token × List Char) :=
  firstMark text ([">>>=", ">>>", ">>=", ">>", ">=", ">"].map String.toList)

/-! ## Regular expressions -/

/-- The body of a regular expression after its opening slash; in a class a slash is a character. -/
def regexBody (inClass : Bool) : List Char → Option (List Char)
  | [] => none
  | '\\' :: c :: rest => if isLineEnd c then none else regexBody inClass rest
  | c :: rest =>
      if isLineEnd c then none
      else if c == '/' && !inClass then some rest
      else if c == '[' then regexBody true rest
      else if c == ']' then regexBody false rest
      else regexBody inClass rest

/-- Flags are different letters of `dgimsuvy`. -/
def goodFlags (flags : List Char) : Bool :=
  flags.all (['d', 'g', 'i', 'm', 's', 'u', 'v', 'y'].contains ·) && decide flags.Nodup

def regex (text : List Char) : Option (Token × List Char) := do
  let rest ← regexBody false text
  let isFlag (c : Char) := c.isAlphanum || c == '$' || c == '_'
  if goodFlags (rest.takeWhile isFlag) then pure (.regex, rest.dropWhile isFlag) else none

/-! ## Tokens -/

/-- The token that begins with a character, if there is one. -/
def token? (c : Char) (rest : List Char) : Option (Token × List Char) :=
  if isNameStart c || c == '\\' then
    (name (rest.length + 1) (c :: rest)).map fun (n, escaped, rest) => (.word n escaped, rest)
  else if c.isDigit || (c == '.' && rest.head?.any Char.isDigit) then number (c :: rest)
  else if c == '"' || c == '\'' then
    (string c (rest.length + 1) [] rest).map fun (value, rest) => (.string value, rest)
  else if c == '`' then template (rest.length + 1) (some []) rest
  else if c == '#' then
    (name (rest.length + 1) rest).map fun (n, _, rest) => (.privateName n, rest)
  else punctuation (c :: rest)

/-- The token at the front of a text without blanks or comments in front. -/
def token : List Char → Token × List Char
  | [] => (.done, [])
  | c :: rest => (token? c rest).getD (.invalid, c :: rest)

def withoutOrderMark : List Char → List Char
  | '\uFEFF' :: rest => rest
  | text => text

/-- What a program has in front of its first comment or token: nothing, unless the first line names
the interpreter. -/
def opening (text : List Char) : List Piece × List Char :=
  match withoutOrderMark text with
  | '#' :: '!' :: line =>
      let rest := line.dropWhile (!isLineEnd ·)
      ([⟨.interpreter, '#' :: '!' :: line, rest⟩], rest)
  | text => ([], text)

/-! ## Other readings of a token -/

/-- The rest of a template, from the closing brace of a substitution on. -/
def templateRest : List Char → Option (Token × List Char)
  | '\x7d' :: rest => template (rest.length + 1) (some []) rest
  | _ => none

/-- One opening angle bracket, also off an operator that begins with it. -/
def openingAngle : List Char → Option (Token × List Char)
  | '<' :: rest => some (.punct "<", rest)
  | _ => none

/-- A regular expression, from its opening slash on. -/
def regexLiteral (text : List Char) : Option (Token × List Char) := regex (text.drop 1)

end VendorBundle.Script.Lexer
