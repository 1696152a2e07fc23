import VendorBundle.Script.Cursor
import VendorBundle.Script.Language
import VendorBundle.Script.Outline

/-!
# Parsing

A parse reads tokens from a cursor and may fail. A fault that does not stop the parse marks the
cursor instead, so that an attempt that goes through keeps it and one that is taken back does not.

The grammar is written without recursion: a parse asks for another part of the grammar by naming
its rule, and gets it from the environment. Tying the knot is left to `Program`.
-/

namespace VendorBundle.Script

/-- What the grammar takes from the surroundings of a place. -/
structure Scope where
  /-- `in` is an operator. -/
  inOperator : Bool := true
  yields : Bool := false
  awaits : Bool := false
  returns : Bool := false
  /-- Within a decorator, where a bracket is not an element access. -/
  decorator : Bool := false
  /-- `extends` does not continue a type. -/
  noConditionalType : Bool := false
  ambient : Bool := false
  deriving DecidableEq, Repr

/-- The parts of the grammar that contain each other. -/
inductive Rule where
  /-- A statement; one that stands alone as the body of another may be no declaration. -/
  | statement (alone : Bool)
  | expression
  /-- An assignment expression; in the middle of a conditional, an arrow function with a return
  type has to be followed by a colon. -/
  | assignment (returnType : Bool)
  /-- Operators that bind more tightly than the given precedence. -/
  | binary (above : Nat)
  | unary
  | leftHand
  | primary
  | binding
  | type
  | parameters
  | typeParameters
  | functionBody
  | jsxElement
  deriving DecidableEq, Repr

structure Env where
  language : Language
  scope : Scope
  /-- A bound on the number of items in any list. -/
  size : Nat
  nested : Rule → Scope → Step Outline

abbrev Parse (α : Type) := ReaderT Env Step α

namespace Parse

/-- Parses a part of the grammar that may contain the current one. -/
def rule (r : Rule) : Parse Outline := fun env => env.nested r env.scope

/-- Changes the notes. -/
def note (change : Notes → Notes) : Parse Unit := fun _ => Step.note change

/-- Reports a fault and goes on. -/
def flaw : Parse Unit := note fun n => { n with flawed := true }

def flawIf (condition : Bool) : Parse Unit := if condition then flaw else pure ()

/-- Runs a parse in changed surroundings. -/
def within {α : Type} (change : Scope → Scope) (p : Parse α) : Parse α := fun env =>
  p { env with scope := change env.scope }

def scope : Parse Scope := do pure (← read).scope

def language : Parse Language := do pure (← read).language

def isTyped : Parse Bool := do pure (← language).typed

/-- The outcome of a parse, which leaves no trace when it fails. -/
def attempt {α : Type} (p : Parse α) : Parse (Option α) := fun env => (p env).attempt

/-- The outcome of a parse that is taken back. -/
def lookahead {α : Type} (p : Parse α) : Parse (Option α) := fun env => (p env).lookahead

/-- A test ahead, which fails where the parse does. -/
def ahead (p : Parse Bool) : Parse Bool := do pure ((← lookahead p).getD false)

/-- Repeats a step until it gives nothing. -/
def repeated {α : Type} (step : Parse (Option α)) : Nat → List α → Parse (List α)
  | 0, _ => failure
  | n + 1, done => do
      match ← step with
      | some a => repeated step n (a :: done)
      | none => pure done.reverse

def many {α : Type} (step : Parse (Option α)) : Parse (List α) := do
  repeated step (← read).size []

/-- Repeats a step that carries a value, as long as it gives a new one. -/
def iterated {α : Type} (step : α → Parse (Option α)) : Nat → α → Parse α
  | 0, _ => failure
  | n + 1, a => do
      match ← step a with
      | some b => iterated step n b
      | none => pure a

def iterate {α : Type} (step : α → Parse (Option α)) (a : α) : Parse α := do
  iterated step (← read).size a

/-! ## Tokens -/

def cursor : Parse Cursor := fun _ => Step.cursor

def token : Parse Token := do pure (← cursor).token

/-- A line ends in front of the current token. -/
def afterNewline : Parse Bool := do pure (← cursor).newline

/-- Moves to the next token. -/
def advance : Parse Unit := fun env => Step.advance (!env.language.isModule)

/-- Replaces the current token by another reading of the text at its place. -/
def reread (read : List Char → Option (Token × List Char)) (hread : Cursor.IsReading read) :
    Parse Unit := fun _ => Step.reread read hread

/-- Moves to the next token, if it is one that is read in the given way. -/
def advanceTo (read : List Char → Option (Token × List Char)) (hread : Cursor.IsReading read) :
    Parse Bool := fun _ => Step.advanceTo read hread

def isAt (mark : String) : Parse Bool := do pure ((← token) == .punct mark)

/-- The current token is a keyword. -/
def isWord (word : String) : Parse Bool := do pure ((← token) == .word word false)

def isOneOf (words : List String) : Parse Bool := do
  match ← token with
  | .word name false => pure (words.contains name)
  | _ => pure false

def isDone : Parse Bool := do pure ((← token) == .done)

def eat (mark : String) : Parse Bool := do
  if ← isAt mark then
    advance
    pure true
  else pure false

def eatWord (word : String) : Parse Bool := do
  if ← isWord word then
    advance
    pure true
  else pure false

def expect (mark : String) : Parse Unit := do
  if ← eat mark then pure () else failure

def expectWord (word : String) : Parse Unit := do
  if ← eatWord word then pure () else failure

/-- What the token after the current one is. -/
def peek : Parse Token := do pure ((← lookahead (do advance; token)).getD .invalid)

def peekIs (mark : String) : Parse Bool := do pure ((← peek) == .punct mark)

/-- A test of the token after the current one, where that stands on the same line. -/
def nextOnLine (test : Token → Bool) : Parse Bool :=
  ahead do
    advance
    pure (!(← afterNewline) && test (← token))

/-! ## Semicolons and lists -/

def canEndStatement : Parse Bool := do
  match ← token with
  | .punct ";" | .punct "\x7d" | .done => pure true
  | _ => afterNewline

/-- The end of a statement: a semicolon, or a place where one may be left out. -/
def semicolon : Parse Unit := do
  if ← canEndStatement then discard (eat ";") else failure

/-- Items between commas up to a closing mark, which a comma may precede. -/
def commaList (closing : String) (item : Parse Outline) : Parse (List Outline) := do
  let items ← many do
    if ← isAt closing then pure none
    else
      let v ← item
      if !(← isAt closing) then expect ","
      pure (some v)
  expect closing
  pure items

/-- One or more items between commas. -/
def commaSeparated (item : Parse Outline) : Parse (List Outline) := do
  let first ← item
  let more ← many do
    if ← eat "," then pure (some (← item)) else pure none
  pure (first :: more)

/-! ## Names -/

/-- A word that may stand for a variable. -/
def isVariableName (scope : Scope) (name : String) : Bool :=
  !isReserved name && !(name == "yield" && scope.yields) && !(name == "await" && scope.awaits)

def isVariable : Parse Bool := do
  match ← token with
  | .word name _ => pure (isVariableName (← scope) name)
  | _ => pure false

/-- The name of a variable that is used. -/
def variableName : Parse String := do
  match ← token with
  | .word name _ =>
      if isVariableName (← scope) name then
        advance
        pure name
      else failure
  | _ => failure

/-- The name of a variable that is declared. -/
def bindingName : Parse String := do
  match ← token with
  | .word name _ =>
      if isReserved name then failure
      else
        flawIf (!isVariableName (← scope) name)
        advance
        pure name
  | _ => failure

/-- Any word, keywords included. -/
def anyName : Parse String := do
  match ← token with
  | .word name _ =>
      advance
      pure name
  | _ => failure

def isName : Token → Bool
  | .word .. => true
  | _ => false

def stringToken : Parse String := do
  match ← token with
  | .string value =>
      advance
      pure value
  | _ => failure

end Parse

end VendorBundle.Script
