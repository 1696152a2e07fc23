import VendorBundle.Script.Grammar.Types

/-!
# Functions

Function bodies, functions and arrow functions. Whether parentheses open the parameters of an arrow
function is told from the tokens after them, and tried where those leave it open.
-/

namespace VendorBundle.Script.Grammar

open Parse

/-- Statements between braces. -/
def statements : Parse Outline := do
  expect "\x7b"
  let items ← many do
    if ← isAt "\x7d" then pure none else pure (some (← rule (.statement false)))
  expect "\x7d"
  pure (.group items)

/-- The surroundings of the code in a function. -/
def functionScope (isAsync isGenerator : Bool) (s : Scope) : Scope :=
  { s with inOperator := true, awaits := isAsync, yields := isGenerator, decorator := false }

def bodyScope (s : Scope) : Scope :=
  { s with returns := true, inOperator := true, decorator := false, noConditionalType := false }

def functionBody : Parse Outline := within bodyScope statements

/-- A body, which TypeScript allows to be left out. -/
def bodyOrSemicolon : Parse (List Outline) := do
  if ← isAt "\x7b" then pure [← rule .functionBody]
  else if ← isTyped then
    semicolon
    pure []
  else failure

/-- What parameters a function takes. -/
inductive Arity where
  | any
  /-- Any, but no type of `this`. -/
  | noThis
  | none
  | one
  deriving DecidableEq

/-- A parameter list fits; its first part is the type of `this`. -/
def Arity.fits : Arity → Outline → Bool
  | any, _ => true
  | noThis, ps => !hasThis ps
  | none, .group [_] => true
  | one, .group [_, .spread _] => false
  | one, .group [_, _] => true
  | _, _ => false

/-- A function from its type parameters on. -/
def functionRest (isAsync isGenerator : Bool) (arity : Arity) : Parse Outline :=
  within (functionScope isAsync isGenerator) do
    let generics ← typeParameters?
    let ps ← rule .parameters
    flawIf (!arity.fits ps)
    let result ← returnType ":"
    let body ← bodyOrSemicolon
    pure (.group (generics ++ ps :: result ++ body))

/-- A function from the keyword on; its name is needed in a declaration. -/
def function (isAsync isExpression needsName : Bool) : Parse Outline := do
  expectWord "function"
  let isGenerator ← eat "*"
  if !(← isAt "(") && !(← isAtOpenAngle) then
    if isExpression then
      discard (within (functionScope isAsync isGenerator) bindingName)
    else discard bindingName
  else flawIf needsName
  functionRest isAsync isGenerator .any

/-- The token `async` in front of `function` on the same line. -/
def beginsAsyncFunction : Parse Bool := do
  if ← isWord "async" then nextOnLine (· == .word "function" false) else pure false

/-! ## Arrow functions -/

inductive Likely where
  | no
  | maybe
  | yes
  deriving DecidableEq

/-- What follows an opening parenthesis of a parameter list or expression. -/
def afterParenthesis : Parse Likely := do
  match ← token with
  | .punct ")" =>
      advance
      pure (if (← isAt "=>") || (← isAt ":") || (← isAt "\x7b") then .yes else .no)
  | .punct "[" | .punct "\x7b" => pure .maybe
  | .punct "..." =>
      advance
      match ← token with
      | .word name _ => pure (if isReserved name then .maybe else .yes)
      | .punct _ => pure .maybe
      | _ => pure .no
  | .punct "@" => pure .maybe
  | .word name _ =>
      if modifierWords.contains name && name != "async"
          && (← peekIsParameter) then
        pure .yes
      else if isReserved name && name != "this" then pure .no
      else
        advance
        if ← isAt ":" then pure .yes
        else if ← eat "?" then
          pure (if (← isAt ":") || (← isAt ",") || (← isAt "=") || (← isAt ")") then .yes else .no)
        else if (← isAt ",") || (← isAt "=") || (← isAt ")") then pure .maybe
        else pure .no
  | _ => pure .no
where
  peekIsParameter : Parse Bool := do
    match ← peek with
    | .word name _ => pure (!isReserved name && name != "as")
    | _ => pure false

/-- What follows an opening angle bracket of type parameters or of a type or JSX element. -/
def afterAngle : Parse Likely := do
  match ← token with
  | .word name _ =>
      if isReserved name && name != "const" then pure .no
      else if !(← language).jsx then pure .maybe
      else
        let isConst ← eatWord "const"
        if !isConst || isName (← token) then
          if !isConst then advance else discard anyName
        if ← isWord "extends" then
          advance
          pure (if (← isAt "=") || (← isAt ">") || (← isAt "/") then .no else .yes)
        else pure (if (← isAt ",") || (← isAt "=") then .yes else .no)
  | _ => pure .no

def beginsArrow : Parse Likely := do
  let found ← lookahead do
    if ← isWord "async" then
      advance
      if ← afterNewline then failure
    if ← eat "(" then afterParenthesis
    else if ← isTyped <&&> eat "<" then afterAngle
    else pure .no
  pure (found.getD .no)

/-- The body of an arrow function. -/
def arrowBody (isAsync returnsType : Bool) : Parse Outline :=
  within (fun s => { s with awaits := isAsync, yields := false }) do
    if ← isAt "\x7b" then rule .functionBody else rule (.assignment returnsType)

/-- The parameters of an arrow function up to the arrow, the part with the return type apart. -/
def arrowHead (isAsync : Bool) : Parse (List Outline × List Outline) := do
  let ps ← within (fun s => { s with awaits := s.awaits || isAsync }) do
    let generics ← typeParameters?
    let ps ← rule .parameters
    flawIf (hasThis ps)
    pure (generics ++ [ps])
  let result ← returnType ":"
  flawIf (← afterNewline)
  expect "=>"
  pure (ps, result)

/-- An arrow function with parentheses. Where no type may be returned, one that is returned has to
be followed by a colon. -/
def parenthesizedArrow (returnsType : Bool) : Parse Outline := do
  let isAsync ← eatWord "async"
  let (ps, result) ← arrowHead isAsync
  let body ← arrowBody isAsync returnsType
  if !returnsType && !result.isEmpty && !(← isAt ":") then failure
  pure (.arrow (ps ++ result ++ [body]))

/-- An arrow function of one name, after which the current token is the arrow. -/
def simpleArrow (isAsync : Bool) (name : String) (returnsType : Bool) : Parse Outline := do
  flawIf (← afterNewline)
  expect "=>"
  let body ← arrowBody isAsync returnsType
  pure (.arrow [.identifier name, body])

def beginsAsyncArrow : Parse Bool := do
  if ← isWord "async" then ahead do
    advance
    if ← afterNewline then pure false
    else
      match ← token with
      | .word name _ =>
          if isReserved name then pure false
          else
            advance
            pure ((← isAt "=>") && !(← afterNewline))
      | _ => pure false
  else pure false

/-- An arrow function, if one stands here. -/
def arrow? (returnsType : Bool) : Parse (Option Outline) := do
  match ← beginsArrow with
  | .yes => pure (some (← parenthesizedArrow true))
  | .maybe => attempt (parenthesizedArrow returnsType)
  | .no =>
      if ← beginsAsyncArrow then
        advance
        let name ← within (fun s => { s with awaits := true }) bindingName
        pure (some (← simpleArrow true name returnsType))
      else pure none

end VendorBundle.Script.Grammar
