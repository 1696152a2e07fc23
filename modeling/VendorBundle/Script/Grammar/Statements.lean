import VendorBundle.Script.Grammar.Modules

/-!
# Statements
-/

namespace VendorBundle.Script.Grammar

open Parse

def openExpression : Parse Outline := within openScope (rule .expression)

/-- An expression between parentheses, as the head of a statement. -/
def head : Parse Outline := do
  expect "("
  let v ← openExpression
  expect ")"
  pure v

/-- A statement that is the body of another. -/
def body : Parse Outline := rule (.statement true)

def expressionStatement : Parse Outline := do
  let v ← openExpression
  semicolon
  pure v

/-! ## Loops -/

/-- The rest of a counting loop, after its first part. -/
def countingRest (first : List Outline) : Parse Outline := do
  expect ";"
  let test ← if ← isAt ";" then pure [] else pure [← openExpression]
  expect ";"
  let step ← if ← isAt ")" then pure [] else pure [← openExpression]
  expect ")"
  pure (.group (first ++ test ++ step ++ [← body]))

/-- The rest of a loop over a collection, after the variable. -/
def collectionRest (first : Outline) (isAwait : Bool) : Parse Outline := do
  let collection ←
    if ← eatWord "of" then within openScope (rule (.assignment true))
    else
      flawIf isAwait
      expectWord "in"
      openExpression
  expect ")"
  pure (.group [first, collection, ← body])

def isCollection : Parse Bool := do pure ((← isWord "of") || (← isWord "in"))

/-- A loop whose head declares variables, after their keyword. -/
def declaringLoop (kind : VariableKind) (isAwait : Bool) : Parse Outline := do
  let found ← lookahead do
    let items ← within (fun s => { s with inOperator := false }) (declarators kind false)
    pure (items.length, ← isCollection)
  match found with
  | some (n, true) =>
      let items ← within (fun s => { s with inOperator := false }) (declarators kind false)
      flawIf (n != 1)
      collectionRest (.group items) isAwait
  | _ =>
      let items ← within (fun s => { s with inOperator := false }) (declarators kind true)
      flawIf isAwait
      countingRest items

/-- The word `let` opens a declaration in the head of a loop. -/
def letDeclares : Parse Bool := do
  match ← peek with
  | .word name _ => pure (name != "in" && name != "instanceof" && !(name == "of" && !(← ofIsName)))
  | .punct mark => pure (mark == "[" || mark == "\x7b")
  | _ => pure false
where
  /-- After `let of` comes what follows a declared name. -/
  ofIsName : Parse Bool := ahead do
    advance
    advance
    pure ((← isAt "=") || (← isAt ";") || (← isAt ",") || (← isAt ":") || (← isCollection))

/-- The words `using` or `await using` open a declaration. -/
def usingDeclares : Parse Bool := nextOnLine fun
  | .word name _ => !isReserved name && name != "of"
  | _ => false

def awaitUsingDeclares : Parse Bool := do
  if (← isWord "await") then ahead do
    advance
    if (← afterNewline) || !(← isWord "using") then pure false else usingDeclares
  else pure false

def forStatement : Parse Outline := do
  expectWord "for"
  let isAwait ← isWord "await"
  if isAwait then
    flawIf (!(← scope).awaits)
    advance
  expect "("
  if ← isAt ";" then
    flawIf isAwait
    countingRest []
  else if ← eatWord "var" then declaringLoop .var isAwait
  else if ← eatWord "const" then declaringLoop .const isAwait
  else if (← isWord "let") && (← letDeclares) then
    advance
    declaringLoop .let isAwait
  else if (← isWord "using") && (← usingDeclares) then
    advance
    declaringLoop .using isAwait
  else if ← awaitUsingDeclares then
    advance
    advance
    declaringLoop .using isAwait
  else
    let isAsync := (← isWord "async") && ((← peek) == .word "of" false)
    let beginsLet ← isWord "let"
    let first ← within (fun s => { s with inOperator := false }) (rule .expression)
    if ← isCollection then
      if ← isWord "of" then flawIf ((isAsync && !isAwait && first matches .identifier _) || beginsLet)
      match first.targetDefaults with
      | some n => note fun notes => { notes with openDefaults := notes.openDefaults - n }
      | none => failure
      collectionRest first isAwait
    else
      flawIf isAwait
      countingRest [first]

def whileStatement : Parse Outline := do
  expectWord "while"
  let test ← head
  pure (.group [test, ← body])

def doStatement : Parse Outline := do
  expectWord "do"
  let inner ← body
  expectWord "while"
  let test ← head
  discard (eat ";")
  pure (.group [inner, test])

/-! ## Other statements with a keyword -/

def ifStatement : Parse Outline := do
  expectWord "if"
  let test ← head
  let yes ← body
  if ← eatWord "else" then pure (.group [test, yes, ← body]) else pure (.group [test, yes])

/-- A jump, with the label it names. -/
def jump : Parse Outline := do
  advance
  if !(← canEndStatement) then discard bindingName
  semicolon
  pure .nothing

def returnStatement : Parse Outline := do
  expectWord "return"
  flawIf (!(← scope).returns)
  if ← canEndStatement then
    semicolon
    pure .nothing
  else expressionStatement

def withStatement : Parse Outline := do
  expectWord "with"
  let object ← head
  pure (.group [object, ← body])

def switchCase : Parse (List Outline) := do
  let test ←
    if ← eatWord "default" then pure []
    else
      expectWord "case"
      pure [← openExpression]
  expect ":"
  let items ← many do
    if (← isAt "\x7d") || (← isWord "case") || (← isWord "default") then pure none
    else pure (some (← rule (.statement false)))
  pure (test ++ items)

def switchStatement : Parse Outline := do
  expectWord "switch"
  let value ← head
  expect "\x7b"
  let cases ← many do
    if ← isAt "\x7d" then pure none else pure (some (← switchCase))
  expect "\x7d"
  pure (.group (value :: cases.flatten))

def throwStatement : Parse Outline := do
  expectWord "throw"
  flawIf (← afterNewline)
  expressionStatement

def catchClause : Parse (List Outline) := do
  if ← eatWord "catch" then
    let parameter ←
      if ← eat "(" then do
        let target ← rule .binding
        let annotation ← typeAnnotation
        expect ")"
        pure (target :: annotation)
      else pure []
    pure (parameter ++ [← statements])
  else pure []

def tryStatement : Parse Outline := do
  expectWord "try"
  let inner ← statements
  let handler ← catchClause
  let final ← if ← eatWord "finally" then pure [← statements] else pure []
  flawIf (handler.isEmpty && final.isEmpty)
  pure (.group (inner :: handler ++ final))

/-! ## Statements that begin with a name -/

/-- An expression, or a label with the statement that it names. -/
def expressionOrLabel : Parse Outline := do
  let v ← openExpression
  match v with
  | .identifier _ =>
      if ← eat ":" then body
      else
        semicolon
        pure v
  | v =>
      semicolon
      pure v

def functionStatement (alone isAsync : Bool) : Parse Outline := do
  let isGenerator := (← peek) == .punct "*"
  flawIf (alone && (isAsync || isGenerator))
  function isAsync false true

/-- A statement that begins with `let`, which is also a name. -/
def letStatement (alone : Bool) : Parse Outline := do
  let next ← peek
  let isOperator := match next with
    | .punct mark => assignmentOperators.contains mark || mark == ">"
    | _ => false
  if isOperator || (precedence? next).isSome then expressionStatement
  else if next == .punct "." || next == .punct "(" then expressionStatement
  else if (alone && next != .punct "[") || next == .punct ";" then expressionStatement
  else
    advance
    flawIf alone
    declarationList .let

def constStatement (alone : Bool) : Parse Outline := do
  if (← isTyped) && ((← peek) == .word "enum" false) then
    advance
    enumFrom
  else
    expectWord "const"
    flawIf alone
    declarationList .const

/-- What decorators may stand in front of. -/
def decorated (alone : Bool) : Parse Outline := do
  let ds ← decorators
  flawIf alone
  if ← isWord "export" then
    advance
    if ← eatWord "default" then
      noteExports ["default"]
      if ← isTyped then discard (eatWord "abstract")
      pure (.group (ds ++ [← classFrom false]))
    else
      if !(← isTyped) then
        if ← isWord "class" then noteExports (← declaredName)
      decoratedClassOnly ds
  else decoratedClassOnly ds
where
  decoratedClassOnly (ds : List Outline) : Parse Outline := do
    if ← isWord "class" then pure (.group (ds ++ [← classFrom true]))
    else if ← isTyped then decoratedClass true ds
    else failure

/-- A declaration of TypeScript that its words mark. -/
def typedStatement : Parse Outline := markedDeclaration do
  match ← token with
  | .word "import" false => importDeclaration
  | .word "export" false => exportDeclaration
  | .word "var" false =>
      advance
      declarationList .var
  | .word "let" false =>
      advance
      declarationList .let
  | .word "const" false => constStatement false
  | .word "function" false => function false false true
  | .word "class" false => classFrom true
  | _ =>
      if ← beginsAsyncFunction then
        advance
        function true false true
      else failure

/-- Words that may begin a declaration of TypeScript. -/
def typedWords : List String := [
  "interface", "type", "module", "namespace", "declare", "enum", "private", "protected", "public",
  "abstract", "accessor", "static", "readonly", "global"]

def wordStatement (alone : Bool) (name : String) : Parse Outline := do
  match name with
  | "if" => ifStatement
  | "do" => doStatement
  | "while" => whileStatement
  | "for" => forStatement
  | "continue" | "break" => jump
  | "with" => withStatement
  | "switch" => switchStatement
  | "throw" => throwStatement
  | "try" => tryStatement
  | "debugger" =>
      advance
      semicolon
      pure .nothing
  | "class" =>
      flawIf alone
      classFrom true
  | "export" => exportDeclaration
  | "return" => returnStatement
  | "var" =>
      advance
      declarationList .var
  | "function" => functionStatement alone false
  | "let" => letStatement alone
  | "const" => constStatement alone
  | "import" => do
      match ← peek with
      | .punct "." | .punct "(" => expressionOrLabel
      | _ => importDeclaration
  | "async" =>
      if ← beginsAsyncFunction then
        advance
        functionStatement alone true
      else expressionOrLabel
  | "using" =>
      if ← usingDeclares then
        advance
        flawIf alone
        declarationList .using
      else expressionOrLabel
  | "await" =>
      if ← awaitUsingDeclares then
        advance
        advance
        flawIf alone
        declarationList .using
      else expressionOrLabel
  | _ =>
      if typedWords.contains name && (← isTyped) && (← beginsDeclaration) then typedStatement
      else expressionOrLabel

def statement (alone : Bool) : Parse Outline := do
  match ← token with
  | .punct "\x7b" => statements
  | .punct ";" =>
      advance
      pure .nothing
  | .punct "@" => decorated alone
  | .word name false => wordStatement alone name
  | _ => expressionOrLabel

end VendorBundle.Script.Grammar
