import VendorBundle.Script.Grammar.Declarations

/-!
# Imports and exports
-/

namespace VendorBundle.Script.Grammar

open Parse

/-! ## Attributes and lists of names -/

def importAttribute : Parse Outline := do
  match ← token with
  | .word .. | .string _ => advance
  | _ => failure
  expect ":"
  let _ ← stringToken
  pure .nothing

/-- What a module has to be, after `with` or `assert`. -/
def importAttributes : Parse Unit := do
  if (← isWord "with") || ((← isWord "assert") && !(← afterNewline)) then
    advance
    expect "\x7b"
    discard (commaList "\x7d" importAttribute)

/-- The end of an import or re-export: the specifier and its attributes. -/
def moduleSource : Parse String := do
  let specifier ← stringToken
  importAttributes
  semicolon
  pure specifier

/-- A name that a module exports. -/
inductive ExportName where
  | word (name : String) (reserved : Bool)
  | string (text : String)

def exportName : Parse ExportName := do
  match ← token with
  | .string text =>
      advance
      pure (.string text)
  | .word name _ =>
      advance
      pure (.word name (isReserved name))
  | _ => failure

def ExportName.text : ExportName → String
  | word name _ => name
  | string text => text

/-- The name can stand for a variable. -/
def ExportName.isVariable : ExportName → Bool
  | word _ reserved => !reserved
  | string _ => false

/-- A name with the name it is given, where `type` in front of both is only a mark. -/
structure RenamedName where
  source : ExportName
  target : ExportName

/-- A token that may be a name in a list. -/
def isListName : Token → Bool
  | .word .. | .string _ => true
  | _ => false

/-- A name in a list. Where all names are marked as types, none is marked again. -/
def renamedName (typeOnly : Bool) : Parse RenamedName := do
  if (← isTyped) && (← isWord "type") && (← typeIsMark) then
    flawIf typeOnly
    advance
  let source ← exportName
  if ← eatWord "as" then pure ⟨source, ← exportName⟩ else pure ⟨source, source⟩
where
  /-- The word `type` marks the name after it: `type x`, `type as`, `type as as x`, but not
  `type as x`. -/
  typeIsMark : Parse Bool := ahead do
    advance
    if ← eatWord "as" then
      if ← eatWord "as" then pure (isListName (← token))
      else pure (!isListName (← token))
    else pure (isListName (← token))

def nameList (typeOnly : Bool) : Parse (List RenamedName) := do
  expect "\x7b"
  let names ← many do
    if ← isAt "\x7d" then pure none
    else
      let n ← renamedName typeOnly
      if !(← isAt "\x7d") then expect ","
      pure (some n)
  expect "\x7d"
  pure names

/-! ## Imports -/

def importedNames (typeOnly : Bool) : Parse Unit := do
  if ← eat "*" then
    expectWord "as"
    discard bindingName
  else
    let names ← nameList typeOnly
    if names.any (!·.target.isVariable) then failure

/-- The names of an import declaration. -/
def importClause (typeOnly : Bool) : Parse Unit := do
  match ← token with
  | .punct "*" | .punct "\x7b" => importedNames typeOnly
  | _ =>
      let _ ← bindingName
      if ← eat "," then importedNames typeOnly

/-- An import of TypeScript that gives a name to a module or to a part of a name space. -/
def importEquals : Parse Outline := do
  let _ ← bindingName
  expect "="
  if (← isWord "require") && (← peekIs "(") then
    advance
    advance
    let _ ← stringToken
    expect ")"
  else entityName
  semicolon
  pure .nothing

/-- The word at this place is a mark of the import and not the name that it binds. -/
def isImportMark (word : String) : Parse Bool := do
  if ← isWord word then
    match ← peek with
    | .word "from" _ => ahead do
        advance
        pure ((← peek) == .word "from" false || (← peekIs "=") )
    | .word name _ => pure (!isReserved name)
    | .punct "*" => pure true
    | .punct "\x7b" => pure (word == "type")
    | _ => pure false
  else pure false

def isEquals : Parse Bool := do
  if ← isTyped then ahead do
    let _ ← bindingName
    isAt "="
  else pure false

def importDeclaration : Parse Outline := do
  expectWord "import"
  match ← token with
  | .string _ => pure (.importFrom (← moduleSource) false)
  | _ =>
      let typeOnly ← if ← isTyped then isImportMark "type" else pure false
      if typeOnly then advance
      else if (← isImportMark "defer") && (← peekIs "*") then advance
      else if (← isImportMark "source") && isName (← peek) then advance
      if ← isEquals then importEquals
      else
        importClause typeOnly
        expectWord "from"
        pure (.importFrom (← moduleSource) typeOnly)

/-! ## Exports -/

/-- Notes names as exported; a name is exported once. -/
def noteExports (names : List String) : Parse Unit := do
  let seen := (← cursor).exported
  flawIf (!(← isTyped) && (names.any (seen.contains ·) || !decide names.Nodup))
  note fun notes => { notes with exported := names ++ notes.exported }

def exportList (typeOnly : Bool) : Parse Outline := do
  let names ← nameList typeOnly
  let specifier ←
    if ← eatWord "from" then pure (some (← moduleSource))
    else
      flawIf (names.any (!·.source.isVariable))
      flawIf (names.any (strictWords.contains ·.source.text))
      semicolon
      pure none
  noteExports (names.map (·.target.text))
  pure (.exportNames specifier typeOnly)

def exportStar (typeOnly : Bool) : Parse Outline := do
  expect "*"
  if ← eatWord "as" then
    let name ← exportName
    noteExports [name.text]
  expectWord "from"
  pure (.exportAll (← moduleSource) typeOnly)

/-- The names that a list of declared variables binds. -/
def declaredNames : Outline → List String
  | .group items => Outline.boundNamesOf items
  | _ => []

/-- The name after the keyword of a function or class. -/
def declaredName : Parse (List String) := do
  let found ← lookahead do
    discard (eatWord "async")
    advance
    discard (eat "*")
    anyName
  pure found.toList

/-- A class after its decorators. -/
def decoratedClass (needsName : Bool) (ds : List Outline) : Parse Outline := do
  let body ← markedDeclaration (classFrom needsName)
  pure (.group (ds ++ [body]))

def classDeclaration (needsName : Bool) : Parse Outline := do
  let ds ← decorators
  if ← isWord "abstract" then decoratedClass needsName ds
  else
    let body ← classFrom needsName
    pure (.group (ds ++ [body]))

def exportDefault : Parse Outline := do
  expectWord "default"
  noteExports ["default"]
  match ← token with
  | .word "function" false => function false false false
  | .word "class" false | .punct "@" => classDeclaration false
  | .word "interface" false =>
      if (← isTyped) && (← nextOnLine isName) then interfaceFrom else value
  | .word "abstract" false =>
      if (← isTyped) && (← nextOnLine (· == .word "class" false)) then
        advance
        classFrom false
      else value
  | _ =>
      if ← beginsAsyncFunction then
        advance
        function true false false
      else value
where
  value : Parse Outline := do
    let v ← within openScope (rule (.assignment true))
    semicolon
    pure v

/-- An exported declaration of variables, functions or classes. -/
def exportPlain : Parse Outline := do
  match ← token with
  | .word "var" false => exportVariables .var
  | .word "let" false => exportVariables .let
  | .word "const" false =>
      if (← isTyped) && ((← peek) == .word "enum" false) then
        advance
        enumFrom
      else exportVariables .const
  | .word "function" false =>
      noteExports (← declaredName)
      function false false true
  | .word "class" false =>
      noteExports (← declaredName)
      classFrom true
  | _ =>
      if ← beginsAsyncFunction then
        noteExports (← declaredName)
        advance
        function true false true
      else failure
where
  exportVariables (kind : VariableKind) : Parse Outline := do
    advance
    let vs ← declarationList kind
    noteExports (declaredNames vs)
    pure vs

/-- An export declaration, after any decorators in front of the keyword. -/
def exportDeclaration : Parse Outline := do
  expectWord "export"
  let typed ← isTyped
  match ← token with
  | .punct "*" => exportStar false
  | .punct "\x7b" => exportList false
  | .punct "=" =>
      if typed then
        advance
        let v ← within openScope (rule .expression)
        semicolon
        pure v
      else failure
  | .punct "@" => classDeclaration true
  | .word "default" false => exportDefault
  | .word "import" false =>
      if typed then
        advance
        if ← isImportMark "type" then advance
        importEquals
      else failure
  | .word "as" false =>
      if typed then
        advance
        expectWord "namespace"
        let _ ← bindingName
        semicolon
        pure .nothing
      else failure
  | .word "type" false =>
      if typed && (← peekIs "*") then
        advance
        exportStar true
      else if typed && (← peekIs "\x7b") then
        advance
        exportList true
      else declaration typed
  | _ => declaration typed
where
  declaration (typed : Bool) : Parse Outline := do
    if typed then
      if ← beginsDeclaration then markedDeclaration exportPlain else failure
    else exportPlain

end VendorBundle.Script.Grammar
