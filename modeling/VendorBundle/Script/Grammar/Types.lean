import VendorBundle.Script.Grammar.Patterns

/-!
# Types

The types of TypeScript. Of a type only the expressions in computed names and defaults matter to an
outline, so most types are groups of their parts.
-/

namespace VendorBundle.Script.Grammar

open Parse

/-! ## Lists in angle brackets -/

/-- Takes one opening angle bracket, also off an operator that begins with it. -/
def openAngle : Parse Unit := do
  match ← token with
  | .punct "<" => advance
  | .punct "<<" =>
      reread Lexer.openingAngle Lexer.spells_openingAngle
      advance
  | _ => failure

def isAtOpenAngle : Parse Bool := do pure ((← isAt "<") || (← isAt "<<"))

def typeArguments : Parse (List Outline) := do
  openAngle
  flawIf (← isAt ">")
  commaList ">" (rule .type)

def typeArguments? : Parse (List Outline) := do
  if ← isAtOpenAngle then typeArguments else pure []

def typeParameter : Parse Outline := do
  let _ ← modifiers false
  let _ ← eatWord "const"
  let _ ← modifiers false
  let _ ← bindingName
  let bound ← if ← eatWord "extends" then pure [← rule .type] else pure []
  let default ← if ← eat "=" then pure [← rule .type] else pure []
  pure (.group (bound ++ default))

def typeParameterList : Parse Outline := do
  openAngle
  flawIf (← isAt ">")
  pure (.group (← commaList ">" typeParameter))

def typeParameters? : Parse (List Outline) := do
  if (← isTyped) && (← isAtOpenAngle) then pure [← rule .typeParameters] else pure []

/-! ## Return types -/

/-- A name with `is` after it on the same line. -/
def isPredicate : Parse Bool := ahead do
  let _ ← anyName
  pure (!(← afterNewline) && (← isWord "is"))

/-- A type, or a statement about a parameter. -/
def typeOrPredicate : Parse Outline := do
  if (← isWord "asserts") && (← nextOnLine isName) then
    advance
    let _ ← anyName
    if ← eatWord "is" then rule .type else pure .nothing
  else if ← isPredicate then
    let _ ← anyName
    advance
    rule .type
  else rule .type

/-- A return type after the given mark. -/
def returnType (mark : String) : Parse (List Outline) := do
  if ← isTyped <&&> eat mark then pure [← typeOrPredicate] else pure []

/-! ## Members of object types -/

def isIndexSignature : Parse Bool := ahead do
  expect "["
  if (← isAt "...") || (← isAt "]") then pure true
  else
    match ← token with
    | .word .. =>
        advance
        if (← isAt ":") || (← isAt ",") then pure true
        else if ← eat "?" then pure ((← isAt ":") || (← isAt ",") || (← isAt "]"))
        else pure false
    | _ => pure false

def memberSemicolon : Parse Unit := do
  if ← eat "," then pure () else semicolon

def indexSignature : Parse Outline := do
  expect "["
  let _ ← bindingName
  expect ":"
  let key ← rule .type
  expect "]"
  let value ← typeAnnotation
  pure (.group (key :: value))

def signature : Parse (List Outline) := do
  let generics ← typeParameters?
  let ps ← rule .parameters
  let result ← returnType ":"
  pure (generics ++ ps :: result)

def isCall : Parse Bool := do pure ((← isAt "(") || (← isAt "<"))

def isAccessorWord (word : String) : Parse Bool := do
  if ← isWord word then ahead do
    advance
    match ← token with
    | .word .. | .privateName _ | .string _ | .number | .bigint | .punct "[" => pure true
    | _ => pure false
  else pure false

def typeMember : Parse Outline := do
  if ← isCall then
    let parts ← signature
    memberSemicolon
    pure (.group parts)
  else if (← isWord "new") && ((← peekIs "(") || (← peekIs "<")) then
    advance
    let parts ← signature
    memberSemicolon
    pure (.group parts)
  else
    let ms ← modifiers false
    flawIf (ms.any (· != "readonly"))
    if ← isIndexSignature then
      let v ← indexSignature
      memberSemicolon
      pure v
    else
      if (← isAccessorWord "get") || (← isAccessorWord "set") then advance
      let name ← memberName
      discard (eat "?")
      let parts ← if ← isCall then signature else typeAnnotation
      memberSemicolon
      pure (.group (name.parts ++ parts))

/-- The members of an interface or object type, between braces. -/
def typeMembers : Parse Outline := do
  expect "\x7b"
  let members ← many do
    if ← isAt "\x7d" then pure none else pure (some (← typeMember))
  expect "\x7d"
  pure (.group members)

/-! ## Mapped and tuple types -/

def isMapped : Parse Bool := ahead do
  expect "\x7b"
  if ← eat "+" <||> eat "-" then isWord "readonly"
  else
    let _ ← eatWord "readonly"
    expect "["
    let _ ← anyName
    isWord "in"

/-- A plus or minus in front of a modifier of a mapped type. -/
def sign : Parse Bool := do
  if ← eat "+" then pure true else eat "-"

def mapped : Parse Outline := do
  expect "\x7b"
  if ← sign then expectWord "readonly" else discard (eatWord "readonly")
  expect "["
  let _ ← bindingName
  expectWord "in"
  let keys ← rule .type
  let renamed ← if ← eatWord "as" then pure [← rule .type] else pure []
  expect "]"
  if ← sign then expect "?" else discard (eat "?")
  let value ← typeAnnotation
  semicolon
  expect "\x7d"
  pure (.group (keys :: renamed ++ value))

def isLabelled : Parse Bool := ahead do
  discard (eat "...")
  let _ ← anyName
  discard (eat "?")
  isAt ":"

def tupleItem : Parse Outline := do
  if ← isLabelled then
    discard (eat "...")
    let _ ← anyName
    discard (eat "?")
    expect ":"
    rule .type
  else
    discard (eat "...")
    let item ← rule .type
    discard (eat "?")
    pure item

/-! ## Types with a head of their own -/

def entityName : Parse Unit := do
  let _ ← anyName
  let _ ← many do
    if ← eat "." then
      match ← token with
      | .privateName _ => advance
      | _ => discard anyName
      pure (some ())
    else pure none

def typeReference : Parse Outline := do
  match ← token with
  | .word name _ =>
      if isReserved name && name != "const" && name != "this" then failure
      entityName
      if ← afterNewline then pure .nothing
      else pure (.group (← typeArguments?))
  | _ => failure

/-- The type of a module, or of what it exports. -/
def importType : Parse Outline := do
  expectWord "import"
  expect "("
  let _ ← rule .type
  if (← eat ",") && !(← isAt ")") then
    let _ ← rule .primary
    discard (eat ",")
  expect ")"
  let _ ← many do
    if ← eat "." then
      let _ ← anyName
      pure (some ())
    else pure none
  if ← afterNewline then pure .nothing
  else pure (.group (← typeArguments?))

def typeQuery : Parse Outline := do
  expectWord "typeof"
  if ← isWord "import" then importType
  else
    entityName
    if ← afterNewline then pure .nothing
    else pure (.group (← typeArguments?))

/-- The rest of a template, from the closing brace of a substitution on. -/
def templateRest : Parse (Option String × Bool) := do
  if !(← isAt "\x7d") then failure
  reread Lexer.templateRest Lexer.spells_templateRest
  match ← token with
  | .template value more =>
      advance
      pure (value, more)
  | _ => failure

/-- The substitutions of a template, each with the text after it. -/
def templateParts (part : Parse Outline) : Parse (List (Outline × Option String)) := do
  let parts ← iterate
    (fun (s : List (Outline × Option String) × Bool) => do
      if s.2 then
        let item ← part
        let (text, more) ← templateRest
        pure (some ((item, text) :: s.1, more))
      else pure none)
    ([], true)
  pure parts.1.reverse

def templateType : Parse Outline := do
  match ← token with
  | .template _ false =>
      advance
      pure .nothing
  | .template _ true =>
      advance
      let parts ← templateParts (rule .type)
      pure (.group (parts.map Prod.fst))
  | _ => failure

/-! ## The grammar of types -/

/-- The token after a minus is a number. -/
def isNegative : Parse Bool := do
  match ← peek with
  | .number | .bigint => pure true
  | _ => pure false

/-- The names of types that take no arguments. -/
def keywordTypes : List String := [
  "any", "bigint", "boolean", "never", "number", "object", "string", "symbol", "undefined",
  "unknown"]

/-- A type that may be missing after a question mark. -/
def maybeType : Parse Outline := do
  match ← token with
  | .punct mark =>
      if [",", "\x7d", ")", ">", "=", "|"].contains mark then pure .nothing else rule .type
  | _ => rule .type

def primaryType : Parse Outline := do
  let _ ← many do
    if ← eat "!" then pure (some ()) else pure none
  match ← token with
  | .string _ | .number | .bigint =>
      advance
      pure .nothing
  | .template .. => templateType
  | .punct "-" =>
      if ← isNegative then
        advance
        advance
        pure .nothing
      else failure
  | .punct "?" =>
      advance
      maybeType
  | .punct "\x7b" => if ← isMapped then mapped else typeMembers
  | .punct "[" =>
      advance
      pure (.group (← commaList "]" tupleItem))
  | .punct "(" =>
      advance
      let inner ← within (fun s => { s with noConditionalType := false }) (rule .type)
      expect ")"
      pure inner
  | .word "import" false => importType
  | .word "typeof" false => typeQuery
  | .word "void" false | .word "null" false | .word "true" false | .word "false" false =>
      advance
      pure .nothing
  | .word "this" false =>
      advance
      if !(← afterNewline) && (← isWord "is") then
        advance
        rule .type
      else pure .nothing
  | .word "asserts" false =>
      if ← nextOnLine isName then typeOrPredicate else typeReference
  | .word name false =>
      if keywordTypes.contains name && !(← peekIs ".") then
        advance
        pure .nothing
      else typeReference
  | _ => typeReference

/-- The current token may begin a type. -/
def beginsType : Parse Bool := do
  match ← token with
  | .string _ | .number | .bigint | .template .. => pure true
  | .punct "-" => isNegative
  | .punct mark => pure (["\x7b", "[", "(", "<", "|", "&", "*", "?", "!", "..."].contains mark)
  | .word name _ =>
      pure (!isReserved name || ["void", "null", "this", "typeof", "new", "true", "false",
        "function", "import"].contains name)
  | _ => pure false

/-- A type with what follows it: brackets make an array of it, or look a member up in it. Tells
whether it is the type of an array or tuple. -/
def postfixType : Parse (Outline × Bool) := do
  let isTuple ← isAt "["
  let first ← primaryType
  iterate
    (fun (t, _) => do
      if ← afterNewline then pure none
      else if ← eat "!" then pure (some (t, false))
      else if ← isAt "?" then
        if ← ahead (do advance; beginsType) then pure none
        else
          advance
          pure (some (t, false))
      else if ← eat "[" then
        if ← eat "]" then pure (some (t, true))
        else
          let index ← within (fun s => { s with noConditionalType := false }) (rule .type)
          expect "]"
          pure (some (.group [t, index], false))
      else pure none)
    (first, isTuple)

/-- The bound of an inferred type, unless it turns out to begin a conditional type. -/
def inferredBound : Parse (List Outline) := do
  if ← isWord "extends" then
    let found ← attempt do
      advance
      let bound ← within (fun s => { s with noConditionalType := true }) (rule .type)
      if !(← scope).noConditionalType && (← isAt "?") then failure
      pure bound
    pure found.toList
  else pure []

/-- The words in front of a type. -/
def typeOperators : Parse (List String) := many do
  match ← token with
  | .word name false =>
      if ["keyof", "unique", "readonly"].contains name then
        advance
        pure (some name)
      else pure none
  | _ => pure none

/-- A type with words in front of it. Only an array or tuple can be read only. -/
def operatorType : Parse Outline := do
  let operators ← typeOperators
  flawIf (operators.dropLast.contains "readonly")
  if ← eatWord "infer" then
    flawIf (operators.contains "readonly")
    let _ ← bindingName
    pure (.group (← inferredBound))
  else
    let (t, isList) ← within (fun s => { s with noConditionalType := false }) postfixType
    flawIf (operators.getLast? == some "readonly" && !isList)
    pure t

/-- A parameter name or pattern, without its type. -/
def skipParameter : Parse Unit := do
  let _ ← modifiers false
  match ← token with
  | .word .. => advance
  | .punct "[" | .punct "\x7b" => discard (rule .binding)
  | _ => failure

def beginsFunctionType : Parse Bool := do
  if ← isAt "<" then pure true
  else if ← isWord "new" then pure true
  else if (← isWord "abstract") && ((← peek) == .word "new" false) then pure true
  else ahead do
    expect "("
    if (← isAt ")") || (← isAt "...") then pure true
    else
      skipParameter
      if (← isAt ":") || (← isAt ",") || (← isAt "?") || (← isAt "=") then pure true
      else if ← eat ")" then isAt "=>"
      else pure false

def functionType : Parse Outline := do
  let _ ← eatWord "abstract"
  let isConstructor ← eatWord "new"
  let generics ← typeParameters?
  let ps ← rule .parameters
  flawIf (isConstructor && hasThis ps)
  expect "=>"
  let result ← typeOrPredicate
  pure (.group (generics ++ [ps, result]))

/-- A member of a union or intersection, where the type of a function needs parentheses. -/
def constituent : Parse Outline := do
  if ← beginsFunctionType then failure else operatorType

/-- Constituents between a mark, which may also stand in front of the first. -/
def listType (mark : String) (item : Parse Outline) : Parse Outline := do
  discard (eat mark)
  let first ← item
  let more ← many do
    if ← eat mark then pure (some (← item)) else pure none
  pure (if more.isEmpty then first else .group (first :: more))

def unionType : Parse Outline := listType "|" (listType "&" constituent)

/-- A conditional type may go on here. -/
def mayExtend : Parse Bool := do pure (!(← scope).noConditionalType && !(← afterNewline))

def type : Parse Outline := do
  if ← beginsFunctionType then functionType
  else
    let t ← unionType
    if ← mayExtend <&&> eatWord "extends" then
      let bound ← within (fun s => { s with noConditionalType := true }) (rule .type)
      expect "?"
      let yes ← within (fun s => { s with noConditionalType := false }) (rule .type)
      expect ":"
      let no ← within (fun s => { s with noConditionalType := false }) (rule .type)
      pure (.group [t, bound, yes, no])
    else pure t

end VendorBundle.Script.Grammar
