import VendorBundle.Script.Grammar.Classes
import VendorBundle.Script.Target

/-!
# Expressions
-/

namespace VendorBundle.Script.Grammar

open Parse

def openScope (s : Scope) : Scope := { s with inOperator := true, decorator := false }

/-! ## Primary expressions -/

/-- A call of `import` after the keyword and its phase. -/
def importCall : Parse Outline := do
  expect "("
  if ← isAt ")" then failure
  let source ← item
  let options ←
    if (← eat ",") && !(← isAt ")") then do
      let v ← item
      discard (eat ",")
      pure (some v)
    else pure none
  expect ")"
  pure (.importCall source options)

/-- The keyword `import` in an expression: a call, or `import.meta`. -/
def importExpression : Parse Outline := do
  expectWord "import"
  if ← eat "." then
    if ← eatWord "meta" then pure .nothing
    else if (← isWord "source") || (← isWord "defer") then
      advance
      importCall
    else failure
  else importCall

def superExpression : Parse Outline := do
  expectWord "super"
  if (← isAt ".") || (← isAt "[") || (← isAt "(") then pure .nothing else failure

def regexLiteral : Parse Outline := do
  reread Lexer.regexLiteral Lexer.spells_regex
  advance
  pure .nothing

def parenthesized : Parse Outline := do
  expect "("
  let inner ← within openScope (rule .expression)
  expect ")"
  pure (.paren inner)

def wordExpression (name : String) (escaped : Bool) : Parse Outline := do
  if escaped then pure (.identifier (← variableName))
  else
    match name with
    | "this" | "null" | "true" | "false" =>
        advance
        pure .nothing
    | "function" => function false true false
    | "class" => classFrom false
    | "super" => superExpression
    | "import" => importExpression
    | _ =>
        if ← beginsAsyncFunction then
          advance
          function true true false
        else pure (.identifier (← variableName))

/-! ## Members and calls -/

/-- Type arguments of a call or of an expression, which what follows them has to bear out. -/
def expressionArguments : Parse (List Outline) := do
  openAngle
  let items ← commaSeparated (rule .type)
  if !(← isAt ">") then failure
  reread Lexer.closingAngles Lexer.spells_closingAngles
  expect ">"
  match ← token with
  | .punct "(" | .template .. => pure items
  | .punct "<" | .punct ">" | .punct "+" | .punct "-" => failure
  | t =>
      if (← afterNewline) || (precedence? t).isSome || isTypedOperator t then pure items
      else if beginsExpression t then failure
      else pure items
where
  isTypedOperator : Token → Bool
    | .word "as" false | .word "satisfies" false => true
    | _ => false
  beginsExpression : Token → Bool
    | .word name _ => !isReserved name || ["this", "super", "null", "true", "false", "function",
        "class", "new", "delete", "typeof", "void", "import"].contains name
    | .string _ | .number | .bigint | .privateName _ => true
    | .punct mark => ["[", "\x7b", "++", "--", "!", "~", "/", "/=", "@"].contains mark
    | _ => false

/-- An expression, and whether an optional link is part of its chain. -/
abbrev Chain := Outline × Bool

/-- What follows `?.`, unless that is a call. -/
def optionalMember (object : Outline) : Parse (Option Outline) := do
  match ← token with
  | .punct "[" =>
      advance
      let key ← within openScope (rule .expression)
      expect "]"
      pure (some (.element object key))
  | .privateName _ =>
      advance
      pure (some (.privateMember object))
  | .word .. =>
      advance
      pure (some (.member object))
  | _ => pure none

/-- One more member, template or type argument after an expression. -/
def memberStep (chain : Chain) : Parse (Option Chain) := do
  let (object, optional) := chain
  match ← token with
  | .punct "." =>
      advance
      match ← token with
      | .privateName _ =>
          advance
          pure (some (.privateMember object, optional))
      | _ =>
          let _ ← anyName
          pure (some (.member object, optional))
  | .punct "[" =>
      if (← scope).decorator then pure none
      else
        advance
        let key ← within openScope (rule .expression)
        expect "]"
        pure (some (.element object key, optional))
  | .punct "!" =>
      if (← isTyped) && !(← afterNewline) then
        advance
        pure (some (.typed object [], optional))
      else pure none
  | .template .. =>
      flawIf optional
      pure (some (.group (object :: (← taggedTemplate)), optional))
  | .punct "<" | .punct "<<" =>
      if ← isTyped then
        match ← attempt expressionArguments with
        | some parts => pure (some (.instantiation object parts, optional))
        | none => pure none
      else pure none
  | _ => pure none

/-- The callee of a call with the type arguments it absorbs. -/
def callOf (callee : Outline) (arguments : List Outline) : Outline :=
  match callee with
  | .instantiation callee parts => .call callee (parts ++ arguments)
  | callee => .call callee arguments

def callStep (chain : Chain) : Parse (Option Chain) := do
  match ← memberStep chain with
  | some next => pure (some next)
  | none =>
      if ← isAt "(" then
        pure (some (callOf chain.1 (← arguments), chain.2))
      else if ← eat "?." then
        if ← isAt "(" then pure (some (callOf chain.1 (← arguments), true))
        else if (← isTyped) && (← isAtOpenAngle) then
          let parts ← typeArguments
          pure (some (.call chain.1 (parts ++ (← arguments)), true))
        else
          match ← optionalMember chain.1 with
          | some next => pure (some (next, true))
          | none => failure
      else pure none

/-- A member of the callee of `new`, where an optional link is a fault. -/
def newStep (chain : Chain) : Parse (Option Chain) := do
  match ← memberStep chain with
  | some next => pure (some next)
  | none =>
      if ← eat "?." then
        flaw
        if ← isAt "(" then pure (some (callOf chain.1 (← arguments), true))
        else
          match ← optionalMember chain.1 with
          | some next => pure (some (next, true))
          | none => failure
      else pure none

def newExpression : Parse Outline := do
  expectWord "new"
  if ← eat "." then
    expectWord "target"
    pure .nothing
  else
    let first ← rule .primary
    flawIf (match first with | .importCall .. => true | _ => false)
    let (callee, _) ← iterate newStep (first, false)
    if ← isAt "(" then pure (.group (callee :: (← arguments)))
    else pure (.group [callee])

def primary : Parse Outline := do
  match ← token with
  | .word "new" false => newExpression
  | .word name escaped => wordExpression name escaped
  | .string value =>
      advance
      pure (.string value)
  | .number | .bigint =>
      advance
      pure .nothing
  | .template .. => template
  | .punct "[" => arrayLiteral
  | .punct "\x7b" => objectLiteral
  | .punct "(" => parenthesized
  | .punct "/" | .punct "/=" => regexLiteral
  | .punct "@" =>
      let ds ← decorators
      pure (.group (ds ++ [← classFrom false]))
  | .punct "<" =>
      if (← language).jsx then
        let v ← rule .jsxElement
        advance
        pure v
      else failure
  | _ => failure

def leftHand : Parse Outline := do
  let first ← primary
  let (v, optional) ← iterate callStep (first, false)
  pure (if optional then .optional v else v)

/-! ## Prefix and postfix operators -/

/-- Takes an expression as a simple assignment target. -/
def simpleTarget (o : Outline) : Parse Unit := if o.isSimpleTarget then pure () else failure

def prefixMarks : List String := ["+", "-", "!", "~"]

def prefixWords : List String := ["delete", "typeof", "void"]

/-- A word that opens an operand on the same line, so that `await` or `yield` before it is meant as
an operator. -/
def operandFollows : Parse Bool := nextOnLine fun
  | .word .. | .number | .bigint | .string _ => true
  | _ => false

def isAwait : Parse Bool := do
  if ← isWord "await" then
    if (← scope).awaits then pure true else operandFollows
  else pure false

def isPrivateMember : Outline → Bool
  | .privateMember _ => true
  | .optional inner | .paren inner => isPrivateMember inner
  | _ => false

def update : Parse Outline := do
  if (← isAt "++") || (← isAt "--") then
    advance
    let operand ← rule .unary
    simpleTarget operand
    pure (.group [operand])
  else
    let operand ← leftHand
    if ((← isAt "++") || (← isAt "--")) && !(← afterNewline) then
      simpleTarget operand
      advance
      pure (.group [operand])
    else pure operand

def unary : Parse Outline := do
  match ← token with
  | .punct "<" =>
      if (← language).jsx then update
      else if ← isTyped then
        advance
        let t ← rule .type
        expect ">"
        pure (.typed (← rule .unary) [t])
      else failure
  | .punct mark =>
      if prefixMarks.contains mark then
        advance
        pure (.prefixed (← rule .unary))
      else update
  | .word name false =>
      if prefixWords.contains name then
        advance
        let operand ← rule .unary
        flawIf (name == "delete" && isPrivateMember operand)
        pure (.prefixed operand)
      else if ← isAwait then
        flawIf (!(← scope).awaits)
        advance
        pure (.prefixed (← within (fun s => { s with awaits := true }) (rule .unary)))
      else update
  | _ => update

/-! ## Operators between operands -/

/-- Makes one mark of closing angle brackets and what follows them. -/
def joinAngles : Parse Unit := do
  if ← isAt ">" then reread Lexer.closingAngles Lexer.spells_closingAngles

/-- Types of expressions, and the operators between operands that bind more tightly than `above`. -/
def operatorStep (above : Nat) (left : Outline) : Parse (Option Outline) := do
  joinAngles
  let t ← token
  if (← isTyped) && (t == .word "as" false || t == .word "satisfies" false)
      && !(← afterNewline) && above < 9 then
    advance
    pure (some (.typed left [← rule .type]))
  else
    match precedence? t with
    | none => pure none
    | some p =>
        if (if p = 13 then p < above else p ≤ above) then pure none
        else if t == .word "in" false && !(← scope).inOperator then pure none
        else
          advance
          let right ← rule (.binary p)
          match t with
          | .punct mark =>
              if logicalOperators.contains mark then
                flawIf (mark == "??" && (mixes right || (!isLogical right && mixes left)))
                pure (some (.logical (mark == "??") left right))
              else
                flawIf (mark == "**" && isPrefixed left)
                pure (some (.binary left right))
          | _ => pure (some (.binary left right))
where
  isLogical : Outline → Bool
    | .logical .. => true
    | _ => false
  mixes : Outline → Bool
    | .logical isCoalesce _ _ => !isCoalesce
    | _ => false
  isPrefixed : Outline → Bool
    | .prefixed _ => true
    | _ => false

/-- An operand with the operators after it that bind more tightly than `above`. -/
def binary (above : Nat) : Parse Outline := do
  let first ←
    match ← token with
    | .privateName _ => do
        advance
        if !(← isWord "in") || !(← scope).inOperator || 9 ≤ above then failure
        advance
        pure (.group [← rule (.binary 9)])
    | _ => unary
  iterate (operatorStep above) first

/-! ## Conditionals and assignments -/

def conditionalRest (test : Outline) (returnsType : Bool) : Parse Outline := do
  if ← eat "?" then
    let yes ← within openScope (rule (.assignment false))
    expect ":"
    let no ← rule (.assignment returnsType)
    pure (.group [test, yes, no])
  else pure test

def isYield : Parse Bool := do
  if ← isWord "yield" then
    if (← scope).yields then pure true else operandFollows
  else pure false

def yieldExpression : Parse Outline := do
  flawIf (!(← scope).yields)
  advance
  if ← afterNewline then pure .nothing
  else if ← eat "*" then pure (.group [← rule (.assignment true)])
  else
    match ← token with
    | .punct mark =>
        if [")", "]", "\x7d", ",", ":", ";"].contains mark then pure .nothing
        else pure (.group [← rule (.assignment true)])
    | .done => pure .nothing
    | .word "in" false => pure .nothing
    | _ => pure (.group [← rule (.assignment true)])

/-- An assignment to an expression that was read already. -/
def assignmentTo (left : Outline) (mark : String) (returnsType : Bool) : Parse Outline := do
  if mark == "=" then
    match left.targetDefaults with
    | some n => note fun notes => { notes with openDefaults := notes.openDefaults - n }
    | none => failure
  else simpleTarget left
  advance
  let value ← rule (.assignment returnsType)
  pure (if mark == "=" then .assign left value else .group [left, value])

def assignment (returnsType : Bool) : Parse Outline := do
  if ← isYield then yieldExpression
  else
    match ← arrow? returnsType with
    | some v => pure v
    | none =>
        let left ← binary 0
        joinAngles
        match ← token, left with
        | .punct "=>", .identifier name => simpleArrow false name returnsType
        | .punct mark, _ =>
            if assignmentOperators.contains mark then assignmentTo left mark returnsType
            else conditionalRest left returnsType
        | _, _ => conditionalRest left returnsType

def expression : Parse Outline := do
  let items ← commaSeparated (rule (.assignment true))
  match items with
  | [v] => pure v
  | items => pure (.group items)

end VendorBundle.Script.Grammar
