import VendorBundle.Script.Parse

/-!
# Names, patterns and parameters

The names of members, the modifiers and decorators in front of declarations, the patterns that
declare variables, and the parameter lists of functions.
-/

namespace VendorBundle.Script.Grammar

open Parse

/-! ## Names of members -/

/-- The name of a member of an object or class. -/
structure MemberName where
  /-- The name, unless it is computed or a number. -/
  text : Option String := none
  isPrivate : Bool := false
  /-- The expression that computes the name. -/
  computed : Option Outline := none

def MemberName.parts (n : MemberName) : List Outline := n.computed.toList

/-- The name is written out as the given text. -/
def MemberName.is (n : MemberName) (text : String) : Bool := n.text == some text && !n.isPrivate

def memberName : Parse MemberName := do
  match ← token with
  | .word name _ =>
      advance
      pure { text := some name }
  | .string value =>
      advance
      pure { text := some value }
  | .number | .bigint =>
      advance
      pure {}
  | .punct "[" =>
      advance
      let key ← within (fun s => { s with inOperator := true, decorator := false })
        (rule (.assignment true))
      expect "]"
      pure { computed := some key }
  | _ => failure

/-- The name of a member of a class, which may be private. -/
def classMemberName : Parse MemberName := do
  match ← token with
  | .privateName name =>
      advance
      pure { text := some name, isPrivate := true }
  | _ => memberName

/-- The token begins the name of a member, or what may stand before one. -/
def beginsMember : Token → Bool
  | .word .. | .privateName _ | .string _ | .number | .bigint => true
  | .punct mark => ["[", "\x7b", "*", "..."].contains mark
  | _ => false

/-! ## Modifiers and decorators -/

def modifierWords : List String := [
  "abstract", "accessor", "async", "declare", "default", "export", "in", "out", "override",
  "private", "protected", "public", "readonly", "static"]

/-- The modifiers that only TypeScript has. -/
def typedModifiers : List String := [
  "abstract", "declare", "in", "out", "override", "private", "protected", "public", "readonly",
  "const"]

/-- A modifier, when what follows it shows that it is one. In a class the opening of a static block
is none. -/
def modifier? (inClass : Bool) (seen : List String) : Parse (Option String) := do
  match ← token with
  | .word name false =>
      if !modifierWords.contains name then pure none
      else if name == "static" && ((inClass && (← peekIs "\x7b")) || seen.contains name) then
        pure none
      else
        let follows ←
          if name == "static" then ahead do
            advance
            pure (beginsMember (← token))
          else nextOnLine beginsMember
        if follows then
          advance
          pure (some name)
        else pure none
  | _ => pure none

def modifiersAfter (inClass : Bool) : Nat → List String → Parse (List String)
  | 0, _ => failure
  | n + 1, seen => do
      match ← modifier? inClass seen with
      | some name =>
          flawIf (seen.contains name)
          modifiersAfter inClass n (name :: seen)
      | none => pure seen

/-- The modifiers at this place, last one first. TypeScript's own are faults in JavaScript. -/
def modifiers (inClass : Bool) : Parse (List String) := do
  let found ← modifiersAfter inClass 20 []
  flawIf (!(← isTyped) && found.any (typedModifiers.contains ·))
  pure found

/-- Reports modifiers that have no place here. -/
def allow (allowed found : List String) : Parse Unit :=
  flawIf (found.any (!allowed.contains ·))

def decorators : Parse (List Outline) := many do
  if ← eat "@" then
    pure (some (← within (fun s => { s with decorator := true }) (rule .leftHand)))
  else pure none

/-! ## Binding patterns -/

def initializer : Parse (Option Outline) := do
  if ← eat "=" then
    pure (some (← within (fun s => { s with inOperator := true }) (rule (.assignment true))))
  else pure none

def withDefault (target : Outline) : Option Outline → Outline
  | some value => .assign target value
  | none => target

def bindingElement : Parse Outline := do
  let target ← rule .binding
  pure (withDefault target (← initializer))

/-- A rest element, which has to be the last of its list. -/
def restElement (closing : String) : Parse Outline := do
  expect "..."
  let target ← rule .binding
  flawIf (← isAt "=")
  discard initializer
  if !(← isAt closing) then
    flaw
    expect ","
  pure (.spread target)

def bindingMember : Parse Outline := do
  match ← token with
  | .word name _ =>
      if isReserved name || (← peekIs ":") then
        let key ← memberName
        expect ":"
        let value ← bindingElement
        pure (.property .pair (.group key.parts) value)
      else
        let name ← bindingName
        let value ← initializer
        pure (.property .shorthand .nothing (withDefault (.identifier name) value))
  | _ =>
      let key ← memberName
      expect ":"
      let value ← bindingElement
      pure (.property .pair (.group key.parts) value)

def objectPattern : Parse Outline := do
  expect "\x7b"
  let members ← commaList "\x7d" do
    if ← isAt "..." then
      let rest ← restElement "\x7d"
      flawIf (match rest with | .spread (.identifier _) => false | _ => true)
      pure rest
    else bindingMember
  pure (.object members false)

def arrayPattern : Parse Outline := do
  expect "["
  let items ← many do
    if ← isAt "]" then pure none
    else if ← eat "," then pure (some .hole)
    else if ← isAt "..." then pure (some (← restElement "]"))
    else
      let item ← bindingElement
      if !(← isAt "]") then expect ","
      pure (some item)
  expect "]"
  pure (.array items false)

/-- A pattern that declares variables. -/
def bindingPattern : Parse Outline := do
  match ← token with
  | .punct "\x7b" => objectPattern
  | .punct "[" => arrayPattern
  | _ => pure (.identifier (← bindingName))

/-! ## Parameters -/

/-- A type after a colon, in TypeScript. -/
def typeAnnotation : Parse (List Outline) := do
  if ← isTyped <&&> eat ":" then pure [← rule .type] else pure []

def parameterModifiers : List String := [
  "public", "private", "protected", "readonly", "override", "declare", "in", "const", "async",
  "abstract", "static", "export", "out", "accessor"]

def parameter : Parse Outline := do
  let ds ← decorators
  let ms ← modifiers false
  allow ["public", "private", "protected", "readonly", "override"] ms
  let target ← rule .binding
  if ← isTyped then discard (eat "?")
  let annotation ← typeAnnotation
  let value ← initializer
  pure (.group (ds ++ target :: annotation ++ value.toList))

def restParameter : Parse Outline := do
  let ds ← decorators
  expect "..."
  let target ← rule .binding
  if (← isTyped) && (← isAt "?") then
    flaw
    advance
  let annotation ← typeAnnotation
  flawIf (← isAt "=")
  let value ← initializer
  if !(← isAt ")") then
    flaw
    expect ","
  pure (.spread (.group (ds ++ target :: annotation ++ value.toList)))

/-- The parameter `this` of a TypeScript function, which is only a type. -/
def thisParameter : Parse (List Outline) := do
  if ← isTyped <&&> eatWord "this" then
    let annotation ← typeAnnotation
    if !(← isAt ")") then expect ","
    pure annotation
  else pure []

def isRestParameter : Parse Bool := ahead do
  discard decorators
  isAt "..."

/-- A list of parameters between parentheses. -/
def parameterList : Parse Outline := do
  expect "("
  let thisType ← thisParameter
  let items ← commaList ")" do
    if ← isRestParameter then restParameter else parameter
  pure (.group (.group thisType :: items))

/-- A parameter list begins with the type of `this`. -/
def hasThis : Outline → Bool
  | .group (.group (_ :: _) :: _) => true
  | _ => false

end VendorBundle.Script.Grammar
