import VendorBundle.Script.Grammar.Objects

/-!
# Classes
-/

namespace VendorBundle.Script.Grammar

open Parse

/-- The surroundings of the initial value of a field. -/
def fieldScope (s : Scope) : Scope :=
  { s with inOperator := true, awaits := false, yields := false, decorator := false }

/-- The surroundings of a static block. -/
def blockScope (s : Scope) : Scope :=
  { s with inOperator := true, awaits := true, yields := false, returns := false,
           decorator := false }

def fieldModifiers : List String := [
  "abstract", "accessor", "declare", "override", "private", "protected", "public", "readonly",
  "static"]

def methodModifiers : List String := [
  "abstract", "async", "override", "private", "protected", "public", "static"]

/-- A field after its name. -/
def fieldRest (ms : List String) (name : MemberName) : Parse Outline := do
  allow fieldModifiers ms
  flawIf (name.is "constructor" && name.computed.isNone)
  if ← isTyped then
    if ← eat "?" then pure ()
    else if (← isAt "!") && !(← afterNewline) then advance
  let annotation ← typeAnnotation
  let value ← within fieldScope initializer
  semicolon
  pure (.group (name.parts ++ annotation ++ value.toList))

/-- A method after its name. -/
def methodRest (ms : List String) (isGenerator : Bool) (name : MemberName) : Parse Outline := do
  let isAsync := ms.contains "async"
  allow methodModifiers ms
  let isConstructor := name.is "constructor" && !ms.contains "static"
  if isConstructor then
    flawIf (isAsync || isGenerator)
    if ← isTyped then flawIf (← isAtOpenAngle)
  let f ← functionRest isAsync isGenerator (if isConstructor then .noThis else .any)
  pure (.group (name.parts ++ [f]))

def accessor (ms : List String) (arity : Arity) : Parse Outline := do
  allow (methodModifiers.erase "async") ms
  let name ← classMemberName
  flawIf (name.is "constructor" && !ms.contains "static")
  flawIf (name.isPrivate && name.text == some "constructor")
  let f ← functionRest false false arity
  pure (.group (name.parts ++ [f]))

def classMember : Parse Outline := do
  let ds ← decorators
  if (← isWord "static") && (← peekIs "\x7b") then
    flawIf (!ds.isEmpty)
    advance
    within blockScope statements
  else
    let ms ← modifiers true
    let m ←
      if ← eatModifier "get" false false then accessor ms .none
      else if ← eatModifier "set" false false then accessor ms .one
      else if (← isTyped) && (← isIndexSignature) then
        allow ["static", "readonly", "declare", "override"] ms
        let v ← indexSignature
        memberSemicolon
        pure v
      else
        let isGenerator ← eat "*"
        let name ← classMemberName
        flawIf (name.isPrivate && name.text == some "constructor")
        flawIf (ms.contains "static" && name.is "prototype")
        let isOptional := (← isTyped) && (← isAt "?") && ((← peekIs "(") || (← peekIs "<"))
        if isOptional then advance
        if isGenerator || (← isCall) then methodRest ms isGenerator name
        else fieldRest ms name
    pure (.group (ds ++ [m]))

/-- The members of a class, between braces. -/
def classBody : Parse Outline := do
  expect "\x7b"
  let members ← many do
    if ← isAt "\x7d" then pure none
    else if ← eat ";" then pure (some Outline.nothing)
    else pure (some (← classMember))
  expect "\x7d"
  pure (.group members)

/-- A base class. -/
def baseClass : Parse Outline := do
  let base ← rule .leftHand
  let arguments ← if (← isTyped) && (← isAtOpenAngle) then typeArguments else pure []
  let more ← many do
    if ← eat "," then
      flaw
      pure (some (← rule .leftHand))
    else pure none
  pure (.group (base :: arguments ++ more))

/-- A base class and, in TypeScript, a list of interfaces after it, each at most once. -/
def heritage (hasBase hasInterfaces : Bool) : Parse (Option (Outline × Bool × Bool)) := do
  if ← eatWord "extends" then
    flawIf (hasBase || hasInterfaces)
    pure (some (← baseClass, true, hasInterfaces))
  else if ← isWord "implements" then
    flawIf (hasInterfaces || !(← isTyped))
    advance
    pure (some (.group (← commaSeparated (rule .type)), hasBase, true))
  else pure none

/-- What a class builds on. -/
def heritages : Parse (List Outline) := do
  let found ← iterate
    (fun (bases, hasBase, hasInterfaces) => do
      match ← heritage hasBase hasInterfaces with
      | some (base, hasBase, hasInterfaces) => pure (some (base :: bases, hasBase, hasInterfaces))
      | none => pure none)
    (([] : List Outline), false, false)
  pure found.1.reverse

/-- The word here names the class and does not begin a list of interfaces. -/
def isClassName : Parse Bool := do
  match ← token with
  | .word "implements" false => pure !(isName (← peek))
  | .word name _ => pure !(isReserved name)
  | _ => pure false

/-- A class from the keyword on. -/
def classFrom (needsName : Bool) : Parse Outline := do
  expectWord "class"
  if ← isClassName then discard bindingName
  else if needsName then failure
  let generics ← typeParameters?
  let bases ← heritages
  let body ← within (fun s => { s with decorator := false }) classBody
  pure (.group (generics ++ bases ++ [body]))

end VendorBundle.Script.Grammar
