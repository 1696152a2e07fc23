import VendorBundle.Script.Grammar.Functions

/-!
# Literals with parts

Templates, arrays and object literals.
-/

namespace VendorBundle.Script.Grammar

open Parse

/-! ## Templates -/

/-- The first text of a template, and the substitutions with the texts after them. -/
def templateStretches : Parse (Option String × List (Outline × Option String)) := do
  match ← token with
  | .template text false =>
      advance
      pure (text, [])
  | .template text true =>
      advance
      let parts ← within (fun s => { s with inOperator := true, decorator := false })
        (templateParts (rule .expression))
      pure (text, parts)
  | _ => failure

/-- A template of its own, in which every escape has to be a good one. -/
def template : Parse Outline := do
  let (first, parts) ← templateStretches
  flawIf (first.isNone || parts.any (·.2.isNone))
  pure (.template (first.getD "") (parts.map fun (o, text) => (o, text.getD "")))

/-- The substitutions of a template with a tag. -/
def taggedTemplate : Parse (List Outline) := do
  let (_, parts) ← templateStretches
  pure (parts.map Prod.fst)

/-! ## Arrays and arguments -/

def item : Parse Outline := within (fun s => { s with inOperator := true, decorator := false })
  (rule (.assignment true))

def spreadItem : Parse Outline := do
  if ← eat "..." then pure (.spread (← item)) else item

def arguments : Parse (List Outline) := do
  expect "("
  commaList ")" spreadItem

def arrayLiteral : Parse Outline := do
  expect "["
  let items ← many do
    if ← isAt "]" then pure none
    else if ← eat "," then pure (some (Outline.hole, false))
    else
      let v ← spreadItem
      if ← isAt "]" then pure (some (v, false))
      else
        expect ","
        pure (some (v, true))
  expect "]"
  pure (.array (items.map Prod.fst) ((items.getLast?.map Prod.snd).getD false))

/-! ## Object literals -/

/-- The token after a word shows that the word modifies a member. -/
def modifiesMember (sameLine star : Bool) : Parse Bool := ahead do
  advance
  if sameLine && (← afterNewline) then pure false
  else
    match ← token with
    | .word .. | .string _ | .number | .bigint | .privateName _ => pure true
    | .punct "[" => pure true
    | .punct "*" => pure star
    | _ => pure false

def eatModifier (word : String) (sameLine star : Bool) : Parse Bool := do
  if (← isWord word) && (← modifiesMember sameLine star) then
    advance
    pure true
  else pure false

def method (name : MemberName) (isAsync isGenerator : Bool) (arity : Arity) : Parse Outline := do
  let f ← within (fun s => { s with ambient := false }) (functionRest isAsync isGenerator arity)
  pure (.property .method (.group name.parts) f)

/-- A member that is a name, which has to be a variable, with an optional default. -/
def shorthand : Parse Outline := do
  let name ← variableName
  if ← eat "=" then
    let value ← item
    note fun notes => { notes with openDefaults := notes.openDefaults + 1 }
    pure (.property .shorthandDefault (.identifier name) value)
  else pure (.property .shorthand (.identifier name) (.identifier name))

/-- The word here is a whole member. -/
def isShorthand : Parse Bool := do
  match ← token with
  | .word .. => do
      match ← peek with
      | .punct mark => pure ([",", "\x7d", "="].contains mark)
      | _ => pure false
  | _ => pure false

def objectMember : Parse Outline := do
  if ← eat "..." then pure (.spread (← item))
  else if ← isShorthand then shorthand
  else if ← eatModifier "get" false false then
    method (← memberName) false false .none
  else if ← eatModifier "set" false false then
    method (← memberName) false false .one
  else
    let isAsync ← eatModifier "async" true true
    let isGenerator ← eat "*"
    let name ← memberName
    if isAsync || isGenerator || (← isCall) then method name isAsync isGenerator .any
    else
      expect ":"
      pure (.property .pair (.group name.parts) (← item))

def objectLiteral : Parse Outline := do
  expect "\x7b"
  let members ← many do
    if ← isAt "\x7d" then pure none
    else
      let m ← objectMember
      if ← isAt "\x7d" then pure (some (m, false))
      else
        expect ","
        pure (some (m, true))
  expect "\x7d"
  pure (.object (members.map Prod.fst) ((members.getLast?.map Prod.snd).getD false))

end VendorBundle.Script.Grammar
