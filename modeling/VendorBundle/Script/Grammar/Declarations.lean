import VendorBundle.Script.Grammar.Expressions

/-!
# Declarations

Variables, and the declarations that only TypeScript has: interfaces, type names, enumerations and
name spaces.
-/

namespace VendorBundle.Script.Grammar

open Parse

/-! ## Variables -/

/-- The keyword of a variable declaration. -/
inductive VariableKind where
  | var
  | let
  | const
  | using
  deriving DecidableEq

/-- A declared variable lacks the value that it needs: constants and patterns do. -/
def lacksValue (kind : VariableKind) (target : Outline) : Bool :=
  match target with
  | .identifier _ => kind == .const || kind == .using
  | _ => true

/-- One variable; `needsValue` is false in the head of a loop over a collection. -/
def declarator (kind : VariableKind) (needsValue : Bool) : Parse Outline := do
  let target ← rule .binding
  flawIf (kind == .using && !(target matches .identifier _))
  if (← isTyped) && (target matches .identifier _) && (← isAt "!") && !(← afterNewline) then advance
  let annotation ← typeAnnotation
  let value ←
    if ← eat "=" then pure (some (← rule (.assignment true))) else pure none
  flawIf (needsValue && value.isNone && !(← scope).ambient && lacksValue kind target)
  pure (match annotation, value with
    | [], some v => .assign target v
    | [], none => target
    | ts, some v => .assign target (.group (ts ++ [v]))
    | ts, none => .assign target (.group ts))

def declarators (kind : VariableKind) (needsValue : Bool) : Parse (List Outline) :=
  commaSeparated (declarator kind needsValue)

/-- Variables after their keyword. -/
def declarationList (kind : VariableKind) : Parse Outline := do
  let items ← within (fun s => { s with inOperator := true }) (declarators kind true)
  semicolon
  pure (.group items)

/-! ## Types and interfaces -/

def interfaceFrom : Parse Outline := do
  expectWord "interface"
  let _ ← bindingName
  let generics ← typeParameters?
  let bases ← many do
    if ← eatWord "extends" <||> eatWord "implements" then
      pure (some (.group (← commaSeparated (rule .type))))
    else pure none
  let members ← typeMembers
  pure (.group (generics ++ bases ++ [members]))

def typeNameFrom : Parse Outline := do
  expectWord "type"
  let _ ← bindingName
  let generics ← typeParameters?
  expect "="
  let t ← rule .type
  semicolon
  pure (.group (generics ++ [t]))

/-! ## Enumerations -/

def enumMember : Parse Outline := do
  match ← token with
  | .word .. | .string _ => advance
  | .punct "[" =>
      advance
      match ← token with
      | .string _ | .template _ false => advance
      | _ => failure
      expect "]"
  | _ => failure
  let value ← initializer
  pure (.group value.toList)

def enumFrom : Parse Outline := do
  expectWord "enum"
  let _ ← bindingName
  expect "\x7b"
  pure (.group (← commaList "\x7d" enumMember))

/-! ## Name spaces -/

/-- The body of a name space or module. -/
def spaceBody : Parse Outline := within
  (fun s => { s with awaits := false, yields := false, returns := false }) statements

def spaceFrom : Parse Outline := do
  if ← eatWord "global" then spaceBody
  else
    let isModule ← isWord "module"
    advance
    match ← token with
    | .string _ =>
        if !isModule then failure
        advance
        if ← isAt "\x7b" then spaceBody
        else
          semicolon
          pure .nothing
    | _ =>
        let _ ← bindingName
        let _ ← many do
          if ← eat "." then
            let _ ← anyName
            pure (some ())
          else pure none
        spaceBody

/-! ## Declarations with modifiers -/

/-- Words that may stand in front of a declaration of TypeScript on the same line. -/
def leadingWords : List String := [
  "abstract", "accessor", "async", "declare", "private", "protected", "public", "readonly"]

/-- The words at this place open a declaration of TypeScript. -/
def opensDeclaration : Nat → Parse Bool
  | 0 => pure false
  | n + 1 => do
      match ← token with
      | .word name false =>
          match name with
          | "var" | "let" | "const" | "function" | "class" | "enum" => pure true
          | "interface" | "type" => nextOnLine fun
              | .word w _ => !isReserved w
              | _ => false
          | "module" | "namespace" => nextOnLine fun
              | .word w _ => !isReserved w
              | .string _ => true
              | _ => false
          | "global" => do
              match ← peek with
              | .punct "\x7b" | .word .. => pure true
              | _ => pure false
          | "import" => do
              match ← peek with
              | .string _ | .punct "*" | .punct "\x7b" | .word .. => pure true
              | _ => pure false
          | "export" => do
              match ← peek with
              | .punct mark => pure (["=", "*", "\x7b", "@"].contains mark)
              | .word .. => pure true
              | _ => pure false
          | "static" =>
              advance
              opensDeclaration n
          | _ =>
              if leadingWords.contains name then
                advance
                if ← afterNewline then pure false
                else if name == "declare" && (← isWord "type") then pure true
                else opensDeclaration n
              else pure false
      | _ => pure false

def beginsDeclaration : Parse Bool := ahead (opensDeclaration 10)

/-- The words in front of a declaration. -/
def declarationWords : Nat → List String → Parse (List String)
  | 0, _ => failure
  | n + 1, seen => do
      match ← token with
      | .word name false =>
          if (leadingWords.contains name || name == "static")
              && !(name == "async" && (← beginsAsyncFunction)) then
            advance
            declarationWords n (name :: seen)
          else pure seen
      | _ => pure seen

/-- A declaration that TypeScript marks, from its words on. -/
def markedDeclaration (plain : Parse Outline) : Parse Outline := do
  flawIf (!(← isTyped))
  let words ← declarationWords 10 []
  allow (if ← isWord "class" then ["abstract", "declare"] else ["declare"]) words
  flawIf (!decide words.Nodup)
  flawIf (!words.isEmpty && (← isWord "export"))
  within (fun s => { s with ambient := s.ambient || words.contains "declare" }) do
    match ← token with
    | .word "interface" false => interfaceFrom
    | .word "type" false => typeNameFrom
    | .word "enum" false => enumFrom
    | .word "module" false | .word "namespace" false | .word "global" false => spaceFrom
    | _ => plain

end VendorBundle.Script.Grammar
