import VendorBundle.Script.Grammar.Types

/-!
# JSX

An element is read from its opening bracket to its last closing one, where the parse stops before
moving on: what comes next is text when the element is a child of another.
-/

namespace VendorBundle.Script.Grammar

open Parse

/-- The rest of a word that hyphens may continue. -/
def jsxWord (text : List Char) : Option (Token × List Char) :=
  let isPart (c : Char) := Lexer.isNamePart c || c == '-'
  let name := text.takeWhile isPart
  if name.isEmpty then none else some (.word (String.ofList name) true, text.dropWhile isPart)

theorem spells_jsxWord {text rest : List Char} {token : Token}
    (h : jsxWord text = some (token, rest)) : Spells text token rest ∧ token ≠ .done := by
  obtain ⟨-, hword⟩ := Option.ite_none_left_eq_some.mp h
  obtain ⟨rfl, rfl⟩ := Prod.mk.inj (Option.some.inj hword)
  have hslash : (Lexer.isNamePart '/' || '/' == '-') = false := by decide
  exact ⟨(Lexer.passes_dropWhile hslash text).spells _, Token.noConfusion⟩

def jsxName : Parse String := do
  match ← token with
  | .word .. =>
      reread jsxWord spells_jsxWord
      anyName
  | _ => failure

/-- A name with a name space in front of it, or with names of members after it. -/
def jsxElementName : Parse String := do
  let first ← jsxName
  if ← eat ":" then
    let second ← jsxName
    pure (first ++ ":" ++ second)
  else
    iterate
      (fun text => do
        if ← eat "." then
          let part ← jsxName
          pure (some (text ++ "." ++ part))
        else pure none)
      first

/-! ## Attributes -/

/-- A string of an attribute, in which a backslash is a character. -/
def jsxString (text : List Char) : Option (Token × List Char) :=
  match text with
  | quote :: rest =>
      if quote == '"' || quote == '\'' then
        match rest.dropWhile (· != quote) with
        | _ :: after => some (.string (String.ofList (rest.takeWhile (· != quote))), after)
        | [] => none
      else none
  | [] => none

theorem spells_jsxString {text rest : List Char} {token : Token}
    (h : jsxString text = some (token, rest)) : Spells text token rest ∧ token ≠ .done := by
  unfold jsxString at h
  split at h
  · rename_i quote text
    obtain ⟨-, hstring⟩ := Option.ite_none_right_eq_some.mp h
    split at hstring
    · rename_i mark after hafter
      obtain ⟨rfl, rfl⟩ := Prod.mk.inj (Option.some.inj hstring)
      have hsuffix : mark :: after <:+ text := hafter ▸ List.dropWhile_suffix _
      refine ⟨Lexer.spells_of_suffix ?_ rfl, Token.noConfusion⟩
      exact Lexer.suffix_of_cons ((List.suffix_cons mark after).trans hsuffix)
    · cases hstring
  · cases h

/-- An expression between braces, up to the closing one. -/
def jsxExpression : Parse Outline := do
  let v ← within (fun s => { s with inOperator := true, decorator := false }) (rule .expression)
  if ← isAt "\x7d" then pure v else failure

def jsxAttributeValue : Parse (List Outline) := do
  if ← isAt "=" then
    if ← advanceTo jsxString spells_jsxString then
      advance
      pure []
    else
      advance
      if ← eat "\x7b" then
        let v ← jsxExpression
        advance
        pure [v]
      else
        let v ← rule .jsxElement
        advance
        pure [v]
  else pure []

def jsxAttribute : Parse Outline := do
  if ← eat "\x7b" then
    expect "..."
    let v ← item
    expect "\x7d"
    pure v
  else
    let _ ← jsxName
    if ← eat ":" then discard jsxName
    pure (.group (← jsxAttributeValue))
where
  item : Parse Outline := within (fun s => { s with inOperator := true }) (rule (.assignment true))

def jsxAttributes : Parse (List Outline) := many do
  match ← token with
  | .word .. | .punct "\x7b" => pure (some (← jsxAttribute))
  | _ => pure none

/-! ## Children -/

/-- What comes next among the children of an element. -/
inductive JsxChild where
  | part (outline : Outline)
  /-- The opening bracket and slash of the closing tag. -/
  | closing

/-- Goes to the next bracket or brace in the text of an element. -/
def jsxText : Parse Unit := fun _ => Step.skipText

def jsxChild : Parse JsxChild := do
  jsxText
  if ← eat "\x7b" then
    if ← isAt "\x7d" then pure (.part .nothing)
    else if ← eat "..." then pure (.part (← jsxExpression))
    else pure (.part (← jsxExpression))
  else if ← peekIs "/" then
    advance
    advance
    pure .closing
  else pure (.part (← rule .jsxElement))

/-- The children of an element and its closing tag, after the bracket that ends the opening one. -/
def jsxChildren (name : Option String) : Parse (List Outline) := do
  let parts ← iterate
    (fun (s : List Outline × Bool) => do
      if s.2 then pure none
      else
        match ← jsxChild with
        | .part p => pure (some (p :: s.1, false))
        | .closing => pure (some (s.1, true)))
    ([], false)
  let closing ← if ← isAt ">" then pure none else pure (some (← jsxElementName))
  flawIf (closing != name)
  if ← isAt ">" then pure parts.1.reverse else failure

/-- An element or fragment, up to its last bracket. -/
def jsxElement : Parse Outline := do
  expect "<"
  if ← isAt ">" then pure (.group (← jsxChildren none))
  else
    let name ← jsxElementName
    let generics ← if (← isTyped) && (← isAtOpenAngle) then typeArguments else pure []
    let attributes ← jsxAttributes
    if ← eat "/" then
      if ← isAt ">" then pure (.group (generics ++ attributes)) else failure
    else if ← isAt ">" then
      pure (.group (generics ++ attributes ++ (← jsxChildren (some name))))
    else failure

end VendorBundle.Script.Grammar
