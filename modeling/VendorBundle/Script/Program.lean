import VendorBundle.Script.Grammar.Statements
import VendorBundle.Script.Grammar.Jsx

/-!
# Programs

The rules of the grammar are tied together here: each may use the others within a bounded depth,
which the length of the text makes deep enough. A text is a program when the rules read all of it
without a fault.
-/

namespace VendorBundle.Script

namespace Grammar

/-- What each rule reads. -/
def ofRule : Rule → Parse Outline
  | .statement alone => statement alone
  | .expression => expression
  | .assignment returnType => assignment returnType
  | .binary above => binary above
  | .unary => unary
  | .leftHand => leftHand
  | .primary => primary
  | .binding => bindingPattern
  | .type => type
  | .parameters => parameterList
  | .typeParameters => typeParameterList
  | .functionBody => functionBody
  | .jsxElement => jsxElement

/-- Reads a rule with at most the given depth of rules below it. -/
def run (language : Language) (size : Nat) :
    (depth : Nat) → Rule → Scope → Step Outline
  | 0, _, _ => failure
  | depth + 1, rule, scope =>
      ofRule rule { language, scope, size, nested := run language size depth }

open Parse in
/-- All statements of a text. -/
def program : Parse Outline := do
  let items ← many do
    if ← isDone then pure none else pure (some (← rule (.statement false)))
  pure (.group items)

end Grammar

/-- What becomes of a text that is read as a program. -/
structure Reading where
  outline : Outline
  /-- The comments and tokens of the text, and its first line when that names the interpreter, last
  piece first. -/
  pieces : List Piece

/-- Reads a text as a program, unless it has a fault. -/
def read? (language : Language) (source : String) : Option Reading :=
  let text := source.toList
  let size := text.length + 2
  let scope : Scope := { awaits := language.isModule, ambient := language.ambient }
  let env : Env := { language, scope, size, nested := Grammar.run language size (16 * size) }
  match (Grammar.program env).run (.ofSource (!language.isModule) text) with
  | some (outline, cursor) =>
      if cursor.flawed || cursor.openDefaults != 0 then none else some ⟨outline, cursor.pieces⟩
  | none => none

/-- The outline of a program, unless the text has a fault. -/
def parse? (language : Language) (source : String) : Option Outline :=
  (read? language source).map (·.outline)

end VendorBundle.Script
