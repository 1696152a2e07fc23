/-!
# Outlines of programs

An outline keeps of a program's tree what finding imports and telling assignment targets from other
expressions takes. Everything else is a group of its parts, in the order of the text.
-/

namespace VendorBundle.Script

/-- How a member of an object literal is written. -/
inductive MemberForm where
  /-- `key: value` -/
  | pair
  /-- `name` -/
  | shorthand
  /-- `name = value`, which only an assignment target may hold -/
  | shorthandDefault
  /-- A method, getter or setter. -/
  | method
  deriving DecidableEq, Repr

inductive Outline where
  | identifier (name : String)
  | string (value : String)
  /-- A template that is not tagged: its first text, and each expression with the text after it. -/
  | template (first : String) (substitutions : List (Outline × String))
  | call (callee : Outline) (arguments : List Outline)
  | binary (left right : Outline)
  | logical (isCoalesce : Bool) (left right : Outline)
  /-- `object.name` -/
  | member (object : Outline)
  /-- `object[key]` -/
  | element (object key : Outline)
  /-- `object.#name` -/
  | privateMember (object : Outline)
  /-- A chain with an optional link. -/
  | optional (inner : Outline)
  | paren (inner : Outline)
  /-- An array literal or pattern, and whether a comma follows its last item. -/
  | array (items : List Outline) (trailingComma : Bool)
  /-- A place in an array literal that is left empty. -/
  | hole
  | spread (argument : Outline)
  /-- An object literal or pattern, and whether a comma follows its last member. -/
  | object (members : List Outline) (trailingComma : Bool)
  | property (form : MemberForm) (key value : Outline)
  /-- `target = value` -/
  | assign (target value : Outline)
  /-- A prefix operator other than `++` and `--`, or `await`. -/
  | prefixed (argument : Outline)
  /-- `expression as T`, `expression satisfies T`, `<T>expression` or `expression!` -/
  | typed (expression : Outline) (parts : List Outline)
  /-- An expression with type arguments. -/
  | instantiation (expression : Outline) (parts : List Outline)
  | arrow (parts : List Outline)
  | importCall (source : Outline) (options : Option Outline)
  /-- An import declaration. -/
  | importFrom (specifier : String) (typeOnly : Bool)
  /-- A re-export of everything. -/
  | exportAll (specifier : String) (typeOnly : Bool)
  /-- A list of exports, or a re-export of a list. -/
  | exportNames (specifier : Option String) (typeOnly : Bool)
  | group (parts : List Outline)
  deriving Repr

instance : Inhabited Outline := ⟨.group []⟩

namespace Outline

def nothing : Outline := .group []

end Outline

end VendorBundle.Script
