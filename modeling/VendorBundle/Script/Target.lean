import VendorBundle.Script.Outline

/-!
# Assignment targets and patterns

An expression on the left of an assignment is read once more as a target: a variable, a member, or
an array or object literal of targets. The defaults of an object literal are taken up by this.
-/

namespace VendorBundle.Script.Outline

/-- What is below type annotations of an expression. -/
def isSimpleTarget : Outline → Bool
  | identifier _ | member _ | element .. | privateMember _ => true
  | paren inner =>
      match inner with
      | array .. | object .. => false
      | inner => isSimpleTarget inner
  | typed expression _ => isSimpleInner expression
  | _ => false
where
  isSimpleInner : Outline → Bool
    | identifier _ | member _ | element .. | privateMember _ => true
    | paren inner | typed inner _ => isSimpleInner inner
    | _ => false

mutual

/-- The number of defaults in object literals that an expression takes up as an assignment target;
nothing when it is no target. -/
def targetDefaults : Outline → Option Nat
  | array items trailing => itemDefaults trailing items
  | object members trailing => memberDefaults trailing members
  | o => if o.isSimpleTarget then some 0 else none

/-- The same of a target that may have a default. -/
def elementDefaults : Outline → Option Nat
  | assign .. => some 0
  | array items trailing => itemDefaults trailing items
  | object members trailing => memberDefaults trailing members
  | o => if o.isSimpleTarget then some 0 else none

/-- The same of the items of an array, of which only the last may be a rest. -/
def itemDefaults (trailing : Bool) : List Outline → Option Nat
  | [] => some 0
  | [spread argument] => if trailing then none else targetDefaults argument
  | spread _ :: _ => none
  | hole :: rest => itemDefaults trailing rest
  | item :: rest => do
      let n ← elementDefaults item
      let m ← itemDefaults trailing rest
      pure (n + m)

/-- The same of the members of an object. -/
def memberDefaults (trailing : Bool) : List Outline → Option Nat
  | [] => some 0
  | [spread argument] => if trailing then none else targetDefaults argument
  | property .pair _ value :: rest => do
      let n ← elementDefaults value
      let m ← memberDefaults trailing rest
      pure (n + m)
  | property .shorthand .. :: rest => memberDefaults trailing rest
  | property .shorthandDefault .. :: rest => (memberDefaults trailing rest).map (· + 1)
  | _ => none

end

mutual

/-- The names that a binding pattern declares. -/
def boundNames : Outline → List String
  | identifier name => [name]
  | array items _ => boundNamesOf items
  | object members _ => boundNamesOf members
  | property _ _ value => boundNames value
  | assign target _ => boundNames target
  | spread argument => boundNames argument
  | _ => []

def boundNamesOf : List Outline → List String
  | [] => []
  | item :: rest => boundNames item ++ boundNamesOf rest

end

end VendorBundle.Script.Outline
