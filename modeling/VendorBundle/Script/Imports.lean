import VendorBundle.Import
import VendorBundle.Script.Program

/-!
# The imports of a program

The imports are collected over the outline of a program from its start to its end, an outer one
before those within it. Imports and re-exports of types leave no trace in a running program and
are passed over. The first call of `import` that no import can be made of ends the collection.
-/

namespace VendorBundle

/-- Why the imports of a source file cannot be told. -/
inductive SourceFault where
  /-- The text is no program. -/
  | malformed (path : String)
  /-- The content is no text. -/
  | notText (path reason : String)
  /-- A call of `import` has an argument that is neither a string nor a template. -/
  | argument (path found : String)
  /-- A call of `import` has more than one argument. -/
  | arity (path : String)
  deriving DecidableEq, Repr

namespace SourceFault

/-- A file with such a fault counts as one without imports. -/
def isRecoverable : SourceFault → Bool
  | malformed _ => true
  | _ => false

def message : SourceFault → String
  | malformed path => "Syntax error in '" ++ path ++ "'"
  | notText path reason => "Cannot read '" ++ path ++ "' as source: " ++ reason
  | argument path found =>
      "Unsupported import() in '" ++ path
        ++ "': the argument must be a string or template literal, found " ++ found
  | arity path => "Unsupported import() in '" ++ path ++ "': import() takes exactly one argument"

end SourceFault

namespace Script

/-- Why no import can be made of a call of `import`. -/
inductive CallFault where
  | argument (found : String)
  | arity
  deriving DecidableEq, Repr

def CallFault.inFile (path : String) : CallFault → SourceFault
  | argument found => .argument path found
  | arity => .arity path

namespace Outline

/-- What an argument is called in a message. -/
def description : Outline → String
  | identifier name => "identifier '" ++ name ++ "'"
  | call .. => "a call expression"
  | binary .. => "a binary expression"
  | member _ | element .. => "a member expression"
  | _ => "a non-literal expression"

/-- The name that an expression in a template is, if it is one. -/
def hint : Outline → Option String
  | identifier name => some name
  | _ => none

/-- The import that a call of `import` is. -/
def calledImport (source : Outline) (options : Option Outline) : Except CallFault ImportForm :=
  match options, source with
  | some _, _ => .error .arity
  | none, string value => .ok (.literal value true)
  | none, template first [] => .ok (.literal first true)
  | none, template first parts => .ok (.template (first :: parts.map (·.2)) (parts.map (·.1.hint)))
  | none, source => .error (.argument source.description)

/-- The import of a declaration that names its specifier. -/
def declaredImport (specifier : String) (typeOnly : Bool) : List ImportForm :=
  if typeOnly then [] else [.literal specifier false]

mutual

/-- The imports of an outline, in the order of the text. -/
def imports : Outline → Except CallFault (List ImportForm)
  | identifier _ | string _ | hole => .ok []
  | importFrom specifier typeOnly | exportAll specifier typeOnly
  | exportNames (some specifier) typeOnly => .ok (declaredImport specifier typeOnly)
  | exportNames none _ => .ok []
  | importCall source options => do
      let first ← calledImport source options
      pure (first :: (← imports source))
  | member o | privateMember o | optional o | paren o | spread o | prefixed o => imports o
  | template _ parts => importsOfParts parts
  | array os _ | object os _ | arrow os | group os => importsOf os
  | call o os | typed o os | instantiation o os => do pure ((← imports o) ++ (← importsOf os))
  | binary a b | logical _ a b | element a b | property _ a b | assign a b => do
      pure ((← imports a) ++ (← imports b))

def importsOf : List Outline → Except CallFault (List ImportForm)
  | [] => .ok []
  | o :: os => do pure ((← imports o) ++ (← importsOf os))

/-- The imports of what is substituted in a template. -/
def importsOfParts : List (Outline × String) → Except CallFault (List ImportForm)
  | [] => .ok []
  | (o, _) :: parts => do pure ((← imports o) ++ (← importsOfParts parts))

end

end Outline

/-- The imports of a source file; the path picks the language. -/
def imports (path source : String) : Except SourceFault (List ImportForm) :=
  match parse? (Language.ofPath path) source with
  | some outline => outline.imports.mapError (CallFault.inFile path)
  | none => .error (.malformed path)

end Script

end VendorBundle
