import VendorBundle.Path

/-!
# Languages of source files

The extension of a file says which language it is read as: JavaScript or TypeScript, with or without
JSX, as a module or as a script. A TypeScript file may hold declarations only.
-/

namespace VendorBundle.Script

structure Language where
  /-- TypeScript. -/
  typed : Bool := false
  jsx : Bool := false
  /-- A module, where `await` stands at the top level, and not a script. -/
  isModule : Bool := true
  /-- Declarations only. -/
  ambient : Bool := false
  deriving DecidableEq, Repr, Inhabited

namespace Language

/-- Of the dot-separated parts of the name, one of the last three is `d`. -/
def isDeclarationFile (name : String) : Bool :=
  ((Text.split '.' name).reverse.take 3).contains "d"

/-- The part of the name in front of the extension is, or ends in, `d`. -/
def isDeclarationModule (name : String) : Bool :=
  ((Text.split '.' name).reverse.drop 1).head? == some "d"

/-- The language of a file; a file with an unknown extension is a JavaScript module. -/
def ofPath (path : Path) : Language :=
  match path.fileName?, path.extension? with
  | some name, some extension =>
      match extension with
      | "jsx" => { jsx := true }
      | "cjs" => { isModule := false }
      | "ts" => { typed := true, ambient := isDeclarationFile name }
      | "mts" => { typed := true, ambient := isDeclarationModule name }
      | "cts" => { typed := true, isModule := false, ambient := isDeclarationModule name }
      | "tsx" => { typed := true, jsx := true }
      | _ => {}
  | _, _ => {}

end Language

end VendorBundle.Script
