import VendorBundle.Json

/-!
# TOML documents

A document is a tree of tables that headers and dotted keys build up bit by bit. How a table came to
be decides what may still be added to it: a table is opened by a header once, and a dotted key adds
only to tables that dotted keys or longer headers brought about.
-/

namespace VendorBundle.Toml

/-- How a table came to be. -/
inductive Origin where
  /-- By a header of its own, or as an element of an array of tables. -/
  | header
  /-- On the way to the table of a header. -/
  | path
  /-- On the way to a dotted key. -/
  | dotted
  deriving DecidableEq, Repr

inductive Item where
  | value (v : Json)
  | table (origin : Origin) (entries : List (String × Item))
  /-- An array of tables: the last one, and those before it in reverse order. -/
  | tables (last : List (String × Item)) (before : List (List (String × Item)))

abbrev Entries := List (String × Item)

namespace Entries

/-- Changes or adds the entry of a key. -/
def adjust (key : String) (f : Option Item → Option Item) : Entries → Option Entries
  | [] => (f none).map fun i => [(key, i)]
  | (k, i) :: rest =>
      if k = key then (f (some i)).map fun i => (k, i) :: rest
      else (adjust key f rest).map ((k, i) :: ·)

/-- Changes the table at a path, which is created as far as it is missing. The path is part of a
dotted key or of a header. -/
def descend (dotted : Bool) (f : Origin → Entries → Option Entries) :
    List String → Origin → Entries → Option Entries
  | [], origin, entries => f origin entries
  | key :: path, _, entries =>
      adjust key
        (fun
          | none =>
              let origin : Origin := if dotted then .dotted else .path
              (descend dotted f path origin []).map (.table origin)
          | some (.table origin inner) =>
              if dotted && origin == .header then none
              else (descend dotted f path origin inner).map (.table origin)
          | some (.tables last before) =>
              (descend dotted f path .header last).map (.tables · before)
          | some (.value _) => none)
        entries

/-- Adds a value to a table under a dotted key. -/
def addTo (path : List String) (key : String) (v : Json) (origin : Origin) (entries : Entries) :
    Option Entries :=
  descend true
    (fun origin entries =>
      if (origin == .dotted) == path.isEmpty then none
      else adjust key (fun old => if old.isSome then none else some (.value v)) entries)
    path origin entries

/-- Adds a value under a dotted key to the table of a header. -/
def add (header path : List String) (key : String) (v : Json) (entries : Entries) :
    Option Entries :=
  descend false (addTo path key v) header .header entries

/-- Opens the table of a header. -/
def openTable (path : List String) (key : String) (entries : Entries) : Option Entries :=
  descend false
    (fun _ => adjust key fun
      | none => some (.table .header [])
      | some (.table .path inner) => some (.table .header inner)
      | _ => none)
    path .header entries

/-- Opens a new element of an array of tables. -/
def openElement (path : List String) (key : String) (entries : Entries) : Option Entries :=
  descend false
    (fun _ => adjust key fun
      | none => some (.tables [] [])
      | some (.tables last before) => some (.tables [] (last :: before))
      | _ => none)
    path .header entries

end Entries

mutual

def Item.toJson : Item → Json
  | .value v => v
  | .table _ entries => .object (membersOf entries)
  | .tables last before => .array ((objectsOf before).reverse ++ [.object (membersOf last)])

def membersOf : List (String × Item) → List (String × Json)
  | [] => []
  | (k, i) :: rest => (k, i.toJson) :: membersOf rest

def objectsOf : List (List (String × Item)) → List Json
  | [] => []
  | entries :: rest => .object (membersOf entries) :: objectsOf rest

end

end VendorBundle.Toml
