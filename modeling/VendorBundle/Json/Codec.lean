import VendorBundle.Json
import VendorBundle.Path
import VendorBundle.Table

/-!
# Values with a JSON form

A record is written as an object and read from an object, where unknown keys are passed over, or
from an array of its fields in order, where fields with a default may be left off at the end.
-/

namespace VendorBundle

/-- Types whose values are written as JSON and read back. -/
class JsonForm (α : Type) where
  toJson : α → Json
  ofJson? : Json → Option α

export JsonForm (toJson ofJson?)

namespace JsonForm

instance : JsonForm String := ⟨.string, Json.string?⟩

instance : JsonForm Bool := ⟨.bool, Json.bool?⟩

instance : JsonForm UInt64 := ⟨fun n => .ofNat n.toNat, fun v => v.nat?.map Nat.toUInt64⟩

instance : JsonForm Path := ⟨fun p => .string p.text, fun v => v.string?.map Path.mk⟩

instance {α : Type} [JsonForm α] : JsonForm (Option α) where
  toJson
    | none => .null
    | some a => toJson a
  ofJson?
    | .null => some none
    | v => (ofJson? v).map some

instance {α : Type} [JsonForm α] : JsonForm (List α) where
  toJson items := .array (items.map toJson)
  ofJson?
    | .array items => items.mapM ofJson?
    | _ => none

/-- A table with texts as keys is an object. -/
instance {α : Type} [JsonForm α] : JsonForm (Table String α) where
  toJson t := .object (t.entries.map fun e => (e.1, toJson e.2))
  ofJson?
    | .object members => (members.mapM fun m => (ofJson? m.2).map (m.1, ·)).map Table.ofList
    | _ => none

end JsonForm

/-! ## Records -/

/-- The fields of a record, by name or by position. -/
inductive Record where
  | named (members : List (String × Json))
  | listed (items : List Json)

namespace Record

/-- The fields of a record that has `count` of them. -/
def ofJson? (count : Nat) : Json → Option Record
  | .object members => some (.named members)
  | .array items => if items.length ≤ count then some (.listed items) else none
  | _ => none

def field? (r : Record) (index : Nat) (key : String) : Option Json :=
  match r with
  | named members => Json.lookup key members
  | listed items => items[index]?

variable {α : Type} [JsonForm α]

def required (r : Record) (index : Nat) (key : String) : Option α :=
  (r.field? index key).bind JsonForm.ofJson?

def withDefault (r : Record) (index : Nat) (key : String) (default : α) : Option α :=
  match r.field? index key with
  | some v => JsonForm.ofJson? v
  | none => some default

/-- A field that may be missing from an object, but not from an array. -/
def optional (r : Record) (index : Nat) (key : String) : Option (Option α) :=
  match r, r.field? index key with
  | _, some v => JsonForm.ofJson? v
  | named _, none => some none
  | listed _, none => none

end Record

/-! ## Choices -/

/-- A choice among names is the name, or an object that binds only the name to null. -/
def Json.choice? : Json → Option String
  | .string name => some name
  | .object [(name, .null)] => some name
  | _ => none

end VendorBundle
