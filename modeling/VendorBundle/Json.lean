/-!
# JSON values

Objects keep their members in the order of the text. A key may occur more than once; looking it up
gives its last value.
-/

namespace VendorBundle

/-- A number that JSON text can hold: an integer that fits in 64 bits, or any other decimal as
`mantissa * 10 ^ exponent`. -/
inductive Json.Number where
  | integer (value : Int)
  | decimal (mantissa exponent : Int)
  deriving DecidableEq, Inhabited, Repr

inductive Json where
  | null
  | bool (value : Bool)
  | number (value : Json.Number)
  | string (value : String)
  | array (items : List Json)
  | object (members : List (String × Json))
  deriving Inhabited, Repr

namespace Json

instance : Coe String Json := ⟨.string⟩

def ofNat (n : Nat) : Json := .number (.integer n)

/-- The last value bound to `key`. -/
def lookup (key : String) : List (String × Json) → Option Json
  | [] => none
  | (k, v) :: rest =>
      match lookup key rest with
      | some later => some later
      | none => if k = key then some v else none

/-- The member `key` of an object; other values have no members. -/
def get? (key : String) : Json → Option Json
  | .object members => lookup key members
  | _ => none

def string? : Json → Option String
  | .string s => some s
  | _ => none

def bool? : Json → Option Bool
  | .bool b => some b
  | _ => none

/-- A natural number that fits in 64 bits. -/
def nat? : Json → Option Nat
  | .number (.integer n) => if 0 ≤ n && n < UInt64.size then some n.toNat else none
  | _ => none

def array? : Json → Option (List Json)
  | .array items => some items
  | _ => none

def object? : Json → Option (List (String × Json))
  | .object members => some members
  | _ => none

def ofOption (toJson : α → Json) : Option α → Json
  | none => .null
  | some a => toJson a

def strings (items : List String) : Json := .array (items.map .string)

end Json

end VendorBundle
