import VendorBundle.Json

/-!
# Laying one value over another

Objects are merged member by member; everything else gives way to the value laid over it, lists
included.
-/

namespace VendorBundle.Json

/-- The members with `value` as the only binding of `key`. -/
def bind (key : String) (value : Json) (members : List (String × Json)) : List (String × Json) :=
  members.filter (fun m => !(m.1 == key)) ++ [(key, value)]

mutual

/-- What is seen when the second value lies over the first. -/
def overlay (under : Json) : Json → Json
  | .object upper =>
      match under with
      | .object members => .object (overlayMembers members upper)
      | _ => .object upper
  | upper => upper

/-- Lays members over others; of several with one key the last one counts. -/
def overlayMembers (under : List (String × Json)) : List (String × Json) → List (String × Json)
  | [] => under
  | (key, value) :: rest =>
      if rest.any (fun m => m.1 == key) then overlayMembers under rest
      else
        match lookup key under with
        | some covered => overlayMembers (bind key (overlay covered value) under) rest
        | none => overlayMembers (bind key value under) rest

end

/-- A value behind a path of keys. -/
def nest (value : Json) : (keys : List String) → Json
  | [] => value
  | key :: keys => .object [(key, nest value keys)]

end VendorBundle.Json
