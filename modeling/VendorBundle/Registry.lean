import VendorBundle.Version

/-!
# Electing a leader

Candidates register until the first call for a leader. The call elects the first candidate of the
highest version and closes the registry.
-/

namespace VendorBundle

structure Candidate where
  name : String
  version : String
  deriving DecidableEq, Repr

inductive RegistryError where
  | locked (candidate : Candidate)
  | empty
  deriving DecidableEq, Repr

def RegistryError.message : RegistryError → String
  | locked c => s!"Cannot register '{c.name}@{c.version}': leader already elected"
  | empty => "No candidates registered"

structure Registry where
  candidates : List Candidate := []
  leader : Option Candidate := none
  deriving DecidableEq

namespace Registry

def isLocked (r : Registry) : Bool := r.leader.isSome

def register (r : Registry) (c : Candidate) : Except RegistryError Registry :=
  if r.isLocked then .error (.locked c)
  else .ok { r with candidates := r.candidates ++ [c] }

/-- The candidate that stays ahead when the next one comes. -/
def ahead (best next : Candidate) : Candidate :=
  if compareVersions next.version best.version = .gt then next else best

def elect : List Candidate → Option Candidate
  | [] => none
  | c :: rest => some (rest.foldl ahead c)

/-- The leader, elected now unless there is one. -/
def lead (r : Registry) : Except RegistryError (Candidate × Registry) :=
  match r.leader.or (elect r.candidates) with
  | some leader => .ok (leader, { r with leader := some leader })
  | none => .error .empty

end Registry

end VendorBundle
