import VendorBundle.Tree.Entry

/-!
# Patches

A patch leads from one listing to the next. Removals come first and in descending order, so a
directory is empty when it goes; additions and changes follow in ascending order, so a directory is
there before what it holds.
-/

namespace VendorBundle

inductive PatchOp where
  | unlink (path : String)
  | rmdir (path : String)
  | mkdir (path : String)
  | change (path : String) (entry : Entry)
  | create (path : String) (entry : Entry)
  deriving DecidableEq, Repr

namespace PatchOp

def path : PatchOp → String
  | unlink path | rmdir path | mkdir path | change path _ | create path _ => path

def isRemoval : PatchOp → Bool
  | unlink _ | rmdir _ => true
  | _ => false

def removal (e : Entry) : PatchOp :=
  match e.kind with
  | .file => unlink e.path
  | .directory => rmdir e.path

def addition (e : Entry) : PatchOp :=
  match e.kind with
  | .file => create e.path e
  | .directory => mkdir e.path

def toJson : PatchOp → Json
  | unlink path => .object [("op", "unlink"), ("path", path)]
  | rmdir path => .object [("op", "rmdir"), ("path", path)]
  | mkdir path => .object [("op", "mkdir"), ("path", path)]
  | change path e => .object [("op", "change"), ("path", path), ("entry", JsonForm.toJson e)]
  | create path e => .object [("op", "create"), ("path", path), ("entry", JsonForm.toJson e)]

end PatchOp

abbrev Patch := List PatchOp

namespace Patch

/-- The removals and the additions between two listings, both in ascending order. -/
structure Steps where
  removals : List PatchOp
  additions : List PatchOp

namespace Steps

def remove (op : PatchOp) (s : Steps) : Steps := { s with removals := op :: s.removals }

def add (op : PatchOp) (s : Steps) : Steps := { s with additions := op :: s.additions }

/-- What happens to a path that both listings hold. -/
def update (old new : Entry) (s : Steps) : Steps :=
  if old.kind ≠ new.kind then (s.remove (.removal old)).add (.addition new)
  else if old.kind = .file ∧ old.token ≠ new.token then s.add (.change new.path new)
  else s

/-- Walks along both listings at once. -/
def between : List Entry → List Entry → Steps
  | [], [] => ⟨[], []⟩
  | old :: olds, [] => (between olds []).remove (.removal old)
  | [], new :: news => (between [] news).add (.addition new)
  | old :: olds, new :: news =>
      match comparePaths old.path new.path with
      | .lt => (between olds (new :: news)).remove (.removal old)
      | .gt => (between (old :: olds) news).add (.addition new)
      | .eq => (between olds news).update old new
  termination_by olds news => olds.length + news.length

end Steps

/-- The patch from one ascending listing to another. -/
def between (previous next : List Entry) : Patch :=
  let s := Steps.between previous next
  s.removals.reverse ++ s.additions

end Patch

/-! ## Snapshots -/

/-- The last listing that was taken over. -/
structure Snapshot where
  entries : List Entry
  deriving DecidableEq, Inhabited

/-- A patch with the listing it leads to. -/
structure PendingPatch where
  entries : List Entry
  patch : Patch

namespace Snapshot

def empty : Snapshot := ⟨[]⟩

instance : EmptyCollection Snapshot := ⟨empty⟩

/-- The patch to a new listing; the snapshot takes the listing over only by `commit`, so a patch
that could not be carried out comes up again. -/
def prepare (s : Snapshot) (next : List Entry) : PendingPatch :=
  let entries := Entry.normalize next
  ⟨entries, Patch.between s.entries entries⟩

def commit (_ : Snapshot) (entries : List Entry) : Snapshot := ⟨entries⟩

/-- The patch to a new listing, and the snapshot that has taken it over. -/
def diff (s : Snapshot) (next : List Entry) : Patch × Snapshot :=
  let pending := s.prepare next
  (pending.patch, s.commit pending.entries)

end Snapshot

end VendorBundle
