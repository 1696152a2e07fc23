import VendorBundle.Bundle.Split
import VendorBundle.ImportIndex
import VendorBundle.Tree.Listing

/-!
# Building a plan

A pipeline follows source trees and makes the plan of bundles for their imports. A build lists every
tree, brings the index of each to its listing and splits the imports of all.
-/

namespace VendorBundle

/-- Why a build failed. -/
inductive BuildError where
  | listing (error : FileError)
  | analysis (error : AnalysisError)
  | split (error : SplitError)
  deriving DecidableEq

structure Pipeline where
  indexes : List ImportIndex
  listOptions : ListOptions := {}
  splitter : Splitter
  /-- The plan of the last build that succeeded. -/
  last : Option (Shared BundlePlan) := none

/-- What a build gives: the plan, and whether it was made anew. -/
structure BuildOutcome where
  plan : Shared BundlePlan
  recomputed : Bool

namespace Pipeline

variable {σ : Type} [Files σ]

def create (trees : List (Package × SourceTree)) (resolve : ResolveOptions)
    (listOptions : ListOptions) (policy : BundlePolicy) : Pipeline where
  indexes := trees.map fun (package, tree) => { package, tree }
  listOptions
  splitter := { policy, resolver := { options := resolve } }

/-- Brings indexes to their listings, in order; a failure leaves the later ones as they are. -/
def updateIndexes (files : σ) :
    List (ImportIndex × Except FileError (List Entry)) → Except BuildError Unit × List ImportIndex
  | [] => (.ok (), [])
  | (index, .error e) :: rest => (.error (.listing e), index :: rest.map Prod.fst)
  | (index, .ok listing) :: rest =>
      match (ImportIndex.update files listing).run.run index with
      | (.error e, index) => (.error (.analysis e), index :: rest.map Prod.fst)
      | (.ok (), index) =>
          let (result, indexes) := updateIndexes files rest
          (result, index :: indexes)

/-- Lists the trees and brings the indexes to the listings. -/
def updateTrees (files : σ) : Effect Pipeline BuildError Unit := do
  let p ← get
  let listings := p.indexes.map fun index =>
    (index, listTree files index.tree.root p.listOptions)
  let (result, indexes) := updateIndexes files listings
  set { p with indexes }
  match result with
  | .ok () => pure ()
  | .error e => throw e

/-- The imports of every tree. -/
def imports (p : Pipeline) : List (Shared (List Import)) × Pipeline :=
  let found := p.indexes.map ImportIndex.imports
  (found.map Prod.fst, { p with indexes := found.map Prod.snd })

/-- Makes the plan for the current state of the trees. -/
def build (files : σ) : Effect Pipeline BuildError BuildOutcome := do
  updateTrees files
  let (lists, p) := (← get).imports
  let (result, splitter) := (Splitter.plan files lists).run.run p.splitter
  match result with
  | .error e =>
      set { p with splitter }
      throw (.split e)
  | .ok plan =>
      set { p with splitter, last := some plan }
      pure ⟨plan, splitter.recomputations != p.splitter.recomputations⟩

/-- Writes the last plan to a file, whose directory is created. -/
def writePlan (p : Pipeline) (path : Path) : Effect σ FileError Unit := do
  let plan := (p.last.map (·.value)).getD {}
  match path.parent? with
  | some parent => if parent.text.isEmpty then pure () else Files.createDir true parent
  | none => pure ()
  Files.write path plan.toJson.pretty.toUTF8

end Pipeline

end VendorBundle
