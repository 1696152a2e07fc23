import VendorBundle.Bundle.Plan
import VendorBundle.Bundle.Policy
import VendorBundle.Memo

/-!
# Splitting imports into bundles

Imports of installed packages are gathered by what they import. All of a group have to lead to the
same version of a package, and the group goes to the first declared bundle that any of its files
belongs to. The result is kept, and given out again as long as the lists of imports are the same.
-/

namespace VendorBundle

/-- An entry file that was found for the import of a file. -/
structure Sighting where
  file : String
  entrypoint : Path
  version : String
  deriving DecidableEq, Repr

inductive SplitError where
  | relativeDynamic (specifier file : String)
  | relativeTemplate (leading file : String)
  | impreciseTemplate (leading file : String)
  | versionConflict (specifier : String) (first second : Sighting)
  | unknownBundle (path bundle : String) (declared : List String)
  | resolve (error : ResolveError)
  deriving DecidableEq

namespace SplitError

def message? : SplitError → Option String
  | relativeDynamic specifier file =>
      some (s!"Relative dynamic import '{specifier}' in '{file}' is not supported; "
        ++ "only package imports can be loaded dynamically")
  | relativeTemplate leading file =>
      some s!"Template import with relative prefix '{leading}' in '{file}' is not supported"
  | impreciseTemplate leading file =>
      some (s!"Template import in '{file}' must start with a full package name followed by '/', "
        ++ s!"found '{leading}'")
  | versionConflict specifier a b =>
      some (s!"Version conflict for '{specifier}': '{a.file}' resolves to {a.entrypoint.text} "
        ++ s!"({a.version}) but '{b.file}' resolves to {b.entrypoint.text} ({b.version})")
  | unknownBundle path bundle declared =>
      let valid := ", ".intercalate declared
      some s!"Bundle policy assigned '{path}' to unknown bundle '{bundle}' (valid: {valid})"
  | resolve error => error.message?

end SplitError

namespace Split

variable {σ : Type} [Files σ]

/-! ## Entry files -/

/-- An import with the outcome of its resolution. -/
structure Resolved (α : Type) where
  i : α
  target : Except ResolveError Target

/-- Resolves imports one after the other; the resolver learns from each, also after a failure. -/
def resolveAll {α : Type} (files : σ) (package : α → Package) (specifier : α → String)
    (template : Bool) : List α → Resolver → List (Resolved α) × Resolver
  | [], r => ([], r)
  | i :: rest, r =>
      let (target, r) := (package i).resolve r files (specifier i) template
      let (others, r) := resolveAll files package specifier template rest r
      (⟨i, target⟩ :: others, r)

/-- The entry file of a literal import. One that leads to no installed package has none. -/
def literalEntry? (i : LiteralImport) : Target → Except SplitError (Option Path)
  | .external entrypoint => .ok (some entrypoint)
  | .localPath _ =>
      if i.isDynamic then .error (.relativeDynamic i.specifier i.site.file) else .ok none
  | .url | .imprecise | .notInstalled => .ok none

/-- The place of a template import in an installed package. -/
def templateEntry? (i : TemplateImport) : Target → Except SplitError (Option Path)
  | .external entrypoint => .ok (some entrypoint)
  | .url | .notInstalled => .ok none
  | .localPath _ => .error (.relativeTemplate i.leadingText i.site.file)
  | .imprecise => .error (.impreciseTemplate i.leadingText i.site.file)

/-! ## Groups -/

/-- Imports that are gathered by a key. -/
structure Kind (α : Type) where
  key : α → String
  site : α → ImportSite
  entry? : α → Target → Except SplitError (Option Path)

def literals : Kind LiteralImport := ⟨(·.specifier), (·.site), literalEntry?⟩

def templates : Kind TemplateImport := ⟨TemplateImport.key, (·.site), templateEntry?⟩

def versionOf (files : σ) (entrypoint : Path) : Effect Resolver SplitError String := do
  let (version, r) := (← get).versionOf files entrypoint
  set r
  match version with
  | .ok version => pure version
  | .error e => throw (.resolve e)

/-- Two entry files of one import have to be of the same version. -/
def checkVersions (files : σ) (specifier : String) (first second : String × Path) :
    Effect Resolver SplitError Unit := do
  let a ← versionOf files first.2
  let b ← versionOf files second.2
  if a = b then pure ()
  else throw (.versionConflict specifier ⟨first.1, first.2, a⟩ ⟨second.1, second.2, b⟩)

variable {α : Type}

/-- Adds an import to the group of its key, or opens one. -/
def gather (files : σ) (kind : Kind α) (i : α) (entrypoint : Path) :
    List (ImportGroup α) → Effect Resolver SplitError (List (ImportGroup α))
  | [] => pure [{ key := kind.key i, entrypoint, first := i }]
  | g :: rest => do
      if g.key = kind.key i then
        if !g.entrypoint.same entrypoint then
          checkVersions files g.key ((kind.site g.first).file, g.entrypoint)
            ((kind.site i).file, entrypoint)
        pure (g.add i :: rest)
      else pure (g :: (← gather files kind i entrypoint rest))

/-- Takes one resolved import into the groups. -/
def take (files : σ) (kind : Kind α) (groups : List (ImportGroup α)) (r : Resolved α) :
    Effect Resolver SplitError (List (ImportGroup α)) := do
  match r.target with
  | .error e => throw (.resolve e)
  | .ok target =>
      match kind.entry? r.i target with
      | .error e => throw e
      | .ok none => pure groups
      | .ok (some entrypoint) => gather files kind r.i entrypoint groups

/-- The groups of some imports, in the order of discovery. -/
def group (files : σ) (kind : Kind α) (specifier : α → String) (template : Bool)
    (imports : List α) : Effect Resolver SplitError (List (ImportGroup α)) := do
  let (resolved, r) := resolveAll files (fun i => (kind.site i).package) specifier template imports
    (← get)
  set r
  resolved.foldlM (take files kind) []

/-! ## Bundles -/

/-- The literal imports that no package leaves alone. -/
def includedLiterals (imports : List Import) : List LiteralImport :=
  imports.filterMap fun
    | .literal i => if i.site.package.excludes i.specifier then none else some i
    | .template _ => none

/-- The template imports that no package leaves alone. -/
def includedTemplates (imports : List Import) : List TemplateImport :=
  imports.filterMap fun
    | .literal _ => none
    | .template i => if i.site.package.excludes i.leadingText then none else some i

/-- The place of a file's bundle among the declared ones. -/
def bundleIndex (policy : BundlePolicy) (site : ImportSite) : Except SplitError Nat :=
  let bundle := policy.bundleFor site.file site.treeKind
  match policy.names.idxOf? bundle with
  | some index => .ok index
  | none => .error (.unknownBundle site.file bundle policy.names)

/-- The first declared bundle that any of the files belongs to. -/
def chooseBundle (policy : BundlePolicy) (first : ImportSite) (more : List ImportSite) :
    Except SplitError String := do
  let index ← bundleIndex policy first
  let others ← more.mapM (bundleIndex policy)
  pure (policy.names.getD (others.foldl min index) "")

/-- Puts a group into its bundle. -/
def assign (policy : BundlePolicy) (kind : Kind α)
    (put : ImportGroup α → BundleContents → BundleContents) (plan : BundlePlan)
    (g : ImportGroup α) : Except SplitError BundlePlan := do
  let bundle ← chooseBundle policy (kind.site g.first) (g.more.map kind.site)
  pure (plan.modify bundle (put g))

def putStatic (g : ImportGroup LiteralImport) (c : BundleContents) : BundleContents :=
  { c with staticImports := c.staticImports ++ [g] }

def putDynamic (g : ImportGroup LiteralImport) (c : BundleContents) : BundleContents :=
  { c with dynamicImports := c.dynamicImports ++ [g] }

def putTemplate (g : ImportGroup TemplateImport) (c : BundleContents) : BundleContents :=
  { c with templateImports := c.templateImports ++ [g] }

/-- Puts the static and the dynamic uses of a specifier into their bundles. -/
def assignLiterals (policy : BundlePolicy) (plan : BundlePlan) (g : ImportGroup LiteralImport) :
    Except SplitError BundlePlan := do
  let plan ← (g.filter? (!·.isDynamic)).toList.foldlM (assign policy literals putStatic) plan
  (g.filter? (·.isDynamic)).toList.foldlM (assign policy literals putDynamic) plan

def assignAll (policy : BundlePolicy) (ls : List (ImportGroup LiteralImport))
    (ts : List (ImportGroup TemplateImport)) : Except SplitError BundlePlan := do
  let plan ← ls.foldlM (assignLiterals policy) (.declare policy.names)
  let plan ← ts.foldlM (assign policy templates putTemplate) plan
  pure plan.sorted

/-- The plan for a list of imports. -/
def plan (files : σ) (policy : BundlePolicy) (imports : List Import) :
    Effect Resolver SplitError BundlePlan := do
  let ls ← group files literals (·.specifier) false (includedLiterals imports)
  let ts ← group files templates TemplateImport.leadingText true (includedTemplates imports)
  Files.look fun _ => assignAll policy ls ts

end Split

/-! ## Keeping the result -/

/-- A plan with the lists of imports that it was made from. -/
structure Splitter.Last where
  inputs : List (Shared (List Import))
  plan : Shared BundlePlan

structure Splitter where
  policy : BundlePolicy
  resolver : Resolver
  last : Option Splitter.Last := none
  /-- How often a plan was made. -/
  recomputations : Nat := 0

namespace Splitter

variable {σ : Type} [Files σ]

/-- The same lists in the same order. -/
def sameLists (a b : List (Shared (List Import))) : Bool := a.map (·.stamp) == b.map (·.stamp)

/-- The last plan, if it was made from the same lists. -/
def known? (s : Splitter) (lists : List (Shared (List Import))) : Option (Shared BundlePlan) :=
  match s.last with
  | some last => if sameLists last.inputs lists then some last.plan else none
  | none => none

/-- Makes a plan and keeps it; when this fails, only the resolver has learnt something. -/
def recompute (files : σ) (lists : List (Shared (List Import))) :
    Effect Splitter SplitError (Shared BundlePlan) := do
  let s ← get
  let imports := lists.flatMap (·.value)
  let (result, resolver) := (Split.plan files s.policy imports).run.run s.resolver
  match result with
  | .error e =>
      set { s with resolver }
      throw e
  | .ok plan =>
      let shared : Shared BundlePlan := ⟨s.recomputations + 1, plan⟩
      set { s with
        resolver, last := some ⟨lists, shared⟩, recomputations := s.recomputations + 1 }
      pure shared

/-- The plan for lists of imports. -/
def plan (files : σ) (lists : List (Shared (List Import))) :
    Effect Splitter SplitError (Shared BundlePlan) := do
  match (← get).known? lists with
  | some plan => pure plan
  | none => recompute files lists

end Splitter

end VendorBundle
