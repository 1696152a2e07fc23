import VendorBundle.Proofs.Bundle.Excluded
import VendorBundle.Proofs.Bundle.Told
import VendorBundle.Proofs.Resolver.Precise

/-!
# Imports of the own files

A specifier is local when a slash ends its first segment and that segment is empty or leads to the
directory itself or the one above it. Such a specifier is answered without a look at the files. A
static import of it makes no difference to a plan, and with a dynamic one there is no plan.
-/

namespace VendorBundle

open Effect

namespace Text

/-- A text begins with a piece when it is that piece, or goes on behind a separator. -/
theorem head?_pieces {sep : Char} {word : List Char} (h : sep ∉ word) (text : List Char) :
    (pieces sep text).head? = some word ↔ text = word ∨ word ++ [sep] <+: text := by
  cases hcut : cut? sep text with
  | none =>
      have hnone := cut?_eq_none_iff.mp hcut
      rw [pieces_of_not_mem hnone]
      constructor
      · intro hhead
        exact .inl (Option.some.inj hhead)
      · rintro (rfl | ⟨rest, rfl⟩)
        · rfl
        · simp at hnone
  | some parts =>
      obtain ⟨front, behind⟩ := parts
      obtain ⟨hfront, rfl⟩ := cut?_eq_some_iff.mp hcut
      rw [pieces_append_cons, pieces_of_not_mem hfront]
      constructor
      · intro hhead
        obtain rfl : front = word := Option.some.inj hhead
        exact .inr ⟨behind, by simp⟩
      · rintro (rfl | ⟨rest, hrest⟩)
        · simp at h
        · rw [List.append_assoc, List.singleton_append] at hrest
          have hword := cut?_append h rest
          rw [hrest, hcut] at hword
          obtain ⟨rfl, -⟩ : front = word ∧ behind = rest := by simpa using hword
          rfl

end Text

namespace Specifier

/-- The specifier begins at the root of the files, at the importing file or above it. -/
def IsRelative (text : String) : Prop :=
  text.toList.head? = some '/' ∨ (Text.split '/' text).head? = some "." ∨
    (Text.split '/' text).head? = some ".."

instance (text : String) : Decidable (IsRelative text) := inferInstanceAs (Decidable (_ ∨ _ ∨ _))

theorem head?_split {text segment : String} (h : '/' ∉ segment.toList) :
    (Text.split '/' text).head? = some segment ↔
      text = segment ∨ segment.toList ++ ['/'] <+: text.toList := by
  rw [← String.toList_inj, ← Text.head?_pieces h, Text.split, List.head?_map]
  cases (Text.pieces '/' text.toList).head? with
  | none => simp
  | some word => simp [← String.toList_inj]

/-- A relative specifier is local, unless it is a single segment without a slash. -/
theorem isLocal_iff_isRelative {text : String} :
    isLocal text.toList ↔ IsRelative text ∧ text ≠ "." ∧ text ≠ ".." := by
  have hhere : ['.', '/'] <+: text.toList → text ≠ "." ∧ text ≠ ".." := by
    intro h
    constructor <;> rintro rfl <;> revert h <;> decide
  have hup : ['.', '.', '/'] <+: text.toList → text ≠ "." ∧ text ≠ ".." := by
    intro h
    constructor <;> rintro rfl <;> revert h <;> decide
  have hroot : ['/'] <+: text.toList → text ≠ "." ∧ text ≠ ".." := by
    intro h
    constructor <;> rintro rfl <;> revert h <;> decide
  have hslash : text.toList.head? = some '/' ↔ ['/'] <+: text.toList := by
    cases text.toList <;> simp [eq_comm]
  have hdot : ".".toList ++ ['/'] = ['.', '/'] := rfl
  have hdots : "..".toList ++ ['/'] = ['.', '.', '/'] := rfl
  rw [isLocal_iff, IsRelative, head?_split (by decide), head?_split (by decide), hslash, hdot, hdots]
  tauto

theorem ofText_eq_localPath_iff {text : String} :
    ofText text = .localPath ↔ isUrl text.toList = false ∧ isLocal text.toList := by
  rw [ofText]
  cases isUrl text.toList with
  | true => simp
  | false => cases isLocal text.toList <;> simp

end Specifier

open Specifier (IsRelative isUrl ofText)

/-- What a resolver is asked for an import, once the aliases of its package are applied. -/
def LiteralImport.asked (i : LiteralImport) : String := i.site.package.replaceAlias i.specifier

namespace Resolver

theorem resolve_of_local {σ : Type} [Files σ] {text : String} (h : ofText text = .localPath)
    (r : Resolver) (files : σ) (root : Path) (template : Bool) :
    r.resolve files root text template = (.ok (.localPath ⟨text⟩), r) := by
  rw [resolve, h]

end Resolver

namespace Split

variable {α σ : Type} [Files σ] {files : σ} {policy : BundlePolicy}

/-! ## One import among others -/

theorem resolveAll_append (files : σ) (package : α → Package) (specifier : α → String)
    (template : Bool) (front back : List α) (r : Resolver) :
    resolveAll files package specifier template (front ++ back) r =
      ((resolveAll files package specifier template front r).1 ++
        (resolveAll files package specifier template back
          (resolveAll files package specifier template front r).2).1,
        (resolveAll files package specifier template back
          (resolveAll files package specifier template front r).2).2) := by
  induction front generalizing r with
  | nil => rfl
  | cons i front ih => simp only [List.cons_append, resolveAll, ih]

/-- Resolving specifiers teaches a resolver nothing about versions. -/
theorem versions_resolveAll (files : σ) (package : α → Package) (specifier : α → String)
    (template : Bool) (imports : List α) (r : Resolver) :
    (resolveAll files package specifier template imports r).2.versions = r.versions := by
  induction imports generalizing r with
  | nil => rfl
  | cons i imports ih =>
      simp only [resolveAll]
      rw [ih]
      exact Resolver.versions_resolve ..

/-- A local specifier is resolved to itself and leaves the resolver as it is. -/
theorem resolveAll_of_local {i : LiteralImport} (h : ofText i.asked = .localPath) (files : σ)
    (imports : List LiteralImport) (r : Resolver) :
    resolveAll files (fun i => (literals.site i).package) (·.specifier) false (i :: imports) r =
      (⟨i, .ok (.localPath ⟨i.asked⟩)⟩ ::
        (resolveAll files (fun i => (literals.site i).package) (·.specifier) false imports r).1,
        (resolveAll files (fun i => (literals.site i).package) (·.specifier) false imports r).2) := by
  have hresolve : (literals.site i).package.resolve r files i.specifier false =
      (.ok (.localPath ⟨i.asked⟩), r) := Resolver.resolve_of_local h ..
  simp only [resolveAll, hresolve]

theorem take_of_static {i : LiteralImport} (h : i.isDynamic = false) (path : Path)
    (gs : List (ImportGroup LiteralImport)) :
    take files literals gs ⟨i, .ok (.localPath path)⟩ = pure gs := by
  simp [take, literals, literalEntry?, h]

theorem take_of_dynamic {i : LiteralImport} (h : i.isDynamic) (path : Path)
    (gs : List (ImportGroup LiteralImport)) :
    take files literals gs ⟨i, .ok (.localPath path)⟩ =
      throw (.relativeDynamic i.specifier i.site.file) := by
  simp [take, literals, literalEntry?, h]

/-- The groups of literal imports, as a plan gathers them. -/
def literalGroups (files : σ) (imports : List LiteralImport) :
    Effect Resolver SplitError (List (ImportGroup LiteralImport)) :=
  group files literals (·.specifier) false imports

/-- A static import of a local file makes no difference to the groups. -/
theorem literalGroups_of_static {i : LiteralImport} (h : ofText i.asked = .localPath)
    (hs : i.isDynamic = false) (files : σ) (front back : List LiteralImport) (r : Resolver) :
    outcome (literalGroups files (front ++ i :: back)) r =
      outcome (literalGroups files (front ++ back)) r := by
  simp only [literalGroups, outcome_group, resolveAll_append, resolveAll_of_local h,
    List.foldlM_append, List.foldlM_cons, take_of_static hs, pure_bind]

/-- At a dynamic import of a local file gathering ends, if it has come that far. -/
theorem literalGroups_of_dynamic (hv : Resolver.VersionsByPlace files) {i : LiteralImport}
    (h : ofText i.asked = .localPath) (hd : i.isDynamic) (front back : List LiteralImport)
    (r : Resolver) :
    (outcome (literalGroups files (front ++ i :: back)) r).1 =
      match (outcome (literalGroups files front) r).1 with
      | .ok _ => .error (.relativeDynamic i.specifier i.site.file)
      | .error e => .error e := by
  simp only [literalGroups, outcome_group, resolveAll_append, resolveAll_of_local h,
    List.foldlM_append, List.foldlM_cons, take_of_dynamic hd]
  generalize hfront : resolveAll files (fun i => (literals.site i).package) (·.specifier) false
    front r = resolved
  obtain ⟨as, r₁⟩ := resolved
  generalize hback : resolveAll files (fun i => (literals.site i).package) (·.specifier) false
    back r₁ = rest
  obtain ⟨bs, r₂⟩ := rest
  -- Only versions are asked for on the way, and the imports behind have taught none.
  have hversions : r₂.tells files = r₁.tells files := by
    apply Resolver.tells_of_versions
    have hkept := versions_resolveAll files (fun i => (literals.site i).package) (·.specifier)
      false back r₁
    rwa [hback] at hkept
  obtain ⟨htold, -⟩ := told_foldlM hv literals as [] r₁
  obtain ⟨htold', -⟩ := told_foldlM hv literals as [] r₂
  rw [hversions, ← htold] at htold'
  rw [outcome_bind]
  generalize outcome (as.foldlM (take files literals) []) r₂ = ends at htold'
  obtain ⟨result, r₃⟩ := ends
  simp only at htold'
  rw [← htold']
  cases result with
  | ok gs => rfl
  | error e => rfl

/-! ## Plans -/

theorem includedLiterals_append (front back : List Import) :
    includedLiterals (front ++ back) = includedLiterals front ++ includedLiterals back :=
  List.filterMap_append

theorem includedLiterals_cons (i : LiteralImport) (back : List Import) :
    includedLiterals (.literal i :: back) =
      if i.site.package.excludes i.specifier then includedLiterals back
      else i :: includedLiterals back := by
  by_cases hexcluded : i.site.package.excludes i.specifier <;>
    simp [includedLiterals, hexcluded]

theorem includedTemplates_append (front back : List Import) :
    includedTemplates (front ++ back) = includedTemplates front ++ includedTemplates back :=
  List.filterMap_append

/-- A plan begins with the groups of the literal imports. -/
theorem outcome_plan (files : σ) (policy : BundlePolicy) (imports : List Import) (r : Resolver) :
    outcome (plan files policy imports) r =
      match outcome (literalGroups files (includedLiterals imports)) r with
      | (.ok ls, r') => outcome (do
          let ts ← group files templates TemplateImport.leadingText true (includedTemplates imports)
          Files.look fun _ => assignAll policy ls ts) r'
      | (.error e, r') => (.error e, r') := by
  rw [plan, outcome_bind, literalGroups]
  cases outcome (group files literals (·.specifier) false (includedLiterals imports)) r with
  | mk result r' => cases result <;> rfl

/-- What a plan makes of a static import of a local file: nothing. -/
theorem plan_of_static {i : LiteralImport} (h : ofText i.asked = .localPath)
    (hs : i.isDynamic = false) (files : σ) (policy : BundlePolicy) (front back : List Import)
    (r : Resolver) :
    outcome (plan files policy (front ++ .literal i :: back)) r =
      outcome (plan files policy (front ++ back)) r := by
  have htemplates : includedTemplates (front ++ .literal i :: back) =
      includedTemplates (front ++ back) := by
    rw [includedTemplates_append, includedTemplates_append]
    rfl
  have hliterals : outcome (literalGroups files (includedLiterals (front ++ .literal i :: back))) r =
      outcome (literalGroups files (includedLiterals (front ++ back))) r := by
    rw [includedLiterals_append, includedLiterals_append, includedLiterals_cons]
    by_cases hexcluded : i.site.package.excludes i.specifier
    · rw [if_pos hexcluded]
    · rw [if_neg hexcluded]
      exact literalGroups_of_static h hs ..
  rw [outcome_plan, outcome_plan, hliterals, htemplates]

/-- A dynamic import of a local file that no package leaves alone ends the plan. -/
theorem plan_of_dynamic (hv : Resolver.VersionsByPlace files) {i : LiteralImport}
    (h : ofText i.asked = .localPath) (hd : i.isDynamic) (hi : isIncluded (.literal i))
    (policy : BundlePolicy) (front back : List Import) (r : Resolver) :
    (outcome (plan files policy (front ++ .literal i :: back)) r).1 =
      match (outcome (literalGroups files (includedLiterals front)) r).1 with
      | .ok _ => .error (.relativeDynamic i.specifier i.site.file)
      | .error e => .error e := by
  have hincluded : includedLiterals (front ++ .literal i :: back) =
      includedLiterals front ++ i :: includedLiterals back := by
    have hnot : i.site.package.excludes i.specifier = false := by simpa [isIncluded] using hi
    rw [includedLiterals_append, includedLiterals_cons, hnot, if_neg Bool.false_ne_true]
  have hends := literalGroups_of_dynamic hv h hd (includedLiterals front) (includedLiterals back) r
  rw [outcome_plan, hincluded]
  generalize outcome (literalGroups files (includedLiterals front ++ i :: includedLiterals back)) r =
    found at hends
  obtain ⟨result, r'⟩ := found
  simp only at hends
  cases hfront : (outcome (literalGroups files (includedLiterals front)) r).1 with
  | ok gs =>
      rw [hfront] at hends
      rw [hends]
  | error e =>
      rw [hfront] at hends
      rw [hends]

end Split

/-! ## Splitters at work -/

namespace Splitter

variable {σ : Type} [Files σ] {files : σ} {options : ResolveOptions} {policy : BundlePolicy}
  {content : Nat → List Import} {s : Splitter} {lists : List (Shared (List Import))}
  {shared : Shared BundlePlan} {i : LiteralImport}

/-- No plan holds anything for an import of a local file. -/
theorem Run.not_mem_importers (h : Run files options policy content s) (hl : Known content lists)
    (ho : (outcome (Splitter.plan files lists) s).1 = .ok shared)
    (hi : ofText i.asked = .localPath) : .literal i ∉ shared.value.importers := by
  obtain ⟨as, bs, has, -, hfaithful⟩ := (h.sound.plan hl).2 shared ho
  rw [hfaithful.perm_importers.mem_iff, List.mem_append]
  rintro (hmem | hmem)
  · obtain ⟨j, hj, hij⟩ := List.mem_map.mp hmem
    obtain rfl : j = i := Import.literal.inj hij
    obtain ⟨a, ha, rfl⟩ := List.mem_map.mp hj
    obtain ⟨ha, hexternal⟩ := List.mem_filter.mp ha
    obtain ⟨root, -, htarget⟩ := has.leads a ha
    have hlocal : Resolver.answer files options root a.i.asked false =
        .ok (.localPath ⟨a.i.asked⟩) :=
      congrArg Prod.fst (Resolver.resolve_of_local hi ..)
    rw [Split.Resolved.isExternal, ← htarget] at hexternal
    exact absurd (hlocal ▸ hexternal) (by simp)
  · obtain ⟨j, -, hij⟩ := List.mem_map.mp hmem
    cases hij

/-- There is no plan for lists with a dynamic import of a local file. -/
theorem Run.static_of_plan (hv : Resolver.VersionsByPlace files)
    (h : Run files options policy content s) (hl : Known content lists)
    (ho : (outcome (Splitter.plan files lists) s).1 = .ok shared)
    (hi : ofText i.asked = .localPath) (hmem : .literal i ∈ lists.flatMap (·.value))
    (hincluded : Split.isIncluded (.literal i)) : i.isDynamic = false := by
  obtain ⟨r, -, hanswer⟩ := h.answers hl
  obtain ⟨front, back, hlists⟩ := List.append_of_mem hmem
  rw [ho, hlists] at hanswer
  by_contra hdynamic
  rw [Split.plan_of_dynamic hv hi (by simpa using hdynamic) hincluded] at hanswer
  split at hanswer <;> cases hanswer

end Splitter

/-! ## The specifiers that stay local -/

/-- A specifier that is answered from its text alone. A static import that asks for it makes no
difference to a plan. At a dynamic one a plan fails, unless it has failed before, and no splitter
bundles anything for either. -/
structure StaysLocal (text : String) : Prop where
  kind : ofText text = .localPath
  answered : ∀ {σ : Type} [Files σ] (files : σ) (r : Resolver) (root : Path) (template : Bool),
    r.resolve files root text template = (.ok (.localPath ⟨text⟩), r)
  dropped : ∀ {σ : Type} [Files σ] (files : σ) (policy : BundlePolicy) (i : LiteralImport)
    (front back : List Import) (r : Resolver), i.asked = text → i.isDynamic = false →
    outcome (Split.plan files policy (front ++ .literal i :: back)) r =
      outcome (Split.plan files policy (front ++ back)) r
  refused : ∀ {σ : Type} [Files σ] (files : σ) (policy : BundlePolicy) (i : LiteralImport)
    (front back : List Import) (r : Resolver), Resolver.VersionsByPlace files →
    i.asked = text → i.isDynamic → Split.isIncluded (.literal i) →
    (outcome (Split.plan files policy (front ++ .literal i :: back)) r).1 =
      match (outcome (Split.literalGroups files (Split.includedLiterals front)) r).1 with
      | .ok _ => .error (.relativeDynamic i.specifier i.site.file)
      | .error e => .error e
  unbundled : ∀ {σ : Type} [Files σ] (files : σ) (options : ResolveOptions) (policy : BundlePolicy)
    (content : Nat → List Import) (s : Splitter) (lists : List (Shared (List Import)))
    (shared : Shared BundlePlan) (i : LiteralImport), Resolver.VersionsByPlace files →
    Splitter.Run files options policy content s → Splitter.Known content lists →
    (outcome (Splitter.plan files lists) s).1 = .ok shared → i.asked = text →
    .literal i ∉ shared.value.importers ∧ (.literal i ∈ lists.flatMap (·.value) →
      Split.isIncluded (.literal i) → i.isDynamic = false)

theorem staysLocal_iff_ofText {text : String} : StaysLocal text ↔ ofText text = .localPath := by
  constructor
  · exact StaysLocal.kind
  · intro h
    constructor
    · exact h
    · intro σ _ files r root template
      exact Resolver.resolve_of_local h ..
    · rintro σ _ files policy i front back r rfl hs
      exact Split.plan_of_static h hs ..
    · rintro σ _ files policy i front back r hv rfl hd hi
      exact Split.plan_of_dynamic hv h hd hi ..
    · rintro σ _ files options policy content s lists shared i hv hrun hl ho rfl
      exact ⟨hrun.not_mem_importers hl ho h, hrun.static_of_plan hv hl ho h⟩

/-- Of the specifiers that are no URLs, the relative ones with a slash stay local, and all others
name packages. -/
theorem relative_stays_local {text : String} (h : isUrl text.toList = false) :
    (StaysLocal text ↔ IsRelative text ∧ text ≠ "." ∧ text ≠ "..") ∧
      (¬ StaysLocal text → ∃ name subpath, ofText text = .package name subpath) := by
  rw [staysLocal_iff_ofText]
  constructor
  · rw [Specifier.ofText_eq_localPath_iff, Specifier.isLocal_iff_isRelative]
    exact and_iff_right h
  · intro hlocal
    have hkind := hlocal
    rw [Specifier.ofText_eq_localPath_iff, not_and, Bool.not_eq_true] at hkind
    exact ⟨_, _, by rw [ofText, h, hkind h]; rfl⟩

theorem slash_stays_local : isUrl "../b.js".toList = false ∧ StaysLocal "../b.js" := by
  have hurl : isUrl "../b.js".toList = false := by decide
  exact ⟨hurl, (relative_stays_local hurl).1.mpr (by decide)⟩

namespace Above

/-- An application without the package that it asks for. -/
def installed : Memory :=
  (Memory.empty ⟨"/"⟩).addFile ⟨"/app/index.js"⟩ "".toUTF8

def above : LiteralImport where
  specifier := ".."
  isDynamic := true
  site := { file := "a.js", package := { name := "app", root := ⟨"/app"⟩ } }

def started : Splitter := { policy := .standard, resolver := { options := {} } }

/-- The directory above is taken for a package that is installed: it is the application itself,
below its own packages. A dynamic import of it is bundled. -/
theorem above_is_bundled :
    isUrl above.asked.toList = false ∧ IsRelative above.asked ∧ ¬ StaysLocal above.asked ∧
    (started.resolver.resolve installed ⟨"/app"⟩ above.asked false).1 =
      .ok (.external ⟨"/app/node_modules/../index.js"⟩) ∧
    ∃ shared, (outcome (Splitter.plan installed [⟨1, [.literal above]⟩]) started).1 = .ok shared ∧
      .literal above ∈ shared.value.importers := by
  have hasked : isUrl above.asked.toList = false ∧ IsRelative above.asked ∧
      ofText above.asked = .package ".." none := by decide +kernel
  have hanswer : (started.resolver.resolve installed ⟨"/app"⟩ above.asked false).1 =
      .ok (.external ⟨"/app/node_modules/../index.js"⟩) := by decide +kernel
  have hplan : (outcome (Splitter.plan installed [⟨1, [.literal above]⟩])
      started).1.toOption.map (·.value.importers) = some [.literal above] := by decide +kernel
  obtain ⟨hurl, hrelative, hkind⟩ := hasked
  refine ⟨hurl, hrelative, ?_, hanswer, ?_⟩
  · rw [staysLocal_iff_ofText, hkind]
    exact nofun
  · cases ho : (outcome (Splitter.plan installed [⟨1, [.literal above]⟩]) started).1 with
    | error e =>
        rw [ho] at hplan
        cases hplan
    | ok shared =>
        rw [ho] at hplan
        have himporters : shared.value.importers = [.literal above] := Option.some.inj hplan
        exact ⟨shared, rfl, himporters ▸ List.mem_singleton_self _⟩

end Above

end VendorBundle
