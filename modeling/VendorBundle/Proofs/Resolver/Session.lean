import VendorBundle.Proofs.Resolver.Answers

/-!
# Asking one resolver while files change

The files may be edited between two calls of a resolver. What a call answers is told by the calls
before it: the first path that one of them gave for the key, and the first version that one of them
gave for the entry file. If none of them gave any, the call answers what a resolver answers that
knows nothing, so neither an error nor a missing package is ever remembered.
-/

namespace VendorBundle.Resolver

/-! ## Calls and their answers -/

section

variable {σ : Type}

/-- A call with its answer, and the files as they were then. -/
inductive Event (σ : Type) where
  | resolved (files : σ) (root : Path) (specifier : String) (template : Bool)
      (target : Except ResolveError Target)
  | versioned (files : σ) (entrypoint : Path) (version : Except ResolveError String)

namespace Event

def files : Event σ → σ
  | .resolved files .. => files
  | .versioned files .. => files

/-- The path that a call gave for a key. -/
def target? (key : Key) : Event σ → Option Path
  | .resolved _ root specifier template (.ok (.external path)) =>
      if key = (root.components, specifier, template) then some path else none
  | _ => none

/-- The version that a call gave for an entry file. -/
def version? (place : List Path.Component) : Event σ → Option String
  | .versioned _ entrypoint (.ok version) =>
      if place = entrypoint.components then some version else none
  | _ => none

theorem target?_eq_some_iff {files : σ} {root : Path} {specifier : String} {template : Bool}
    {target : Except ResolveError Target} {key : Key} {path : Path} :
    (resolved files root specifier template target).target? key = some path ↔
      key = (root.components, specifier, template) ∧ target = .ok (.external path) := by
  cases target with
  | error e => simp [target?]
  | ok target => cases target <;> simp [target?]

theorem version?_eq_some_iff {files : σ} {entrypoint : Path} {version : Except ResolveError String}
    {place : List Path.Component} {v : String} :
    (versioned files entrypoint version).version? place = some v ↔
      place = entrypoint.components ∧ version = .ok v := by
  cases version <;> simp [version?]

@[simp]
theorem version?_resolved (files : σ) (root : Path) (specifier : String) (template : Bool)
    (target : Except ResolveError Target) (place : List Path.Component) :
    (resolved files root specifier template target).version? place = none := rfl

@[simp]
theorem target?_versioned (files : σ) (entrypoint : Path) (version : Except ResolveError String)
    (key : Key) : (versioned files entrypoint version).target? key = none := rfl

end Event

/-- The path of the first call that gave one for a key. -/
def firstTarget? (es : List (Event σ)) (key : Key) : Option Path :=
  es.findSome? (·.target? key)

/-- The version of the first call that gave one for an entry file. -/
def firstVersion? (es : List (Event σ)) (place : List Path.Component) : Option String :=
  es.findSome? (·.version? place)

theorem firstTarget?_append (es es' : List (Event σ)) (key : Key) :
    firstTarget? (es ++ es') key = (firstTarget? es key).or (firstTarget? es' key) :=
  List.findSome?_append

theorem firstVersion?_append (es es' : List (Event σ)) (place : List Path.Component) :
    firstVersion? (es ++ es') place = (firstVersion? es place).or (firstVersion? es' place) :=
  List.findSome?_append

theorem firstTarget?_singleton (e : Event σ) (key : Key) :
    firstTarget? [e] key = e.target? key := by
  rw [firstTarget?, List.findSome?_cons, List.findSome?_nil]
  cases e.target? key <;> rfl

theorem firstVersion?_singleton (e : Event σ) (place : List Path.Component) :
    firstVersion? [e] place = e.version? place := by
  rw [firstVersion?, List.findSome?_cons, List.findSome?_nil]
  cases e.version? place <;> rfl

theorem exists_of_firstTarget? {es : List (Event σ)} {key : Key} {path : Path}
    (h : firstTarget? es key = some path) : ∃ before files root specifier template after,
      es = before ++ .resolved files root specifier template (.ok (.external path)) :: after ∧
        key = (root.components, specifier, template) ∧ firstTarget? before key = none := by
  obtain ⟨before, e, after, rfl, he, hbefore⟩ := List.findSome?_eq_some_iff.mp h
  cases e with
  | resolved files root specifier template target =>
      obtain ⟨hkey, rfl⟩ := Event.target?_eq_some_iff.mp he
      exact ⟨before, files, root, specifier, template, after, rfl, hkey,
        List.findSome?_eq_none_iff.mpr hbefore⟩
  | versioned => exact absurd he nofun

theorem exists_of_firstVersion? {es : List (Event σ)} {place : List Path.Component}
    {version : String} (h : firstVersion? es place = some version) :
    ∃ before files entrypoint after,
      es = before ++ .versioned files entrypoint (.ok version) :: after ∧
        place = entrypoint.components ∧ firstVersion? before place = none := by
  obtain ⟨before, e, after, rfl, he, hbefore⟩ := List.findSome?_eq_some_iff.mp h
  cases e with
  | resolved => exact absurd he nofun
  | versioned files entrypoint given =>
      obtain ⟨hplace, rfl⟩ := Event.version?_eq_some_iff.mp he
      exact ⟨before, files, entrypoint, after, rfl, hplace,
        List.findSome?_eq_none_iff.mpr hbefore⟩

end

variable {σ : Type} [Files σ] {files : σ} {options : ResolveOptions} {r : Resolver}

/-- The resolver, the files and the calls so far, where the files are edited at will. -/
inductive Session (options : ResolveOptions) : σ → Resolver → List (Event σ) → Prop where
  | new (files : σ) : Session options files { options } []
  | edit {files r es} (files' : σ) (h : Session options files r es) : Session options files' r es
  | resolve {files r es} (root : Path) (specifier : String) (template : Bool)
      (h : Session options files r es) :
      Session options files (r.resolve files root specifier template).2
        (es ++ [.resolved files root specifier template
          (r.resolve files root specifier template).1])
  | versionOf {files r es} (entrypoint : Path) (h : Session options files r es) :
      Session options files (r.versionOf files entrypoint).2
        (es ++ [.versioned files entrypoint (r.versionOf files entrypoint).1])

/-- The answer of a call is the first one that was given before, if there is any, and otherwise the
one of a resolver that knows nothing. -/
def Event.Follows (options : ResolveOptions) (before : List (Event σ)) : Event σ → Prop
  | .resolved files root specifier template target =>
      target = match firstTarget? before (root.components, specifier, template) with
        | some path => .ok (.external path)
        | none => answer files options root specifier template
  | .versioned files entrypoint version =>
      version = match firstVersion? before entrypoint.components with
        | some version => .ok version
        | none => (({ options } : Resolver).versionOf files entrypoint).1

/-- The answer of a call is the one of a resolver that knows nothing, up to how a path is
written. -/
def Event.Fresh (options : ResolveOptions) : Event σ → Prop
  | .resolved files root specifier template target =>
      Matches Eq Target.Same target (answer files options root specifier template)
  | .versioned files entrypoint version =>
      version = (({ options } : Resolver).versionOf files entrypoint).1

/-! ## What one call leaves -/

/-- A call remembers the path it gives, unless there was one for its key. -/
theorem lookup_targets_resolve (r : Resolver) (files : σ) (root : Path) (specifier : String)
    (template : Bool) (key : Key) :
    (r.resolve files root specifier template).2.targets.lookup key = (r.targets.lookup key).or
      (((Event.resolved files root specifier template
        (r.resolve files root specifier template).1).target? key).map .external) := by
  obtain ⟨hr, hknown⟩ | ⟨path, hl, hr⟩ := resolve_cases r files root specifier template
  · rw [hr]
    cases htarget : (Event.resolved files root specifier template
        (r.resolve files root specifier template).1).target? key with
    | none => rw [Option.map_none, Option.or_none]
    | some path =>
        obtain ⟨hkey, ht⟩ := Event.target?_eq_some_iff.mp htarget
        rw [hkey, hknown path ht, Option.some_or]
  · rw [hr]
    by_cases hk : key = (root.components, specifier, template)
    · subst hk
      simp only [Event.target?, List.lookup_cons_self, hl, if_true, Option.none_or,
        Option.map_some]
    · simp only [Event.target?, List.lookup_cons, beq_eq_false_iff_ne.mpr hk, if_neg hk,
        Option.map_none, Option.or_none]

/-- A call remembers the version it gives, unless there was one for its entry file. -/
theorem lookup_versions_versionOf (r : Resolver) (files : σ) (entrypoint : Path)
    (place : List Path.Component) :
    (r.versionOf files entrypoint).2.versions.lookup place = (r.versions.lookup place).or
      ((Event.versioned files entrypoint (r.versionOf files entrypoint).1).version? place) := by
  rw [versionOf]
  cases hl : r.versions.lookup entrypoint.components with
  | some version =>
      by_cases hk : place = entrypoint.components
      · rw [hk, hl, Option.some_or]
      · simp only [Event.version?, if_neg hk, Option.or_none]
  | none =>
      cases searchVersion files entrypoint with
      | error e => simp only [Event.version?, Option.or_none]
      | ok version =>
          by_cases hk : place = entrypoint.components
          · subst hk
            simp only [Event.version?, List.lookup_cons_self, hl, if_true, Option.none_or]
          · simp only [Event.version?, List.lookup_cons, beq_eq_false_iff_ne.mpr hk, if_neg hk,
              Option.or_none]

/-! ## What a session leaves -/

/-- A resolver remembers the first answers of its calls, and nothing else. -/
structure Recorded (options : ResolveOptions) (r : Resolver) (es : List (Event σ)) : Prop where
  uses : r.options = options
  targets : ∀ key, r.targets.lookup key = (firstTarget? es key).map .external
  versions : ∀ place, r.versions.lookup place = firstVersion? es place
  /-- Only what is looked for in the files gets a path. -/
  searched : ∀ key path, firstTarget? es key = some path → Searched key.2.1 key.2.2

namespace Recorded

variable {es : List (Event σ)}

/-- The calls so far decide the next answer. -/
theorem follows_resolve (h : Recorded options r es) (files : σ) (root : Path) (specifier : String)
    (template : Bool) :
    (Event.resolved files root specifier template
      (r.resolve files root specifier template).1).Follows options es := by
  rw [Event.Follows]
  by_cases hs : Searched specifier template
  · rw [resolve_of_searched hs, h.targets, h.uses]
    cases firstTarget? es (root.components, specifier, template) with
    | some path => rfl
    | none =>
        simp only [Option.map_none]
        cases answer files options root specifier template <;> rfl
  · have hnone : firstTarget? es (root.components, specifier, template) = none :=
      Option.eq_none_iff_forall_ne_some.mpr fun path hp =>
            hs (h.searched (root.components, specifier, template) path hp)
    rw [hnone, (resolve_of_not_searched hs r options files root).1]

theorem follows_versionOf (h : Recorded options r es) (files : σ) (entrypoint : Path) :
    (Event.versioned files entrypoint (r.versionOf files entrypoint).1).Follows options es := by
  rw [Event.Follows, versionOf_new, versionOf, h.versions]
  cases firstVersion? es entrypoint.components with
  | some version => rfl
  | none =>
      simp only
      cases searchVersion files entrypoint <;> rfl

theorem resolve (h : Recorded options r es) (files : σ) (root : Path) (specifier : String)
    (template : Bool) :
    Recorded options (r.resolve files root specifier template).2
      (es ++ [.resolved files root specifier template
        (r.resolve files root specifier template).1]) where
  uses := (options_resolve ..).trans h.uses
  targets key := by
    rw [lookup_targets_resolve, h.targets, firstTarget?_append, firstTarget?_singleton]
    cases firstTarget? es key <;> rfl
  versions place := by
    rw [versions_resolve, h.versions, firstVersion?_append, firstVersion?_singleton,
      Event.version?_resolved, Option.or_none]
  searched key path hk := by
    rw [firstTarget?_append, firstTarget?_singleton, Option.or_eq_some_iff] at hk
    obtain hk | ⟨-, hk⟩ := hk
    · exact h.searched key path hk
    · obtain ⟨rfl, ht⟩ := Event.target?_eq_some_iff.mp hk
      exact searched_of_external ht

theorem versionOf (h : Recorded options r es) (files : σ) (entrypoint : Path) :
    Recorded options (r.versionOf files entrypoint).2
      (es ++ [.versioned files entrypoint (r.versionOf files entrypoint).1]) := by
  have htargets : ∀ key, firstTarget?
      (es ++ [.versioned files entrypoint (r.versionOf files entrypoint).1]) key =
        firstTarget? es key := fun key => by
    rw [firstTarget?_append, firstTarget?_singleton, Event.target?_versioned, Option.or_none]
  refine ⟨(options_versionOf ..).trans h.uses, fun key => ?_, fun place => ?_, fun key path hk => ?_⟩
  · rw [targets_versionOf, h.targets, htargets]
  · rw [lookup_versions_versionOf, h.versions, firstVersion?_append, firstVersion?_singleton]
  · exact h.searched key path (htargets key ▸ hk)

end Recorded

theorem Session.recorded {es : List (Event σ)} (h : Session options files r es) :
    Recorded options r es := by
  induction h with
  | new => exact ⟨rfl, fun _ => rfl, fun _ => rfl, nofun⟩
  | edit _ _ ih => exact ih
  | resolve root specifier template _ ih => exact ih.resolve _ root specifier template
  | versionOf entrypoint _ ih => exact ih.versionOf _ entrypoint

theorem Session.follows {es : List (Event σ)} (h : Session options files r es) :
    ∀ before e after, es = before ++ e :: after → e.Follows options before := by
  -- The last call follows the calls before it, and the others did so already.
  have hsnoc : ∀ {es : List (Event σ)} {last : Event σ},
      (∀ before e after, es = before ++ e :: after → e.Follows options before) →
      last.Follows options es →
      ∀ before e after, es ++ [last] = before ++ e :: after → e.Follows options before := by
    intro es last ih hlast before e after heq
    obtain rfl | ⟨init, last', rfl⟩ := after.eq_nil_or_concat'
    · obtain ⟨rfl, hlast'⟩ := List.append_inj' heq rfl
      exact (List.cons.inj hlast').1 ▸ hlast
    · rw [← List.cons_append, ← List.append_assoc] at heq
      exact ih before e init (List.append_inj' heq rfl).1
  induction h with
  | new =>
      intro before e after heq
      exact absurd heq.symm (by simp)
  | edit _ _ ih => exact ih
  | resolve root specifier template h ih =>
      exact hsnoc ih (h.recorded.follows_resolve _ root specifier template)
  | versionOf entrypoint h ih => exact hsnoc ih (h.recorded.follows_versionOf _ entrypoint)

/-! ## Files that stay -/

section

variable {m : Memory} {es : List (Event Memory)}

/-- The call that first gave a path was answered as by a resolver that knows nothing, so while the
files stay the path is what such a resolver finds. -/
theorem fresh_resolved {before : List (Event Memory)} {root : Path} {specifier : String}
    {template : Bool} {target : Except ResolveError Target}
    (hbefore : ∀ front e behind, before = front ++ e :: behind → e.Follows options front)
    (hm : ∀ e ∈ before, e.files = m)
    (h : (Event.resolved m root specifier template target).Follows options before) :
    (Event.resolved m root specifier template target).Fresh options := by
  rw [Event.Follows] at h
  rw [Event.Fresh, h]
  cases hfirst : firstTarget? before (root.components, specifier, template) with
  | none => exact .refl (fun _ => rfl) .refl _
  | some path =>
      obtain ⟨earlier, files, root', specifier', template', later, rfl, hkey, hnone⟩ :=
        exists_of_firstTarget? hfirst
      obtain ⟨hroot, rfl, rfl⟩ : _ ∧ _ ∧ _ := by simpa only [Prod.mk.injEq] using hkey
      obtain rfl : files = m := hm (.resolved files ..)
        (List.mem_append_right _ (List.mem_cons_self ..))
      have hgiven := hbefore earlier _ _ rfl
      rw [Event.Follows, ← hkey, hnone] at hgiven
      obtain ⟨found, hfound, hsame⟩ :=
        (answer_congr hroot.symm specifier template).of_ok hgiven.symm
      rw [hfound]
      exact .ok hsame

/-- The same for the version of an entry file. -/
theorem fresh_versioned {before : List (Event Memory)} {entrypoint : Path}
    {version : Except ResolveError String}
    (hbefore : ∀ front e behind, before = front ++ e :: behind → e.Follows options front)
    (hm : ∀ e ∈ before, e.files = m)
    (h : (Event.versioned m entrypoint version).Follows options before) :
    (Event.versioned m entrypoint version).Fresh options := by
  rw [Event.Follows] at h
  rw [Event.Fresh, h, versionOf_new]
  cases hfirst : firstVersion? before entrypoint.components with
  | none => rfl
  | some version =>
      obtain ⟨earlier, files, entrypoint', later, rfl, hplace, hnone⟩ :=
        exists_of_firstVersion? hfirst
      obtain rfl : files = m := hm (.versioned files ..)
        (List.mem_append_right _ (List.mem_cons_self ..))
      have hgiven := hbefore earlier _ _ rfl
      rw [Event.Follows, ← hplace, hnone, versionOf_new] at hgiven
      obtain ⟨found, hfound, rfl⟩ := (searchVersion_congr files hplace.symm).of_ok hgiven.symm
      exact hfound.symm

/-- While the files stay, no call tells that others were made before it. -/
theorem fresh_of_follows
    (h : ∀ before e after, es = before ++ e :: after → e.Follows options before)
    (hm : ∀ e ∈ es, e.files = m) : ∀ e ∈ es, e.Fresh options := by
  intro e he
  obtain ⟨before, after, rfl⟩ := List.append_of_mem he
  have hfollows : e.Follows options before := h before e after rfl
  have hfiles : ∀ e' ∈ before, e'.files = m := fun e' he' => hm e' (List.mem_append_left _ he')
  have hbefore : ∀ front e' behind, before = front ++ e' :: behind →
      e'.Follows options front := fun front e' behind hsplit =>
    h front e' (behind ++ e :: after) (by rw [hsplit, List.append_assoc, List.cons_append])
  have he : e.files = m := hm e (by simp)
  cases e with
  | resolved files root specifier template target =>
      obtain rfl : files = m := he
      exact fresh_resolved hbefore hfiles hfollows
  | versioned files entrypoint version =>
      obtain rfl : files = m := he
      exact fresh_versioned hbefore hfiles hfollows

/-- However the files are edited between the calls, the first path for a key and the first version
of an entry file are given ever after, and all other calls answer as a resolver that knows nothing.
If the files stay, all calls do. -/
theorem Session.first_answers_last (h : Session options m r es) :
    (∀ before e after, es = before ++ e :: after → e.Follows options before) ∧
      ∀ m', (∀ e ∈ es, e.files = m') → ∀ e ∈ es, e.Fresh options :=
  ⟨h.follows, fun _ => fresh_of_follows h.follows⟩

end

/-! ## A package that is installed and removed again -/

namespace Removal

def bare : Memory := .empty ⟨"/"⟩

def installed : Memory := bare.addFile ⟨"/app/node_modules/x/index.js"⟩ .empty

def removed : Memory := installed.remove ⟨"/app/node_modules/x"⟩

/-- Asks for the package, in one of the ways to write the root. -/
def asked (m : Memory) (root : Path) (r : Resolver) : Except ResolveError Target × Resolver :=
  r.resolve m root "x" false

def event (m : Memory) (root : Path) (r : Resolver) : Event Memory :=
  .resolved m root "x" false (asked m root r).1

def entry : Path := ⟨"/app/node_modules/x/index.js"⟩

def missed : Resolver := (asked bare ⟨"/app"⟩ { options := {} }).2

def found : Resolver := (asked installed ⟨"/app"⟩ missed).2

/-- The package is missing, then installed, then removed. -/
theorem session_removed : Session {} removed (asked removed ⟨"/app"⟩ found).2
    [event bare ⟨"/app"⟩ { options := {} }, event installed ⟨"/app"⟩ missed,
      event removed ⟨"/app"⟩ found] :=
  ((((Session.new bare).resolve ⟨"/app"⟩ "x" false).edit installed).resolve ⟨"/app"⟩ "x" false
    |>.edit removed).resolve ⟨"/app"⟩ "x" false

/-- The package is installed all along, and the root is written in two ways. -/
theorem session_installed : Session {} installed
    (asked installed ⟨"//app/."⟩ (asked installed ⟨"/app"⟩ { options := {} }).2).2
    [event installed ⟨"/app"⟩ { options := {} },
      event installed ⟨"//app/."⟩ (asked installed ⟨"/app"⟩ { options := {} }).2] :=
  ((Session.new installed).resolve ⟨"/app"⟩ "x" false).resolve ⟨"//app/."⟩ "x" false

theorem answers_removal :
    (asked bare ⟨"/app"⟩ { options := {} }).1 = .ok .notInstalled ∧
    (asked installed ⟨"/app"⟩ missed).1 = .ok (.external entry) ∧
    answer removed {} ⟨"/app"⟩ "x" false = .ok .notInstalled ∧
    answer installed {} ⟨"//app/."⟩ "x" false =
      .ok (.external ⟨"//app/./node_modules/x/index.js"⟩) := by
  decide +kernel

/-- The missing package is looked for again and found, and then it is never missed. -/
theorem found_until_the_end :
    (asked bare ⟨"/app"⟩ { options := {} }).1 = .ok .notInstalled ∧
    (asked installed ⟨"/app"⟩ missed).1 = .ok (.external entry) ∧
    (asked removed ⟨"/app"⟩ found).1 = .ok (.external entry) ∧
    answer removed {} ⟨"/app"⟩ "x" false = .ok .notInstalled ∧
    (event installed ⟨"//app/."⟩ (asked installed ⟨"/app"⟩ { options := {} }).2).Fresh {} ∧
    answer installed {} ⟨"//app/."⟩ "x" false =
      .ok (.external ⟨"//app/./node_modules/x/index.js"⟩) := by
  obtain ⟨hmissed, hfound, hremoved, hinstalled⟩ := answers_removal
  refine ⟨hmissed, hfound, ?_, hremoved, ?_, hinstalled⟩
  · have hlast := session_removed.first_answers_last.1
      [event bare ⟨"/app"⟩ { options := {} }, event installed ⟨"/app"⟩ missed] _ [] rfl
    have hfirst : firstTarget? [event bare ⟨"/app"⟩ { options := {} },
        event installed ⟨"/app"⟩ missed] (Path.components ⟨"/app"⟩, "x", false) = some entry := by
      simp only [firstTarget?, List.findSome?, event, hmissed, hfound, Event.target?, if_true]
    exact Eq.trans hlast (by rw [hfirst])
  · exact session_installed.first_answers_last.2 installed
      (by simp only [List.forall_mem_cons, List.not_mem_nil, event, Event.files]; simp)
      _ (List.mem_cons_of_mem _ (List.mem_cons_self ..))

end Removal

end VendorBundle.Resolver
