import VendorBundle.Proofs.Resolver.Failures

/-!
# What a resolver answers

A resolver answers from its memory, and searches for what it does not remember. On files that stay
it makes no difference to its answers which others it gave before: what it learns is what it would
have found.
-/

namespace VendorBundle.Resolver

variable {σ : Type} [Files σ] {files : σ} {options : ResolveOptions} {r r' r'' : Resolver}

/-! ## What one call leaves -/

theorem resolve_of_not_searched {specifier : String} {template : Bool}
    (h : ¬ Searched specifier template) (r : Resolver) (options : ResolveOptions) (files : σ)
    (root : Path) :
    r.resolve files root specifier template = (answer files options root specifier template, r) ∧
      ∀ path, answer files options root specifier template ≠ .ok (.external path) := by
  obtain ⟨target, hne, hr⟩ := exists_of_not_searched h
  rw [answer, hr, hr]
  exact ⟨rfl, fun path hp => hne path (Except.ok.inj hp)⟩

theorem search_eq_ok_cases {root : Path} {specifier name : String} {subpath : Option String}
    {template : Bool} {target : Target}
    (h : search files options root specifier name subpath template = .ok target) :
    target = .notInstalled ∨ ∃ path, target = .external path := by
  unfold search at h
  split at h
  · exact .inl (Except.ok.inj h).symm
  · split at h
    · exact .inr ⟨_, (Except.ok.inj h).symm⟩
    · split at h
      · exact absurd h nofun
      · exact .inr ⟨_, (Except.ok.inj h).symm⟩
      · exact absurd h nofun

/-- A call leaves the resolver as it is, unless it gives the first path for its key. -/
theorem resolve_cases (r : Resolver) (files : σ) (root : Path) (specifier : String)
    (template : Bool) :
    ((r.resolve files root specifier template).2 = r ∧
      ∀ path, (r.resolve files root specifier template).1 = .ok (.external path) →
        r.targets.lookup (root.components, specifier, template) = some (.external path)) ∨
    ∃ path, r.targets.lookup (root.components, specifier, template) = none ∧
      r.resolve files root specifier template = (.ok (.external path),
        { r with targets :=
          ((root.components, specifier, template), .external path) :: r.targets }) := by
  by_cases hs : Searched specifier template
  · obtain ⟨⟨name, subpath, hs⟩, hp⟩ := hs
    rw [resolve_of_package hs hp]
    cases hl : r.targets.lookup (root.components, specifier, template) with
    | some target => exact .inl ⟨rfl, fun path h => by rw [Except.ok.inj h]⟩
    | none =>
        cases hf : search files r.options root specifier name subpath template with
        | error e => exact .inl ⟨rfl, nofun⟩
        | ok target =>
            obtain rfl | ⟨path, rfl⟩ := search_eq_ok_cases hf
            · exact .inl ⟨rfl, nofun⟩
            · exact .inr ⟨path, rfl, rfl⟩
  · obtain ⟨hr, hne⟩ := resolve_of_not_searched hs r r.options files root
    rw [hr]
    exact .inl ⟨rfl, fun path h => absurd h (hne path)⟩

theorem searched_of_external {root : Path} {specifier : String} {template : Bool} {path : Path}
    (h : (r.resolve files root specifier template).1 = .ok (.external path)) :
    Searched specifier template := by
  by_contra hs
  obtain ⟨hr, hne⟩ := resolve_of_not_searched hs r r.options files root
  rw [hr] at h
  exact hne path h

@[simp]
theorem versions_resolve (r : Resolver) (files : σ) (root : Path) (specifier : String)
    (template : Bool) : (r.resolve files root specifier template).2.versions = r.versions := by
  obtain ⟨hr, -⟩ | ⟨path, -, hr⟩ := resolve_cases r files root specifier template <;> rw [hr]

@[simp]
theorem options_resolve (r : Resolver) (files : σ) (root : Path) (specifier : String)
    (template : Bool) : (r.resolve files root specifier template).2.options = r.options := by
  obtain ⟨hr, -⟩ | ⟨path, -, hr⟩ := resolve_cases r files root specifier template <;> rw [hr]

@[simp]
theorem targets_versionOf (r : Resolver) (files : σ) (entrypoint : Path) :
    (r.versionOf files entrypoint).2.targets = r.targets := by
  unfold versionOf
  repeat' split
  all_goals rfl

@[simp]
theorem options_versionOf (r : Resolver) (files : σ) (entrypoint : Path) :
    (r.versionOf files entrypoint).2.options = r.options := by
  unfold versionOf
  repeat' split
  all_goals rfl

theorem versionOf_new (options : ResolveOptions) (files : σ) (entrypoint : Path) :
    (({ options } : Resolver).versionOf files entrypoint).1 = searchVersion files entrypoint := by
  simp only [versionOf, List.lookup_nil]
  split <;> simp_all only

/-! ## Answers -/

/-- What a resolver is asked: where a specifier points, seen from a root. -/
structure Question where
  root : Path
  specifier : String
  template : Bool

def Question.key (q : Question) : Key := (q.root.components, q.specifier, q.template)

/-- Where a specifier points for a resolver with its memory as it is. -/
def gives (files : σ) (r : Resolver) (q : Question) : Except ResolveError Target :=
  (r.resolve files q.root q.specifier q.template).1

/-- The version of an entry file for a resolver with its memory as it is. -/
def tells (files : σ) (r : Resolver) (path : Path) : Except ResolveError String :=
  (r.versionOf files path).1

theorem gives_of_searched {q : Question} (hs : Searched q.specifier q.template) (files : σ)
    (r : Resolver) : r.gives files q = match r.targets.lookup q.key with
      | some target => .ok target
      | none => answer files r.options q.root q.specifier q.template := by
  rw [gives, resolve_of_searched hs, Question.key]
  cases r.targets.lookup (q.root.components, q.specifier, q.template) with
  | some target => rfl
  | none =>
      simp only
      cases answer files r.options q.root q.specifier q.template <;> rfl

theorem gives_of_not_searched {q : Question} (hs : ¬ Searched q.specifier q.template) (files : σ)
    (r : Resolver) (options : ResolveOptions) :
    r.gives files q = answer files options q.root q.specifier q.template := by
  rw [gives, (resolve_of_not_searched hs r options files q.root).1]

theorem tells_eq (files : σ) (r : Resolver) (path : Path) :
    r.tells files path = match r.versions.lookup path.components with
      | some version => .ok version
      | none => searchVersion files path := by
  rw [tells, versionOf]
  cases r.versions.lookup path.components with
  | some version => rfl
  | none =>
      simp only
      cases searchVersion files path <;> rfl

/-- The version that is told depends on what the path of the entry file denotes. -/
theorem matches_tells (hv : VersionsMatch files) (r : Resolver) (p q : Path)
    (h : p.components = q.components) :
    Matches ResolveError.Same Eq (r.tells files p) (r.tells files q) := by
  rw [tells_eq, tells_eq, h]
  cases r.versions.lookup q.components with
  | some version => exact .ok rfl
  | none => exact hv p q h

/-- A path that is given is remembered already, or is the one that is found. -/
theorem gives_eq_external {q : Question} {path : Path}
    (h : r.gives files q = .ok (.external path)) : Searched q.specifier q.template ∧
      (r.targets.lookup q.key = some (.external path) ∨ r.targets.lookup q.key = none ∧
        answer files r.options q.root q.specifier q.template = .ok (.external path)) := by
  have hs : Searched q.specifier q.template := searched_of_external h
  refine ⟨hs, ?_⟩
  rw [gives_of_searched hs] at h
  cases hl : r.targets.lookup q.key with
  | some target =>
      rw [hl] at h
      exact .inl (congrArg some (Except.ok.inj h))
  | none =>
      rw [hl] at h
      exact .inr ⟨rfl, h⟩

/-! ## Answers that learning leaves alone -/

/-- On some files, the second resolver answers as the first one, up to how paths are written. -/
structure Echoes (files : σ) (r r' : Resolver) : Prop where
  options : r'.options = r.options
  gives : ∀ q, Matches Eq Target.Same (r'.gives files q) (r.gives files q)
  tells : r'.tells files = r.tells files

theorem Echoes.refl (files : σ) (r : Resolver) : Echoes files r r :=
  ⟨rfl, fun _ => .refl (fun _ => rfl) .refl _, rfl⟩

theorem Echoes.symm (h : Echoes files r r') : Echoes files r' r :=
  ⟨h.options.symm, fun q => (h.gives q).symm Eq.symm Target.Same.symm, h.tells.symm⟩

theorem Echoes.trans (h : Echoes files r r') (h' : Echoes files r' r'') : Echoes files r r'' :=
  ⟨h'.options.trans h.options, fun q => (h'.gives q).trans (fun h h' => h.trans h')
    (fun h h' => h.trans h') (h.gives q), h'.tells.trans h.tells⟩

theorem tells_of_versions (h : r'.versions = r.versions) : r'.tells files = r.tells files := by
  funext path
  rw [tells_eq, tells_eq, h]

theorem gives_of_targets (ho : r'.options = r.options) (ht : r'.targets = r.targets) :
    r'.gives files = r.gives files := by
  funext q
  by_cases hs : Searched q.specifier q.template
  · rw [gives_of_searched hs, gives_of_searched hs, ho, ht]
  · rw [gives_of_not_searched hs files r' r.options, gives_of_not_searched hs files r r.options]

theorem echoes_resolve (ha : AnswersByPlace files r.options) (q : Question) :
    Echoes files r (r.resolve files q.root q.specifier q.template).2 := by
  refine ⟨options_resolve .., fun q' => ?_, tells_of_versions (versions_resolve ..)⟩
  obtain ⟨hr, -⟩ | ⟨path, hl, hr⟩ := resolve_cases r files q.root q.specifier q.template
  · rw [hr]
    exact .refl (fun _ => rfl) .refl _
  by_cases hs : Searched q'.specifier q'.template
  · rw [hr, gives_of_searched hs, gives_of_searched hs]
    by_cases hk : q'.key = q.key
    · -- The path that was learnt is the one that is found from a root of the same components.
      have hgiven : r.gives files q = .ok (.external path) := by rw [gives, hr]
      obtain ⟨-, hknown | ⟨-, hfound⟩⟩ := gives_eq_external hgiven
      · exact absurd (hl.symm.trans hknown) nofun
      · obtain ⟨hroot, hspecifier, htemplate⟩ : _ ∧ _ ∧ _ := by
          simpa only [Question.key, Prod.mk.injEq] using hk
        obtain ⟨found, hfound', hsame⟩ :=
          (ha q.root q'.root hroot.symm q.specifier q.template).of_ok hfound
        rw [hk, Question.key, List.lookup_cons_self, hl, hspecifier, htemplate, hfound']
        exact .ok hsame
    · have hne : (q'.key == (q.root.components, q.specifier, q.template)) = false :=
        beq_eq_false_iff_ne.mpr hk
      rw [List.lookup_cons, hne]
      exact .refl (fun _ => rfl) .refl _
  · rw [gives_of_not_searched hs files _ r.options, gives_of_not_searched hs files r r.options]
    exact .refl (fun _ => rfl) .refl _

theorem echoes_versionOf (hv : VersionsByPlace files) (r : Resolver) (path : Path) :
    Echoes files r (r.versionOf files path).2 := by
  refine ⟨options_versionOf .., fun q => ?_, funext fun path' => ?_⟩
  · rw [gives_of_targets (options_versionOf r files path) (targets_versionOf r files path)]
    exact .refl (fun _ => rfl) .refl _
  · rw [versionOf]
    cases hl : r.versions.lookup path.components with
    | some version => rfl
    | none =>
        cases hf : searchVersion files path with
        | error e => rfl
        | ok version =>
            simp only [tells_eq]
            by_cases hk : path'.components = path.components
            · obtain ⟨_, hfound, rfl⟩ := (hv path path' hk.symm).of_ok hf
              rw [hk, List.lookup_cons_self, hl, hfound]
            · rw [List.lookup_cons, beq_eq_false_iff_ne.mpr hk]

end VendorBundle.Resolver
