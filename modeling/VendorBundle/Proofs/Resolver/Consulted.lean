import VendorBundle.Proofs.Resolver.Learning

/-!
# Resolvers that were only asked about one state

What such a resolver remembers of a specifier is the answer that a resolver without memory gives,
for some way to write the root it was asked from. So it is with the version of an entry file.
-/

namespace VendorBundle.Resolver

variable {σ : Type} [Files σ] {files : σ} {options : ResolveOptions} {r : Resolver}

/-- A resolver that has only seen one state of the file system. -/
inductive Consulted (files : σ) (options : ResolveOptions) : Resolver → Prop where
  | new : Consulted files options { options }
  | resolve {r : Resolver} (root : Path) (specifier : String) (template : Bool)
      (h : Consulted files options r) :
      Consulted files options (r.resolve files root specifier template).2
  | versionOf {r : Resolver} (entrypoint : Path) (h : Consulted files options r) :
      Consulted files options (r.versionOf files entrypoint).2

/-- Where a specifier leads for a resolver without memory, up to the way the root is written. -/
def Leads (files : σ) (options : ResolveOptions) (root : Path) (specifier : String)
    (template : Bool) (target : Except ResolveError Target) : Prop :=
  ∃ root', root'.components = root.components ∧
    answer files options root' specifier template = target

/-- The version of an entry file for a resolver without memory, up to the way its path is written. -/
def Bears (files : σ) (path : Path) (version : String) : Prop :=
  ∃ path', path'.components = path.components ∧ searchVersion files path' = .ok version

/-- All that is remembered is where specifiers lead, and the versions of entry files. -/
structure Recalls (files : σ) (options : ResolveOptions) (r : Resolver) : Prop where
  uses : r.options = options
  target : ∀ root specifier template target,
    r.targets.lookup (root.components, specifier, template) = some target →
      Leads files options root specifier template (.ok target)
  version : ∀ path version, r.versions.lookup path.components = some version →
    Bears files path version

theorem Recalls.remember (h : Recalls files options r) {root : Path} {specifier : String}
    {template : Bool} {target : Target}
    (ha : answer files options root specifier template = .ok target) :
    Recalls files options (r.remember (root.components, specifier, template) target) := by
  obtain ⟨huses, hversions⟩ := uses_remember (r := r) (root.components, specifier, template) target
  refine ⟨huses.trans h.uses, fun root' s t target' hk => ?_, fun path version hv =>
    h.version path version (hversions ▸ hv)⟩
  rcases lookup_remember hk with ⟨hkey, rfl⟩ | hk
  · simp only [Prod.mk.injEq] at hkey
    obtain ⟨hroot, rfl, rfl⟩ := hkey
    exact ⟨root, hroot.symm, ha⟩
  · exact h.target root' s t target' hk

/-- A resolver says of each specifier where it leads. -/
theorem Recalls.resolve (h : Recalls files options r) (root : Path) (specifier : String)
    (template : Bool) :
    Leads files options root specifier template (r.resolve files root specifier template).1 ∧
      Recalls files options (r.resolve files root specifier template).2 := by
  by_cases hs : Searched specifier template
  · rw [resolve_of_searched hs, h.uses]
    cases hl : r.targets.lookup (root.components, specifier, template) with
    | some target => exact ⟨h.target root specifier template target hl, h⟩
    | none =>
        cases ha : answer files options root specifier template with
        | error e => exact ⟨⟨root, rfl, ha⟩, h⟩
        | ok target => exact ⟨⟨root, rfl, ha⟩, h.remember ha⟩
  · obtain ⟨target, -, hr⟩ := exists_of_not_searched hs
    rw [hr]
    exact ⟨⟨root, rfl, by rw [answer, hr]⟩, h⟩

/-- A resolver gives versions that entry files bear, and fails only where the search fails. -/
theorem Recalls.versionOf (h : Recalls files options r) (path : Path) :
    (∀ version, (r.versionOf files path).1 = .ok version → Bears files path version) ∧
      (∀ version, searchVersion files path = .ok version →
        ∃ version', (r.versionOf files path).1 = .ok version') ∧
      Recalls files options (r.versionOf files path).2 := by
  rw [Resolver.versionOf]
  cases hl : r.versions.lookup path.components with
  | some version =>
      exact ⟨fun v hv => Except.ok.inj hv ▸ h.version path version hl, fun _ _ => ⟨version, rfl⟩, h⟩
  | none =>
      cases hv : searchVersion files path with
      | error e =>
          refine ⟨fun v he => ?_, fun v he => ?_, h⟩
          · cases he
          · cases he
      | ok version =>
          refine ⟨fun v he => ⟨path, rfl, Except.ok.inj he ▸ hv⟩, fun _ _ => ⟨version, rfl⟩, h.uses,
            h.target, fun path' v hk => ?_⟩
          rw [List.lookup_cons] at hk
          split at hk
          · rename_i hkey
            obtain rfl := Option.some.inj hk
            exact ⟨path, (beq_iff_eq.mp hkey).symm, hv⟩
          · exact h.version path' v hk

/-- The version of an entry file depends on what its path denotes. -/
def VersionsByPlace (files : σ) : Prop := ∀ p q : Path, p.components = q.components →
  Agree Eq (searchVersion files p) (searchVersion files q)

theorem versionsByPlace (m : Memory) : VersionsByPlace m := fun _ _ => searchVersion_congr m

/-- Then a resolver gives the versions that one without memory finds. -/
theorem Recalls.versionOf_eq_ok_iff (hv : VersionsByPlace files) (h : Recalls files options r)
    {path : Path} {version : String} :
    (r.versionOf files path).1 = .ok version ↔ searchVersion files path = .ok version := by
  obtain ⟨hbears, hfinds, -⟩ := h.versionOf path
  have hsearch : ∀ v, (r.versionOf files path).1 = .ok v → searchVersion files path = .ok v := by
    intro v ho
    obtain ⟨path', hp, hfound⟩ := hbears v ho
    obtain ⟨w, hw, rfl⟩ := (hv path' path hp).of_ok hfound
    exact hw
  refine ⟨hsearch version, fun hs => ?_⟩
  obtain ⟨v, ho⟩ := hfinds version hs
  rw [ho, ← hs, hsearch v ho]

theorem Consulted.recalls (h : Consulted files options r) : Recalls files options r := by
  induction h with
  | new => exact ⟨rfl, fun _ _ _ _ h => absurd h nofun, fun _ _ h => absurd h nofun⟩
  | resolve root specifier template _ ih => exact (ih.resolve root specifier template).2
  | versionOf path _ ih => exact (ih.versionOf path).2.2

/-- Where a specifier leads depends on what the path of the root denotes. -/
def AnswersByPlace (files : σ) (options : ResolveOptions) : Prop := ∀ p q : Path,
  p.components = q.components → ∀ specifier template,
    Agree Target.Same (answer files options p specifier template)
      (answer files options q specifier template)

theorem answersByPlace (m : Memory) (options : ResolveOptions) : AnswersByPlace m options :=
  fun _ _ => answer_congr

/-- Then a specifier leads to one target, however the root is written. -/
theorem Leads.agree (ha : AnswersByPlace files options) {root : Path} {specifier : String}
    {template : Bool} {target target' : Except ResolveError Target}
    (h : Leads files options root specifier template target)
    (h' : Leads files options root specifier template target') :
    Agree Target.Same target target' := by
  obtain ⟨p, hp, rfl⟩ := h
  obtain ⟨q, hq, rfl⟩ := h'
  exact ha p q (hp.trans hq.symm) specifier template

end VendorBundle.Resolver
