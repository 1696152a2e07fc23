import VendorBundle.Proofs.Resolver.Search

/-!
# What a resolver remembers

A resolver only ever learns: what it remembers stays. As long as all of it is right, it gives the
answers of a resolver that knows nothing, and what it learns from a search is right again.
-/

namespace VendorBundle

namespace Resolver

/-- Where a specifier leads for a resolver that knows nothing yet. -/
def answer {σ : Type} [Files σ] (files : σ) (options : ResolveOptions) (root : Path)
    (specifier : String) (template : Bool) : Except ResolveError Target :=
  (resolve { options } files root specifier template).1

/-- All that a resolver remembers is right. -/
structure Sound (m : Memory) (options : ResolveOptions) (r : Resolver) : Prop where
  uses : r.options = options
  target : ∀ root specifier template target,
    r.targets.lookup (root.components, specifier, template) = some target →
      ∃ found, answer m options root specifier template = .ok found ∧ target.Same found
  version : ∀ path version, r.versions.lookup path.components = some version →
    searchVersion m path = .ok version

/-- What the first resolver remembers, the second does. -/
structure Grows (r r' : Resolver) : Prop where
  target : ∀ key target, r.targets.lookup key = some target → r'.targets.lookup key = some target
  version : ∀ key version, r.versions.lookup key = some version →
    r'.versions.lookup key = some version

variable {m : Memory} {options : ResolveOptions} {r r' r'' : Resolver}

theorem Grows.refl (r : Resolver) : Grows r r := ⟨fun _ _ h => h, fun _ _ h => h⟩

theorem Grows.trans (h : Grows r r') (h' : Grows r' r'') : Grows r r'' :=
  ⟨fun k t hk => h'.target k t (h.target k t hk), fun k v hk => h'.version k v (h.version k v hk)⟩

theorem Sound.of_grows (h : Sound m options r') (hg : Grows r r') (ho : r.options = options) :
    Sound m options r :=
  ⟨ho, fun root s t target hk => h.target root s t target (hg.target _ _ hk),
    fun path v hk => h.version path v (hg.version _ _ hk)⟩

theorem sound_create (m : Memory) (options : ResolveOptions) : Sound m options { options } :=
  ⟨rfl, fun _ _ _ _ h => absurd h nofun, fun _ _ h => absurd h nofun⟩

/-! ## Resolving -/

/-- Specifiers that are looked for in the files. -/
def Searched (specifier : String) (template : Bool) : Prop :=
  (∃ name subpath, Specifier.ofText specifier = .package name subpath) ∧
    (template && !Specifier.isPrecise specifier) = false

theorem resolve_of_package {σ : Type} [Files σ] {files : σ} {name : String}
    {subpath : Option String} {specifier : String} {template : Bool}
    (hs : Specifier.ofText specifier = .package name subpath)
    (hp : (template && !Specifier.isPrecise specifier) = false) (r : Resolver) (root : Path) :
    r.resolve files root specifier template =
      match r.targets.lookup (root.components, specifier, template) with
      | some target => (.ok target, r)
      | none => match search files r.options root specifier name subpath template with
        | .error e => (.error e, r)
        | .ok target => (.ok target, r.remember (root.components, specifier, template) target) := by
  rw [resolve, hs]
  exact if_neg (by rw [hp]; exact Bool.false_ne_true)

theorem answer_of_package {σ : Type} [Files σ] {files : σ} {name : String}
    {subpath : Option String} {specifier : String} {template : Bool}
    (hs : Specifier.ofText specifier = .package name subpath)
    (hp : (template && !Specifier.isPrecise specifier) = false) (root : Path) :
    answer files options root specifier template =
      search files options root specifier name subpath template := by
  rw [answer, resolve_of_package hs hp]
  simp only [List.lookup_nil]
  split <;> simp_all

/-- What a specifier leads to is taken from memory, or is found and then remembered. -/
theorem resolve_of_searched {σ : Type} [Files σ] {specifier : String} {template : Bool}
    (hs : Searched specifier template) (r : Resolver) (files : σ) (root : Path) :
    r.resolve files root specifier template =
      match r.targets.lookup (root.components, specifier, template) with
      | some target => (.ok target, r)
      | none => match answer files r.options root specifier template with
        | .error e => (.error e, r)
        | .ok target => (.ok target, r.remember (root.components, specifier, template) target) := by
  obtain ⟨⟨name, subpath, hs⟩, hp⟩ := hs
  rw [resolve_of_package hs hp, answer_of_package hs hp]

/-- Any other specifier is answered by its text alone. -/
theorem exists_of_not_searched {specifier : String} {template : Bool}
    (h : ¬ Searched specifier template) : ∃ target, (∀ path, target ≠ .external path) ∧
      ∀ {σ : Type} [Files σ] (r : Resolver) (files : σ) (root : Path),
        r.resolve files root specifier template = (.ok target, r) := by
  cases hs : Specifier.ofText specifier with
  | package name subpath =>
      cases hp : template && !Specifier.isPrecise specifier with
      | false => exact absurd ⟨⟨name, subpath, hs⟩, hp⟩ h
      | true => exact ⟨.imprecise, nofun, fun _ _ _ => by simp [resolve, hs, hp]⟩
  | url => exact ⟨.url, nofun, fun _ _ _ => by simp [resolve, hs]⟩
  | localPath => exact ⟨.localPath ⟨specifier⟩, nofun, fun _ _ _ => by simp [resolve, hs]⟩

theorem answer_congr {p q : Path} (h : p.components = q.components) (specifier : String)
    (template : Bool) : Agree Target.Same (answer m options p specifier template)
      (answer m options q specifier template) := by
  by_cases hs : Searched specifier template
  · obtain ⟨⟨name, subpath, hs⟩, hp⟩ := hs
    rw [answer_of_package hs hp, answer_of_package hs hp]
    exact search_congr m options h specifier name subpath template
  · obtain ⟨target, -, hr⟩ := exists_of_not_searched hs
    rw [answer, answer, hr, hr]
    exact .ok (.refl target)

theorem grows_remember {key : Key} (hk : r.targets.lookup key = none) (target : Target) :
    Grows r (r.remember key target) := by
  have hother : ∀ key' target', r.targets.lookup key' = some target' → (key' == key) = false := by
    intro key' target' h
    rw [beq_eq_false_iff_ne]
    rintro rfl
    exact absurd (hk.symm.trans h) nofun
  refine ⟨fun key' target' h => ?_, fun key' version h => ?_⟩
  · cases target <;> simp only [remember, List.lookup_cons, hother key' target' h] <;> exact h
  · cases target <;> exact h

/-- What is known once a target was remembered is that target, or was known before. -/
theorem lookup_remember {key key' : Key} {target target' : Target}
    (h : (r.remember key target).targets.lookup key' = some target') :
    key' = key ∧ target' = target ∨ r.targets.lookup key' = some target' := by
  have hcons : ((key, target) :: r.targets).lookup key' = some target' →
      key' = key ∧ target' = target ∨ r.targets.lookup key' = some target' := by
    intro h
    rw [List.lookup_cons] at h
    split at h
    · rename_i hkey
      exact .inl ⟨beq_iff_eq.mp hkey, (Option.some.inj h).symm⟩
    · exact .inr h
  cases target with
  | notInstalled => exact .inr h
  | _ => exact hcons h

theorem uses_remember (key : Key) (target : Target) :
    (r.remember key target).options = r.options ∧
      (r.remember key target).versions = r.versions := by
  cases target <;> exact ⟨rfl, rfl⟩

theorem Sound.remember (h : Sound m options r) {root : Path} {specifier : String}
    {template : Bool} {target : Target}
    (ha : answer m options root specifier template = .ok target) :
    Sound m options (r.remember (root.components, specifier, template) target) := by
  obtain ⟨huses, hversions⟩ := uses_remember (r := r) (root.components, specifier, template) target
  refine ⟨huses.trans h.uses, fun root' s t target' hk => ?_, fun path version hv =>
    h.version path version (hversions ▸ hv)⟩
  rcases lookup_remember hk with ⟨hkey, rfl⟩ | hk
  · simp only [Prod.mk.injEq] at hkey
    obtain ⟨hroot, rfl, rfl⟩ := hkey
    exact (answer_congr hroot.symm s t).of_ok ha
  · exact h.target root' s t target' hk

/-- A resolver whose memory is right gives the answer of one that knows nothing, and its memory
stays right. -/
theorem Sound.resolve (h : Sound m options r) (root : Path) (specifier : String)
    (template : Bool) :
    Agree Target.Same (r.resolve m root specifier template).1
        (answer m options root specifier template) ∧
      Sound m options (r.resolve m root specifier template).2 ∧
      Grows r (r.resolve m root specifier template).2 := by
  by_cases hs : Searched specifier template
  · rw [resolve_of_searched hs, h.uses]
    cases hl : r.targets.lookup (root.components, specifier, template) with
    | some target =>
        obtain ⟨found, ha, hsame⟩ := h.target root specifier template target hl
        exact ⟨ha ▸ .ok hsame, h, .refl r⟩
    | none =>
        cases ha : answer m options root specifier template with
        | error e => exact ⟨.error, h, .refl r⟩
        | ok target => exact ⟨.ok (.refl target), h.remember ha, grows_remember hl target⟩
  · obtain ⟨target, -, hr⟩ := exists_of_not_searched hs
    rw [answer, hr, hr]
    exact ⟨.ok (.refl target), h, .refl r⟩

/-! ## Versions -/

/-- The version of an entry file is searched for once, and is remembered when it is found. -/
theorem Sound.versionOf (h : Sound m options r) (path : Path) :
    (∀ version, (r.versionOf m path).1 = .ok version ↔ searchVersion m path = .ok version) ∧
      (∀ version, (r.versionOf m path).1 = .ok version →
        (r.versionOf m path).2.versions.lookup path.components = some version) ∧
      Sound m options (r.versionOf m path).2 ∧ Grows r (r.versionOf m path).2 := by
  rw [Resolver.versionOf]
  cases hl : r.versions.lookup path.components with
  | some version =>
      have hv := h.version path version hl
      exact ⟨fun v => by rw [hv], fun v hv => Except.ok.inj hv ▸ hl, h, .refl r⟩
  | none =>
      cases hv : searchVersion m path with
      | error e => exact ⟨fun v => .rfl, nofun, h, .refl r⟩
      | ok version =>
          refine ⟨fun v => .rfl, fun v hv => ?_, ⟨h.uses, h.target, fun path' v hk => ?_⟩,
            fun _ _ hk => hk, fun key v hk => ?_⟩
          · rw [List.lookup_cons_self, Except.ok.inj hv]
          · simp only [List.lookup_cons] at hk
            split at hk
            · rename_i hkey
              rw [beq_iff_eq] at hkey
              obtain rfl := Option.some.inj hk
              obtain ⟨v, hv', rfl⟩ := (searchVersion_congr m hkey.symm).of_ok hv
              exact hv'
            · exact h.version path' v hk
          · have hne : (key == path.components) = false := by
              rw [beq_eq_false_iff_ne]
              rintro rfl
              exact absurd (hl.symm.trans hk) nofun
            simpa only [List.lookup_cons, hne] using hk

end Resolver

end VendorBundle
