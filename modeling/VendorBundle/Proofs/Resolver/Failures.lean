import VendorBundle.Proofs.Resolver.Consulted

/-!
# Failures from paths that denote the same

What goes wrong at a path goes wrong at every path with the same components, and the errors differ at
most in how that path is written. So it is when a manifest is loaded, and when the version of an
entry file is searched for.
-/

namespace VendorBundle

/-- Errors that are equal, or tell of the same at paths that denote the same. -/
inductive FileError.Same : FileError → FileError → Prop where
  | notFound {p q : Path} (h : p.components = q.components) : Same (.notFound p) (.notFound q)
  | notText {p q : Path} (h : p.components = q.components) (fault : Text.Utf8.Fault) :
      Same (.notText p fault) (.notText q fault)
  | refused (action : FileAction) {p q : Path} (h : p.components = q.components) (reason : String) :
      Same (.refused action p reason) (.refused action q reason)

inductive ResolveError.Same : ResolveError → ResolveError → Prop where
  | entryNotFound (specifier : String) {dir dir' source source' : Path}
      (hd : dir.components = dir'.components) (hs : source.components = source'.components) :
      Same (.entryNotFound specifier dir source) (.entryNotFound specifier dir' source')
  | manifestTooLarge {p q : Path} (h : p.components = q.components) :
      Same (.manifestTooLarge p) (.manifestTooLarge q)
  | manifestMalformed {p q : Path} (h : p.components = q.components) :
      Same (.manifestMalformed p) (.manifestMalformed q)
  | file {e e' : FileError} (h : e.Same e') : Same (.file e) (.file e')

theorem FileError.Same.refl (e : FileError) : e.Same e := by
  cases e with
  | notFound => exact .notFound rfl
  | notText => exact .notText rfl _
  | refused => exact .refused _ rfl _

theorem ResolveError.Same.refl (e : ResolveError) : e.Same e := by
  cases e with
  | entryNotFound => exact .entryNotFound _ rfl rfl
  | manifestTooLarge => exact .manifestTooLarge rfl
  | manifestMalformed => exact .manifestMalformed rfl
  | file e => exact .file (.refl e)

/-! ## Reading -/

section

variable (m : Memory) {p q : Path}

theorem Memory.metadata_matches (h : p.components = q.components) :
    Matches FileError.Same Eq (Files.metadata m p) (Files.metadata m q) := by
  simp only [Files.metadata, metadata, get?_eq, Path.resolved_congr h]
  split
  · exact .ok rfl
  · exact .ok rfl
  · exact .error (.notFound h)

theorem Memory.readText_matches (h : p.components = q.components) :
    Matches FileError.Same Eq (Files.readText m p) (Files.readText m q) := by
  have hread : Matches FileError.Same Eq (Files.read m p) (Files.read m q) := by
    simp only [Files.read, read, get?_eq, Path.resolved_congr h]
    split
    · exact .ok rfl
    · exact .error (.refused _ h _)
    · exact .error (.notFound h)
  rw [Files.readText, Files.readText]
  generalize Files.read m p = x at hread
  generalize Files.read m q = y at hread
  cases hread with
  | ok hb =>
      subst hb
      simp only
      split
      · exact .ok rfl
      · exact .error (.notText h _)
  | error he => exact .error he

/-- The version that a manifest declares, or what is wrong with the manifest. -/
theorem Manifest.load_matches (h : p.components = q.components) :
    Matches ResolveError.Same (fun a b => a.version = b.version) (Manifest.load m p)
      (Manifest.load m q) := by
  refine ((m.metadata_matches h).mapError fun _ _ he => .file he).bind ?_
  rintro a _ rfl
  split
  · exact .error (.manifestTooLarge h)
  · refine ((m.readText_matches h).mapError fun _ _ he => .file he).bind ?_
    rintro text _ rfl
    cases Json.parse? text with
    | none => exact .error (.manifestMalformed h)
    | some json =>
        simp only [Option.bind_some, ofJson?_path p q]
        cases ofJson? p json with
        | none => exact .error (.manifestMalformed h)
        | some a => exact .ok rfl

end

/-! ## Versions -/

namespace Resolver

/-- Whether the version of an entry file is found, which one it is, and what is wrong if it is not,
depends on what the path of the entry file denotes. -/
def VersionsMatch {σ : Type} [Files σ] (files : σ) : Prop :=
  ∀ p q : Path, p.components = q.components →
    Matches ResolveError.Same Eq (searchVersion files p) (searchVersion files q)

theorem VersionsMatch.byPlace {σ : Type} [Files σ] {files : σ} (h : VersionsMatch files) :
    VersionsByPlace files := fun p q hc => (h p q hc).agree

theorem versionsMatch (m : Memory) : VersionsMatch m := by
  intro p q h
  have hfound := find?_congr (m.isFile_congr ·) (map_join_congr (Path.ancestors_congr h)
    "package.json")
  rw [searchVersion, searchVersion]
  generalize (p.ancestors.map (·.join "package.json")).find? (Files.isFile m ·) = x at hfound
  generalize (q.ancestors.map (·.join "package.json")).find? (Files.isFile m ·) = y at hfound
  cases x with
  | none =>
      rw [Option.map_eq_none_iff.mp hfound.symm]
      exact .ok rfl
  | some path =>
      obtain ⟨path', rfl, hc⟩ := Option.map_eq_some_iff.mp hfound.symm
      exact (Manifest.load_matches m hc.symm).map fun _ _ hab => congrArg (·.getD unknownVersion) hab

end Resolver

end VendorBundle
