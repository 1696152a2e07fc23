import VendorBundle.Proofs.Memory.Nodes
import VendorBundle.Proofs.Path.Same
import VendorBundle.Resolver

/-!
# Searches depend on what paths denote

A search from two roots with the same components fails from both, or finds from both what denotes
the same. So does the search for the version that belongs to an entry file.
-/

namespace VendorBundle

/-- Both fail, or both succeed with results that are related. -/
inductive Agree {ε ε' α β : Type} (R : α → β → Prop) : Except ε α → Except ε' β → Prop where
  | ok {a b} (h : R a b) : Agree R (.ok a) (.ok b)
  | error {e e'} : Agree R (.error e) (.error e')

namespace Agree

variable {ε ε' α β γ δ : Type} {R : α → β → Prop} {S : γ → δ → Prop}

theorem refl {x : Except ε α} {R : α → α → Prop} (h : ∀ a, R a a) : Agree R x x := by
  cases x with
  | ok a => exact .ok (h a)
  | error e => exact .error

theorem bind {x : Except ε α} {y : Except ε' β} {f : α → Except ε γ} {g : β → Except ε' δ}
    (h : Agree R x y) (hf : ∀ a b, R a b → Agree S (f a) (g b)) : Agree S (x >>= f) (y >>= g) := by
  cases h with
  | ok h => exact hf _ _ h
  | error => exact .error

theorem map {x : Except ε α} {y : Except ε' β} {f : α → γ} {g : β → δ} (h : Agree R x y)
    (hf : ∀ a b, R a b → S (f a) (g b)) : Agree S (x.map f) (y.map g) := by
  cases h with
  | ok h => exact .ok (hf _ _ h)
  | error => exact .error

theorem mapError {ε₁ ε₁' : Type} {x : Except ε α} {y : Except ε' β} (h : Agree R x y)
    (f : ε → ε₁) (g : ε' → ε₁') : Agree R (x.mapError f) (y.mapError g) := by
  cases h with
  | ok h => exact .ok h
  | error => exact .error

/-- Outcomes that agree with a third one agree with each other. -/
theorem join {ε'' : Type} {x : Except ε α} {y : Except ε' α} {z : Except ε'' α}
    {R : α → α → Prop} (hR : ∀ {a b c}, R a c → R b c → R a b) (h : Agree R x z)
    (h' : Agree R y z) : Agree R x y := by
  cases h with
  | ok h =>
      cases h' with
      | ok h' => exact .ok (hR h h')
  | error =>
      cases h' with
      | error => exact .error

theorem symm {x : Except ε α} {y : Except ε' β} {R' : β → α → Prop}
    (hR : ∀ {a b}, R a b → R' b a) (h : Agree R x y) : Agree R' y x := by
  cases h with
  | ok h => exact .ok (hR h)
  | error => exact .error

/-- What the first gives, the second gives in its way. -/
theorem of_ok {x : Except ε α} {y : Except ε' β} (h : Agree R x y) {a : α} (hx : x = .ok a) :
    ∃ b, y = .ok b ∧ R a b := by
  cases h with
  | ok h => exact ⟨_, rfl, Except.ok.inj hx ▸ h⟩
  | error => exact absurd hx nofun

theorem of_ok_right {x : Except ε α} {y : Except ε' β} (h : Agree R x y) {b : β} (hy : y = .ok b) :
    ∃ a, x = .ok a ∧ R a b := by
  subst hy
  cases h with
  | ok h => exact ⟨_, rfl, h⟩

end Agree

/-- Both fail, with errors that are related, or both succeed, with results that are related. -/
inductive Matches {ε ε' α β : Type} (E : ε → ε' → Prop) (R : α → β → Prop) :
    Except ε α → Except ε' β → Prop where
  | ok {a b} (h : R a b) : Matches E R (.ok a) (.ok b)
  | error {e e'} (h : E e e') : Matches E R (.error e) (.error e')

namespace Matches

variable {ε ε' ε₁ ε₁' α β γ δ : Type} {E : ε → ε' → Prop} {R : α → β → Prop} {S : γ → δ → Prop}

theorem refl {E : ε → ε → Prop} {R : α → α → Prop} (hE : ∀ e, E e e) (hR : ∀ a, R a a)
    (x : Except ε α) : Matches E R x x := by
  cases x with
  | ok a => exact .ok (hR a)
  | error e => exact .error (hE e)

theorem bind {x : Except ε α} {y : Except ε' β} {f : α → Except ε γ} {g : β → Except ε' δ}
    (h : Matches E R x y) (hf : ∀ a b, R a b → Matches E S (f a) (g b)) :
    Matches E S (x >>= f) (y >>= g) := by
  cases h with
  | ok h => exact hf _ _ h
  | error h => exact .error h

theorem map {x : Except ε α} {y : Except ε' β} {f : α → γ} {g : β → δ} (h : Matches E R x y)
    (hf : ∀ a b, R a b → S (f a) (g b)) : Matches E S (x.map f) (y.map g) := by
  cases h with
  | ok h => exact .ok (hf _ _ h)
  | error h => exact .error h

theorem mapError {E' : ε₁ → ε₁' → Prop} {x : Except ε α} {y : Except ε' β} (h : Matches E R x y)
    {f : ε → ε₁} {g : ε' → ε₁'} (hf : ∀ e e', E e e' → E' (f e) (g e')) :
    Matches E' R (x.mapError f) (y.mapError g) := by
  cases h with
  | ok h => exact .ok h
  | error h => exact .error (hf _ _ h)

theorem trans {ε'' : Type} {E' : ε' → ε'' → Prop} {F : ε → ε'' → Prop} {R' : β → γ → Prop}
    {T : α → γ → Prop} {x : Except ε α} {y : Except ε' β} {z : Except ε'' γ}
    (h : Matches E R x y) (hE : ∀ {a b c}, E a b → E' b c → F a c)
    (hR : ∀ {a b c}, R a b → R' b c → T a c) (h' : Matches E' R' y z) : Matches F T x z := by
  cases h with
  | ok h =>
      cases h' with
      | ok h' => exact .ok (hR h h')
  | error h =>
      cases h' with
      | error h' => exact .error (hE h h')

theorem symm {F : ε' → ε → Prop} {R' : β → α → Prop} {x : Except ε α} {y : Except ε' β}
    (h : Matches E R x y) (hE : ∀ {a b}, E a b → F b a) (hR : ∀ {a b}, R a b → R' b a) :
    Matches F R' y x := by
  cases h with
  | ok h => exact .ok (hR h)
  | error h => exact .error (hE h)

theorem mono {E' : ε → ε' → Prop} {x : Except ε α} {y : Except ε' β} (h : Matches E R x y)
    (hE : ∀ {a b}, E a b → E' a b) : Matches E' R x y := by
  cases h with
  | ok h => exact .ok h
  | error h => exact .error (hE h)

theorem agree {x : Except ε α} {y : Except ε' β} (h : Matches E R x y) : Agree R x y := by
  cases h with
  | ok h => exact .ok h
  | error => exact .error

end Matches

/-! ## Reading -/

namespace Memory

variable (m : Memory) {p q : Path}

theorem isFile_congr (h : p.components = q.components) : Files.isFile m p = Files.isFile m q := by
  rw [Bool.eq_iff_iff, isFile_iff, isFile_iff, Path.resolved_congr h]

theorem isDir_congr (h : p.components = q.components) : Files.isDir m p = Files.isDir m q := by
  rw [Bool.eq_iff_iff, isDir_iff, isDir_iff, Path.resolved_congr h]

theorem metadata_congr (h : p.components = q.components) :
    Agree Eq (Files.metadata m p) (Files.metadata m q) := by
  simp only [Files.metadata, metadata, get?_eq, Path.resolved_congr h]
  split
  · exact .ok rfl
  · exact .ok rfl
  · exact .error

theorem read_congr (h : p.components = q.components) :
    Agree Eq (Files.read m p) (Files.read m q) := by
  simp only [Files.read, read, get?_eq, Path.resolved_congr h]
  split
  · exact .ok rfl
  · exact .error
  · exact .error

theorem readText_congr (h : p.components = q.components) :
    Agree Eq (Files.readText m p) (Files.readText m q) := by
  have hread := read_congr m h
  rw [Files.readText, Files.readText]
  generalize Files.read m p = x at hread
  generalize Files.read m q = y at hread
  cases hread with
  | ok hb =>
      subst hb
      simp only
      split
      · exact .ok rfl
      · exact .error
  | error => exact .error

end Memory

/-- What a manifest is read from says nothing of the path that it is known by. -/
theorem Manifest.ofJson?_path (p q : Path) (json : Json) :
    ofJson? q json = (ofJson? p json).map fun a => { a with path := q } := by
  cases json with
  | object members =>
      simp only [ofJson?]
      cases textMember "name" members <;> cases textMember "version" members <;> rfl
  | _ => rfl

/-- A manifest is the same but for the path it is known by. -/
theorem Manifest.load_congr (m : Memory) {p q : Path} (h : p.components = q.components) :
    Agree (fun a b => b = { a with path := q }) (Manifest.load m p) (Manifest.load m q) := by
  refine ((m.metadata_congr h).mapError _ _).bind ?_
  rintro a _ rfl
  split
  · exact .error
  · refine ((m.readText_congr h).mapError _ _).bind ?_
    rintro text _ rfl
    cases Json.parse? text with
    | none => exact .error
    | some json =>
        simp only [Option.bind_some, ofJson?_path p q]
        cases ofJson? p json with
        | none => exact .error
        | some a => exact .ok rfl

namespace Resolver

variable (m : Memory) (options : ResolveOptions) {p q : Path}

/-! ## Searching -/

theorem find?_congr {test : Path → Bool}
    (ht : ∀ {p q : Path}, p.components = q.components → test p = test q) {ps qs : List Path}
    (h : ps.map Path.components = qs.map Path.components) :
    (ps.find? test).map Path.components = (qs.find? test).map Path.components := by
  induction ps generalizing qs with
  | nil => rw [List.map_eq_nil_iff.mp h.symm]
  | cons p ps ih =>
      cases qs with
      | nil => exact absurd h (by simp)
      | cons q qs =>
          obtain ⟨hp, hps⟩ := List.cons.inj h
          rw [List.find?_cons, List.find?_cons, ht hp]
          cases test q with
          | true => exact congrArg some hp
          | false => exact ih hps

theorem map_join_congr {ps qs : List Path} (h : ps.map Path.components = qs.map Path.components)
    (r : Path) : (ps.map (·.join r)).map Path.components =
      (qs.map (·.join r)).map Path.components := by
  induction ps generalizing qs with
  | nil => rw [List.map_eq_nil_iff.mp h.symm]
  | cons p ps ih =>
      cases qs with
      | nil => exact absurd h (by simp)
      | cons q qs =>
          obtain ⟨hp, hps⟩ := List.cons.inj h
          simp only [List.map_cons, List.cons.injEq]
          exact ⟨Path.join_congr hp r, ih hps⟩

theorem packageDir?_congr (h : p.components = q.components) (name : String) :
    (packageDir? m p name).map Path.components = (packageDir? m q name).map Path.components := by
  refine find?_congr (m.isDir_congr ·) ?_
  have := map_join_congr (map_join_congr (Path.ancestors_congr h) "node_modules") ⟨name⟩
  simpa only [List.map_map, Function.comp_def] using this

theorem findFile?_join_congr (h : p.components = q.components) (r : Path) :
    (findFile? m options (p.join r)).map Path.components =
      (findFile? m options (q.join r)).map Path.components := by
  refine find?_congr (m.isFile_congr ·) ?_
  rw [fileCandidates, fileCandidates, List.map_cons, List.map_cons, Path.join_congr h,
    List.map_map, List.map_map]
  congr 1
  exact List.map_congr_left fun extension _ => Path.extend_join_congr h r extension

theorem findDeclared?_congr (h : p.components = q.components) :
    findDeclared? m options p = findDeclared? m options q := by
  funext entry
  rw [findDeclared?, findDeclared?, Path.clean_congr (Path.join_congr h ⟨entry⟩)]

theorem map_or_congr {x y y' : Option Path}
    (h : y.map Path.components = y'.map Path.components) :
    (x.or y).map Path.components = (x.or y').map Path.components := by
  cases x with
  | none => simpa using h
  | some a => rfl

theorem findInDir_congr (h : p.components = q.components) :
    Agree (fun x y => x.map Path.components = y.map Path.components)
      (findInDir m options p) (findInDir m options q) := by
  have hindex := findFile?_join_congr m options h "index"
  rw [findInDir, findInDir]
  simp only [m.isFile_congr (Path.join_congr h "package.json")]
  split
  · refine (Manifest.load_congr m (Path.join_congr h "package.json")).bind ?_
    rintro a _ rfl
    rw [findDeclared?_congr m options h]
    exact .ok (map_or_congr hindex)
  · exact .ok (map_or_congr hindex)

theorem findPath_join_congr (h : p.components = q.components) (r : Path) :
    Agree (fun x y => x.map Path.components = y.map Path.components)
      (findPath m options (p.join r)) (findPath m options (q.join r)) := by
  have hfile := findFile?_join_congr m options h r
  rw [findPath, findPath]
  cases hp : findFile? m options (p.join r) with
  | none =>
      rw [hp] at hfile
      rw [Option.map_eq_none_iff.mp hfile.symm]
      simp only [m.isDir_congr (Path.join_congr h r)]
      split
      · exact findInDir_congr m options (Path.join_congr h r)
      · exact .ok rfl
  | some a =>
      rw [hp] at hfile
      obtain ⟨b, hb, -⟩ := Option.map_eq_some_iff.mp hfile.symm
      rw [hb] at hfile ⊢
      exact .ok hfile

end Resolver

/-- Targets that are equal, or whose paths denote the same. -/
inductive Target.Same : Target → Target → Prop where
  | refl (t : Target) : Same t t
  | external {p q : Path} (h : p.components = q.components) : Same (.external p) (.external q)

namespace Target.Same

variable {s t u : Target}

theorem symm (h : s.Same t) : t.Same s := by
  cases h with
  | refl => exact .refl s
  | external h => exact .external h.symm

theorem trans (h : s.Same t) (h' : t.Same u) : s.Same u := by
  cases h with
  | refl => exact h'
  | external h =>
      cases h' with
      | refl => exact .external h
      | external h' => exact .external (h.trans h')

end Target.Same

namespace Resolver

variable (m : Memory) (options : ResolveOptions) {p q : Path}

/-- From roots that denote the same, a search finds what denotes the same. -/
theorem search_congr (h : p.components = q.components) (specifier name : String)
    (subpath : Option String) (template : Bool) :
    Agree Target.Same (search m options p specifier name subpath template)
      (search m options q specifier name subpath template) := by
  have hdir := packageDir?_congr m h name
  rw [search, search]
  cases hp : packageDir? m p name with
  | none =>
      rw [hp] at hdir
      rw [Option.map_eq_none_iff.mp hdir.symm]
      exact .ok (.refl _)
  | some dir =>
      rw [hp] at hdir
      obtain ⟨dir', hdir', hc⟩ := Option.map_eq_some_iff.mp hdir.symm
      rw [hdir']
      simp only
      split
      · exact .ok (.external (Path.join_congr hc.symm _))
      · have hfile : Agree (fun x y => x.map Path.components = y.map Path.components)
            (findLiteral m options dir subpath) (findLiteral m options dir' subpath) := by
          cases subpath with
          | none => exact findInDir_congr m options hc.symm
          | some subpath => exact findPath_join_congr m options hc.symm _
        generalize findLiteral m options dir subpath = x at hfile
        generalize findLiteral m options dir' subpath = y at hfile
        rcases hfile with @⟨x, y, hxy⟩ | -
        · cases x with
          | none =>
              rw [Option.map_eq_none_iff.mp hxy.symm]
              exact .error
          | some file =>
              obtain ⟨file', rfl, hfile⟩ := Option.map_eq_some_iff.mp hxy.symm
              exact .ok (.external hfile.symm)
        · exact .error

/-! ## Versions -/

/-- Whether there is a file, and the version that a manifest declares, depend on what a path
denotes. -/
structure ManifestsByPlace {σ : Type} [Files σ] (files : σ) : Prop where
  isFile : ∀ p q : Path, p.components = q.components → Files.isFile files p = Files.isFile files q
  version : ∀ p q : Path, p.components = q.components →
    Agree (fun a b => a.version = b.version) (Manifest.load files p) (Manifest.load files q)

theorem manifestsByPlace : ManifestsByPlace m where
  isFile _ _ h := m.isFile_congr h
  version p q h := by
    have hload := Manifest.load_congr m h
    generalize Manifest.load m p = x at hload ⊢
    generalize Manifest.load m q = y at hload ⊢
    cases hload with
    | ok hb => exact .ok (by rw [hb])
    | error => exact .error

/-- Then so does the version that belongs to an entry file. -/
theorem ManifestsByPlace.searchVersion {σ : Type} [Files σ] {files : σ}
    (hm : ManifestsByPlace files) (h : p.components = q.components) :
    Agree Eq (searchVersion files p) (searchVersion files q) := by
  have hfound := find?_congr (hm.isFile _ _)
    (map_join_congr (Path.ancestors_congr h) "package.json")
  rw [Resolver.searchVersion, Resolver.searchVersion]
  generalize (p.ancestors.map (·.join "package.json")).find? (Files.isFile files ·) = x at hfound
  generalize (q.ancestors.map (·.join "package.json")).find? (Files.isFile files ·) = y at hfound
  cases x with
  | none =>
      rw [Option.map_eq_none_iff.mp hfound.symm]
      exact .ok rfl
  | some path =>
      obtain ⟨path', rfl, hc⟩ := Option.map_eq_some_iff.mp hfound.symm
      exact (hm.version _ _ hc.symm).map fun a b hab => congrArg (·.getD unknownVersion) hab

theorem searchVersion_congr (h : p.components = q.components) :
    Agree Eq (searchVersion m p) (searchVersion m q) := (manifestsByPlace m).searchVersion h

end Resolver

end VendorBundle
