import VendorBundle.Proofs.Bundle.Gather
import VendorBundle.Proofs.Bundle.Repeat
import VendorBundle.Proofs.Resolver.Answers

/-!
# Gathering by what a resolver tells

Gathering imports asks the resolver for versions only. On files that stay the versions do not depend
on which were asked for before, and so what comes of gathering is a function of the versions that
the resolver tells in the beginning.
-/

namespace VendorBundle

open Effect
open List (Forall₂)
open Resolver (VersionsByPlace VersionsMatch)

/-- Entry files whose paths denote the same, found for imports of one file. -/
structure Sighting.Same (a b : Sighting) : Prop where
  file : a.file = b.file
  entrypoint : a.entrypoint.components = b.entrypoint.components
  version : a.version = b.version

/-- Errors that are equal, or tell of the same at paths that denote the same. -/
inductive SplitError.Same : SplitError → SplitError → Prop where
  | refl (e : SplitError) : Same e e
  | versionConflict (specifier : String) {a a' b b' : Sighting} (ha : a.Same a') (hb : b.Same b') :
      Same (.versionConflict specifier a b) (.versionConflict specifier a' b')
  | resolve {e e' : ResolveError} (h : e.Same e') : Same (.resolve e) (.resolve e')

namespace Split

variable {α : Type}

/-- What is asked for an import. -/
def ask (kind : Kind α) (specifier : α → String) (template : Bool) (i : α) : Resolver.Question :=
  ⟨(kind.site i).package.root, (kind.site i).package.replaceAlias (specifier i), template⟩

/-! ## Gathering by versions -/

/-- Compares two entry files by the versions that are told. -/
def checkVersionsBy (version : Path → Except ResolveError String) (specifier : String)
    (first second : String × Path) : Except SplitError Unit := do
  let a ← (version first.2).mapError .resolve
  let b ← (version second.2).mapError .resolve
  if a = b then pure ()
  else throw (.versionConflict specifier ⟨first.1, first.2, a⟩ ⟨second.1, second.2, b⟩)

/-- Adds an import to the group of its key, or opens one. -/
def gatherBy (version : Path → Except ResolveError String) (kind : Kind α) (i : α)
    (entrypoint : Path) : List (ImportGroup α) → Except SplitError (List (ImportGroup α))
  | [] => pure [{ key := kind.key i, entrypoint, first := i }]
  | g :: rest => do
      if g.key = kind.key i then
        if !g.entrypoint.same entrypoint then
          checkVersionsBy version g.key ((kind.site g.first).file, g.entrypoint)
            ((kind.site i).file, entrypoint)
        pure (g.add i :: rest)
      else pure (g :: (← gatherBy version kind i entrypoint rest))

/-- Takes one resolved import into the groups. -/
def takeBy (version : Path → Except ResolveError String) (kind : Kind α)
    (groups : List (ImportGroup α)) (a : Resolved α) :
    Except SplitError (List (ImportGroup α)) := do
  match a.target with
  | .error e => throw (.resolve e)
  | .ok target =>
      match kind.entry? a.i target with
      | .error e => throw e
      | .ok none => pure groups
      | .ok (some entrypoint) => gatherBy version kind a.i entrypoint groups

/-! ## What effects come to -/

section

variable {σ ε β γ : Type} [Files σ] {files : σ}

/-- What the effect comes to is a function of the versions that the resolver tells, and it leaves
the resolver with the same answers. -/
def Told (files : σ) (x : Effect Resolver ε β)
    (f : (Path → Except ResolveError String) → Except ε β) : Prop :=
  ∀ r, (outcome x r).1 = f (r.tells files) ∧ (outcome x r).2.tells files = r.tells files ∧
    (outcome x r).2.targets = r.targets ∧ (outcome x r).2.options = r.options

theorem Told.echoes {x : Effect Resolver ε β}
    {f : (Path → Except ResolveError String) → Except ε β} (h : Told files x f) (r : Resolver) :
    Resolver.Echoes files r (outcome x r).2 := by
  obtain ⟨-, htells, htargets, hoptions⟩ := h r
  refine ⟨hoptions, fun q => ?_, htells⟩
  rw [Resolver.gives_of_targets hoptions htargets]
  exact .refl (fun _ => rfl) .refl _

theorem Told.pure (b : β) :
    Told files (pure b : Effect Resolver ε β) fun _ => .ok b := fun _ => ⟨rfl, rfl, rfl, rfl⟩

theorem Told.throw (e : ε) :
    Told files (throw e : Effect Resolver ε β) fun _ => .error e := fun _ => ⟨rfl, rfl, rfl, rfl⟩

theorem Told.bind {x : Effect Resolver ε β} {g : β → Effect Resolver ε γ}
    {f : (Path → Except ResolveError String) → Except ε β}
    {h : β → (Path → Except ResolveError String) → Except ε γ} (hx : Told files x f)
    (hg : ∀ b, Told files (g b) (h b)) :
    Told files (x >>= g) fun version => f version >>= fun b => h b version := by
  intro r
  obtain ⟨hresult, htells, htargets, hoptions⟩ := hx r
  rw [outcome_bind]
  generalize outcome x r = found at hresult htells htargets hoptions
  obtain ⟨result, r'⟩ := found
  simp only at hresult htells htargets hoptions ⊢
  rw [← hresult]
  cases result with
  | error e => exact ⟨rfl, htells, htargets, hoptions⟩
  | ok b =>
      obtain ⟨hresult', htells', htargets', hoptions'⟩ := hg b r'
      rw [htells] at hresult' htells'
      exact ⟨hresult', htells', htargets'.trans htargets, hoptions'.trans hoptions⟩

theorem Told.foldlM {f : γ → β → Effect Resolver ε γ}
    {g : (Path → Except ResolveError String) → γ → β → Except ε γ}
    (h : ∀ c b, Told files (f c b) fun version => g version c b) (bs : List β) (c : γ) :
    Told files (bs.foldlM f c) fun version => bs.foldlM (g version) c := by
  induction bs generalizing c with
  | nil => exact .pure c
  | cons b bs ih =>
      simp only [List.foldlM_cons]
      exact (h c b).bind fun c => ih c

end

section

variable {σ : Type} [Files σ] {files : σ} (hv : VersionsByPlace files)

include hv

theorem told_versionOf (path : Path) :
    Told files (versionOf files path) fun version => (version path).mapError .resolve := by
  intro r
  have hechoes := Resolver.echoes_versionOf hv r path
  rw [outcome_versionOf]
  exact ⟨rfl, hechoes.tells, Resolver.targets_versionOf .., hechoes.options⟩

theorem told_checkVersions (specifier : String) (first second : String × Path) :
    Told files (checkVersions files specifier first second) fun version =>
      checkVersionsBy version specifier first second := by
  refine (told_versionOf hv first.2).bind fun a => (told_versionOf hv second.2).bind fun b => ?_
  split
  · exact .pure _
  · exact .throw _

theorem told_gather (kind : Kind α) (i : α) (entrypoint : Path) (gs : List (ImportGroup α)) :
    Told files (gather files kind i entrypoint gs) fun version =>
      gatherBy version kind i entrypoint gs := by
  induction gs with
  | nil => exact .pure _
  | cons g gs ih =>
      simp only [gather, gatherBy]
      split
      · split
        · exact (told_checkVersions hv _ _ _).bind fun _ => .pure _
        · exact .pure _
      · exact ih.bind fun _ => .pure _

theorem told_take (kind : Kind α) (gs : List (ImportGroup α)) (a : Resolved α) :
    Told files (take files kind gs a) fun version => takeBy version kind gs a := by
  obtain ⟨i, target⟩ := a
  cases target with
  | error e => exact .throw _
  | ok target =>
      simp only [take, takeBy]
      cases kind.entry? i target with
      | error e => exact .throw e
      | ok entry? =>
          cases entry? with
          | none => exact .pure gs
          | some entrypoint => exact told_gather hv kind i entrypoint gs

/-- What comes of taking resolved imports up is a function of the versions that are told. -/
theorem told_foldlM (kind : Kind α) (as : List (Resolved α)) (gs : List (ImportGroup α)) :
    Told files (as.foldlM (take files kind) gs) fun version =>
      as.foldlM (takeBy version kind) gs :=
  Told.foldlM (told_take hv kind) as gs

end

/-! ## Groups that match -/

section

variable {version version' : Path → Except ResolveError String}
  (hv : ∀ p q, p.components = q.components →
    Matches ResolveError.Same Eq (version p) (version' q)) {p p' q q' : Path}

include hv

theorem matches_checkVersionsBy (specifier : String) {file file' : String}
    (hp : p.components = p'.components) (hq : q.components = q'.components) :
    Matches SplitError.Same Eq (checkVersionsBy version specifier (file, p) (file', q))
      (checkVersionsBy version' specifier (file, p') (file', q')) := by
  refine ((hv p p' hp).mapError fun _ _ h => .resolve h).bind ?_
  rintro a _ rfl
  refine ((hv q q' hq).mapError fun _ _ h => .resolve h).bind ?_
  rintro b _ rfl
  split
  · exact .ok rfl
  · exact .error (.versionConflict specifier ⟨rfl, hp, rfl⟩ ⟨rfl, hq, rfl⟩)

theorem matches_gatherBy (kind : Kind α) (i : α) (h : p.components = q.components)
    {gs hs : List (ImportGroup α)} (hg : Forall₂ ImportGroup.Same gs hs) :
    Matches SplitError.Same (Forall₂ ImportGroup.Same) (gatherBy version kind i p gs)
      (gatherBy version' kind i q hs) := by
  induction hg with
  | nil => exact .ok (.cons ⟨rfl, Path.same_iff.mpr h, rfl, rfl⟩ .nil)
  | @cons g g' gs hs hsame hrest ih =>
      have hentry := Path.same_iff.mp hsame.entrypoint
      have hdiffer : g'.entrypoint.same q = g.entrypoint.same p := by
        rw [Path.same, Path.same, hentry, h]
      rw [gatherBy, gatherBy, ← hsame.key, hdiffer, ← hsame.first]
      split
      · split
        · exact (matches_checkVersionsBy hv g.key hentry h).bind
            fun _ _ _ => .ok (.cons (hsame.add i) hrest)
        · exact .ok (.cons (hsame.add i) hrest)
      · exact ih.bind fun _ _ h => .ok (.cons hsame h)

theorem matches_takeBy {kind : Kind α} (hk : kind.TakesExternal) {gs hs : List (ImportGroup α)}
    (hg : Forall₂ ImportGroup.Same gs hs) {i : α} {x y : Except ResolveError Target}
    (h : Matches Eq Target.Same x y) :
    Matches SplitError.Same (Forall₂ ImportGroup.Same) (takeBy version kind gs ⟨i, x⟩)
      (takeBy version' kind hs ⟨i, y⟩) := by
  cases h with
  | error h =>
      subst h
      exact .error (.refl _)
  | @ok target target' h =>
      cases h with
      | refl =>
          simp only [takeBy]
          cases kind.entry? i target with
          | error e => exact .error (.refl e)
          | ok entry? =>
              cases entry? with
              | none => exact .ok hg
              | some entrypoint => exact matches_gatherBy hv kind i rfl hg
      | @external p q h =>
          simp only [takeBy, (hk i _ p).mpr rfl, (hk i _ q).mpr rfl]
          exact matches_gatherBy hv kind i h hg

end

end Split

end VendorBundle
