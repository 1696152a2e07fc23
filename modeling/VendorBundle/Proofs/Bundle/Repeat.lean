import VendorBundle.Proofs.Bundle.Same
import VendorBundle.Proofs.Effect
import VendorBundle.Proofs.Resolver.Learning

/-!
# Making a plan again

A plan depends on the resolver only through its answers. So a plan that was made once is made again
with any resolver whose memory is right, also on another state of the file system, as long as the
imports lead where they led and what was remembered is still right.
-/

namespace VendorBundle

open Effect
open List (Forall₂)

namespace Resolver

variable {ε ε' α β γ δ : Type} {m m' : Memory} {options : ResolveOptions}

/-! ## Learning -/

/-- Whatever a program gives, the resolver only learns from it, and only what is right. -/
def Learns (m : Memory) (options : ResolveOptions) (x : Effect Resolver ε α) : Prop :=
  Keeps (fun r r' => Sound m options r → Sound m options r' ∧ Grows r r') x

theorem Learns.pure (a : α) : Learns m options (pure a : Effect Resolver ε α) :=
  fun r hr => ⟨hr, .refl r⟩

theorem Learns.throw (e : ε) : Learns m options (throw e : Effect Resolver ε α) :=
  fun r hr => ⟨hr, .refl r⟩

theorem Learns.look (f : Resolver → Except ε α) : Learns m options (Files.look f) := by
  intro r hr
  rw [outcome_look]
  exact ⟨hr, .refl r⟩

theorem Learns.bind {x : Effect Resolver ε α} {f : α → Effect Resolver ε β}
    (hx : Learns m options x) (hf : ∀ a, Learns m options (f a)) : Learns m options (x >>= f) :=
  Keeps.bind (fun h h' hr => ⟨(h' (h hr).1).1, (h hr).2.trans (h' (h hr).1).2⟩) hx hf

theorem Learns.foldlM {f : β → α → Effect Resolver ε β} (hf : ∀ b a, Learns m options (f b a))
    (as : List α) (b : β) : Learns m options (as.foldlM f b) := by
  induction as generalizing b with
  | nil => exact .pure b
  | cons a as ih =>
      rw [List.foldlM_cons]
      exact (hf b a).bind ih

/-! ## Repeating -/

/-- When the first program has succeeded, the second one succeeds with a related result on any
state on which all that the first has left in memory is right. -/
def Repeats (m m' : Memory) (options : ResolveOptions) (R : α → β → Prop)
    (x : Effect Resolver ε α) (y : Effect Resolver ε' β) : Prop :=
  ∀ r a r₁ r', Sound m options r → outcome x r = (.ok a, r₁) → Sound m' options r₁ →
    Sound m' options r' → ∃ b r₁', outcome y r' = (.ok b, r₁') ∧ R a b ∧ Sound m' options r₁'

variable {R : α → β → Prop} {S : γ → δ → Prop}

theorem Repeats.pure {a : α} {b : β} (h : R a b) : Repeats m m' options R
    (pure a : Effect Resolver ε α) (pure b : Effect Resolver ε' β) := by
  intro r a' r₁ r' _ hx _ hr'
  obtain ⟨rfl, rfl⟩ : a = a' ∧ r = r₁ := by simpa using hx
  exact ⟨b, r', rfl, h, hr'⟩

theorem Repeats.throw (e : ε) (y : Effect Resolver ε' β) :
    Repeats m m' options R (throw e : Effect Resolver ε α) y := by
  intro r a r₁ r' _ hx
  simp at hx

theorem Repeats.look {x : Except ε α} {y : Except ε' β} (h : Agree R x y) :
    Repeats m m' options R (Files.look fun _ => x : Effect Resolver ε α)
      (Files.look fun _ => y : Effect Resolver ε' β) := by
  intro r a r₁ r' _ hx _ hr'
  rw [outcome_look, Prod.mk.injEq] at hx
  obtain ⟨b, hb, hab⟩ := h.of_ok hx.1
  exact ⟨b, r', by rw [outcome_look, hb], hab, hr'⟩

theorem Repeats.bind {x : Effect Resolver ε α} {y : Effect Resolver ε' β}
    {f : α → Effect Resolver ε γ} {g : β → Effect Resolver ε' δ} (h : Repeats m m' options R x y)
    (hx : Learns m options x) (hf : ∀ a, Learns m options (f a))
    (hfg : ∀ a b, R a b → Repeats m m' options S (f a) (g b)) :
    Repeats m m' options S (x >>= f) (y >>= g) := by
  intro r c r₂ r' hr hxf hr₂ hr'
  obtain ⟨a, r₁, hxo, hfo⟩ := outcome_bind_eq_ok_iff.mp hxf
  have hlearn := hx r
  have hgrow := hf a r₁
  rw [hxo] at hlearn
  rw [hfo] at hgrow
  have hr₁ := (hlearn hr).1
  have hgrow := (hgrow hr₁).2
  obtain ⟨b, r₁', hyo, hab, hr₁'⟩ := h r a r₁ r' hr hxo (hr₂.of_grows hgrow hr₁.uses) hr'
  obtain ⟨d, r₂', hgo, hcd, hr₂'⟩ := hfg a b hab r₁ c r₂ r₁' hr₁ hfo hr₂ hr₁'
  exact ⟨d, r₂', outcome_bind_eq_ok_iff.mpr ⟨b, r₁', hyo, hgo⟩, hcd, hr₂'⟩

theorem Repeats.foldlM {f : γ → α → Effect Resolver ε γ} {g : δ → β → Effect Resolver ε' δ}
    (hf : ∀ c a, Learns m options (f c a))
    (hfg : ∀ c d a b, S c d → R a b → Repeats m m' options S (f c a) (g d b)) {as : List α}
    {bs : List β} (h : Forall₂ R as bs) {c : γ} {d : δ} (hcd : S c d) :
    Repeats m m' options S (as.foldlM f c) (bs.foldlM g d) := by
  induction h generalizing c d with
  | nil => exact .pure hcd
  | cons hab _ ih =>
      rw [List.foldlM_cons, List.foldlM_cons]
      exact (hfg c d _ _ hcd hab).bind (hf c _) (Learns.foldlM hf _) fun _ _ h => ih h

end Resolver

namespace Split

open Resolver (Sound Grows answer Learns Repeats)

variable {α : Type} {m m' : Memory} {options : ResolveOptions}

/-! ## Versions -/

theorem outcome_versionOf {σ : Type} [Files σ] {files : σ} (path : Path) (r : Resolver) :
    outcome (versionOf files path) r =
      ((r.versionOf files path).1.mapError .resolve, (r.versionOf files path).2) := by
  rw [versionOf, outcome_bind_of_ok (outcome_get r)]
  rcases r.versionOf files path with ⟨_ | _, r'⟩ <;> rfl

theorem learns_versionOf (path : Path) : Learns m options (versionOf m path) := by
  intro r hr
  rw [outcome_versionOf]
  exact (hr.versionOf path).2.2

/-- A version that was looked up is remembered, and so has to be right on the other state. -/
theorem repeats_versionOf {p q : Path} (h : p.components = q.components) :
    Repeats m m' options Eq (versionOf m p) (versionOf m' q) := by
  intro r version r₁ r' hr hx hr₁ hr'
  rw [outcome_versionOf, Prod.mk.injEq] at hx
  obtain ⟨hx, rfl⟩ := hx
  obtain ⟨-, hremember, -⟩ := hr.versionOf p
  obtain ⟨hfresh, -, hlearn⟩ := hr'.versionOf q
  have hversion : (r.versionOf m p).1 = .ok version := by
    cases hv : (r.versionOf m p).1 with
    | error e => simp [hv, Except.mapError] at hx
    | ok v => simpa [hv, Except.mapError] using hx
  have hfound := hr₁.version q version (h ▸ hremember version hversion)
  refine ⟨version, (r'.versionOf m' q).2, ?_, rfl, hlearn.1⟩
  rw [outcome_versionOf, (hfresh version).mpr hfound]
  rfl

theorem learns_checkVersions (specifier : String) (first second : String × Path) :
    Learns m options (checkVersions m specifier first second) := by
  refine (learns_versionOf first.2).bind fun a => (learns_versionOf second.2).bind fun b => ?_
  split
  · exact .pure _
  · exact .throw _

theorem repeats_checkVersions {specifier : String} {file file' : String} {p q p' q' : Path}
    (hp : p.components = p'.components) (hq : q.components = q'.components) :
    Repeats m m' options (fun _ _ => True) (checkVersions m specifier (file, p) (file', q))
      (checkVersions m' specifier (file, p') (file', q')) := by
  refine (repeats_versionOf hp).bind (learns_versionOf p) (fun a => ?_) ?_
  · refine (learns_versionOf q).bind fun b => ?_
    split
    · exact .pure _
    · exact .throw _
  · rintro a _ rfl
    refine (repeats_versionOf hq).bind (learns_versionOf q) (fun b => ?_) ?_
    · split
      · exact .pure _
      · exact .throw _
    · rintro b _ rfl
      split
      · exact .pure trivial
      · exact .throw _ _

/-! ## Groups -/

theorem learns_gather (kind : Kind α) (i : α) (entrypoint : Path) (gs : List (ImportGroup α)) :
    Learns m options (gather m kind i entrypoint gs) := by
  induction gs with
  | nil => exact .pure _
  | cons g gs ih =>
      rw [gather]
      split
      · split
        · exact (learns_checkVersions _ _ _).bind fun _ => .pure _
        · exact .pure _
      · exact ih.bind fun _ => .pure _

theorem repeats_gather (kind : Kind α) (i : α) {p q : Path} (h : p.components = q.components)
    {gs hs : List (ImportGroup α)} (hg : Forall₂ ImportGroup.Same gs hs) :
    Repeats m m' options (Forall₂ ImportGroup.Same) (gather m kind i p gs)
      (gather m' kind i q hs) := by
  induction hg with
  | nil => exact .pure (.cons ⟨rfl, Path.same_iff.mpr h, rfl, rfl⟩ .nil)
  | @cons g g' gs hs hsame hrest ih =>
      have hentry := Path.same_iff.mp hsame.entrypoint
      have hdiffer : g'.entrypoint.same q = g.entrypoint.same p := by
        rw [Path.same, Path.same, hentry, h]
      rw [gather, gather, ← hsame.key, hdiffer, ← hsame.first]
      split
      · split
        · exact (repeats_checkVersions hentry h).bind (learns_checkVersions _ _ _)
            (fun _ => .pure _) fun _ _ _ => .pure (.cons (hsame.add i) hrest)
        · exact .pure (.cons (hsame.add i) hrest)
      · exact ih.bind (learns_gather kind i p gs) (fun _ => .pure _)
          fun _ _ h => .pure (.cons hsame h)

/-- What a kind of imports makes of a target depends on what the target denotes. -/
def Kind.Respects (kind : Kind α) : Prop := ∀ i t t', t.Same t' →
  Agree (fun a b => a.map Path.components = b.map Path.components) (kind.entry? i t)
    (kind.entry? i t')

theorem respects_literals : literals.Respects := by
  intro i t t' h
  cases h with
  | refl => exact .refl fun _ => rfl
  | external h => exact .ok (congrArg some h)

theorem respects_templates : templates.Respects := by
  intro i t t' h
  cases h with
  | refl => exact .refl fun _ => rfl
  | external h => exact .ok (congrArg some h)

theorem learns_take (kind : Kind α) (gs : List (ImportGroup α)) (a : Resolved α) :
    Learns m options (take m kind gs a) := by
  rw [take]
  split
  · exact .throw _
  · split
    · exact .throw _
    · exact .pure _
    · exact learns_gather _ _ _ _

/-- Outcomes of resolving one import that lead to the same place. -/
structure Resolved.Same (a b : Resolved α) : Prop where
  i : a.i = b.i
  target : Agree Target.Same a.target b.target

theorem repeats_take {kind : Kind α} (hk : kind.Respects) {gs hs : List (ImportGroup α)}
    (hg : Forall₂ ImportGroup.Same gs hs) {a b : Resolved α} (h : a.Same b) :
    Repeats m m' options (Forall₂ ImportGroup.Same) (take m kind gs a) (take m' kind hs b) := by
  obtain ⟨i, target⟩ := a
  obtain ⟨i', target'⟩ := b
  obtain ⟨rfl, ht⟩ := h
  cases ht with
  | error => exact .throw _ _
  | @ok t t' ht =>
      have hentry := hk i t t' ht
      simp only [take]
      generalize kind.entry? i t = x at hentry
      generalize kind.entry? i t' = y at hentry
      cases hentry with
      | error => exact .throw _ _
      | @ok x y hxy =>
          cases x with
          | none =>
              rw [Option.map_eq_none_iff.mp hxy.symm]
              exact .pure hg
          | some p =>
              obtain ⟨q, rfl, hq⟩ := Option.map_eq_some_iff.mp hxy.symm
              exact repeats_gather kind i hq.symm hg

/-! ## Resolving all imports -/

section

variable (kind : Kind α) (specifier : α → String) (template : Bool)

/-- Where an import leads for a resolver that knows nothing yet. -/
def answerTo (m : Memory) (options : ResolveOptions) (i : α) : Except ResolveError Target :=
  answer m options (kind.site i).package.root
    ((kind.site i).package.replaceAlias (specifier i)) template

theorem forall₂_of_common {ι β γ : Type} {P : ι → β → Prop} {Q : ι → γ → Prop}
    {R : β → γ → Prop} {is : List ι} {bs : List β} {cs : List γ} (h : Forall₂ P is bs)
    (h' : Forall₂ Q is cs) (hR : ∀ i ∈ is, ∀ b c, P i b → Q i c → R b c) : Forall₂ R bs cs := by
  induction h generalizing cs with
  | nil =>
      cases h'
      exact .nil
  | cons hp _ ih =>
      cases h' with
      | cons hq h' =>
          exact .cons (hR _ List.mem_cons_self _ _ hp hq)
            (ih h' fun i hi => hR i (List.mem_cons_of_mem _ hi))

/-- With a memory that is right, every import is resolved to its answer. -/
theorem resolveAll_spec (imports : List α) {r : Resolver} (hr : Sound m options r) :
    Forall₂ (fun i a => a.i = i ∧
        Agree Target.Same a.target (answerTo kind specifier template m options i)) imports
      (resolveAll m (fun i => (kind.site i).package) specifier template imports r).1 ∧
    Sound m options
      (resolveAll m (fun i => (kind.site i).package) specifier template imports r).2 ∧
    Grows r (resolveAll m (fun i => (kind.site i).package) specifier template imports r).2 := by
  induction imports generalizing r with
  | nil => exact ⟨.nil, hr, .refl r⟩
  | cons i imports ih =>
      obtain ⟨ha, hs, hg⟩ := hr.resolve (kind.site i).package.root
        ((kind.site i).package.replaceAlias (specifier i)) template
      obtain ⟨hall, hs', hg'⟩ := ih hs
      exact ⟨.cons ⟨rfl, ha⟩ hall, hs', hg.trans hg'⟩

theorem outcome_group {σ : Type} [Files σ] (files : σ) (imports : List α) (r : Resolver) :
    outcome (group files kind specifier template imports) r =
      outcome
        ((resolveAll files (fun i => (kind.site i).package) specifier template imports r).1.foldlM
          (take files kind) [])
        (resolveAll files (fun i => (kind.site i).package) specifier template imports r).2 := by
  rw [group, outcome_bind_of_ok (outcome_get r)]
  exact outcome_bind_of_ok (outcome_set _ _) _

theorem learns_group (imports : List α) :
    Learns m options (group m kind specifier template imports) := by
  intro r hr
  obtain ⟨-, hs, hg⟩ := resolveAll_spec kind specifier template imports hr
  rw [outcome_group]
  obtain ⟨hs', hg'⟩ := Learns.foldlM (learns_take kind) _ _ _ hs
  exact ⟨hs', hg.trans hg'⟩

theorem repeats_group (hk : kind.Respects) {imports : List α}
    (h : ∀ i ∈ imports, answerTo kind specifier template m' options i =
      answerTo kind specifier template m options i) :
    Repeats m m' options (Forall₂ ImportGroup.Same) (group m kind specifier template imports)
      (group m' kind specifier template imports) := by
  intro r gs r₁ r' hr hx hr₁ hr'
  obtain ⟨hall, hs, -⟩ := resolveAll_spec kind specifier template imports hr
  obtain ⟨hall', hs', -⟩ := resolveAll_spec kind specifier template imports hr'
  rw [outcome_group] at hx ⊢
  have hsame := forall₂_of_common (R := Resolved.Same) hall hall' fun i hi a b ha hb =>
    ⟨ha.1.trans hb.1.symm,
      ha.2.join (fun h h' => h.trans h'.symm) (h i hi ▸ hb.2)⟩
  exact Repeats.foldlM (R := Resolved.Same) (learns_take kind)
    (fun _ _ _ _ hg hab => repeats_take hk hg hab) hsame .nil _ _ _ _ hs hx hr₁ hs'

end

/-! ## Plans -/

/-- No package leaves the import alone. -/
def isIncluded : Import → Bool
  | .literal i => !i.site.package.excludes i.specifier
  | .template i => !i.site.package.excludes i.leadingText

/-- Where an import leads for a resolver that knows nothing yet. -/
def importAnswer (m : Memory) (options : ResolveOptions) : Import → Except ResolveError Target
  | .literal i => answerTo literals (·.specifier) false m options i
  | .template i => answerTo templates TemplateImport.leadingText true m options i

theorem mem_includedLiterals {imports : List Import} {i : LiteralImport} :
    i ∈ includedLiterals imports ↔ .literal i ∈ imports ∧ isIncluded (.literal i) := by
  constructor
  · intro h
    obtain ⟨i', hm, hi⟩ := List.mem_filterMap.mp h
    cases i' with
    | literal j =>
        simp only [Option.ite_none_left_eq_some, Option.some.injEq] at hi
        obtain ⟨hx, rfl⟩ := hi
        exact ⟨hm, by simpa [isIncluded] using hx⟩
    | template j => exact absurd hi nofun
  · rintro ⟨hm, hi⟩
    rw [isIncluded, Bool.not_eq_true'] at hi
    exact List.mem_filterMap.mpr ⟨.literal i, hm, by simp [hi]⟩

theorem mem_includedTemplates {imports : List Import} {i : TemplateImport} :
    i ∈ includedTemplates imports ↔ .template i ∈ imports ∧ isIncluded (.template i) := by
  constructor
  · intro h
    obtain ⟨i', hm, hi⟩ := List.mem_filterMap.mp h
    cases i' with
    | literal j => exact absurd hi nofun
    | template j =>
        simp only [Option.ite_none_left_eq_some, Option.some.injEq] at hi
        obtain ⟨hx, rfl⟩ := hi
        exact ⟨hm, by simpa [isIncluded] using hx⟩
  · rintro ⟨hm, hi⟩
    rw [isIncluded, Bool.not_eq_true'] at hi
    exact List.mem_filterMap.mpr ⟨.template i, hm, by simp [hi]⟩

theorem outcome_plan_of_groups {σ : Type} [Files σ] {files : σ} {policy : BundlePolicy}
    {imports : List Import} {r r₁ r₂ : Resolver} {ls : List (ImportGroup LiteralImport)}
    {ts : List (ImportGroup TemplateImport)}
    (hl : outcome (group files literals (·.specifier) false (includedLiterals imports)) r =
      (.ok ls, r₁))
    (ht : outcome (group files templates TemplateImport.leadingText true
      (includedTemplates imports)) r₁ = (.ok ts, r₂)) :
    outcome (plan files policy imports) r = (assignAll policy ls ts, r₂) := by
  rw [plan, outcome_bind_of_ok hl, outcome_bind_of_ok ht, outcome_look]

/-- The imports of both sorts are gathered, and then their groups are put into bundles. -/
theorem plan_eq_bind {σ : Type} [Files σ] (files : σ) (policy : BundlePolicy)
    (imports : List Import) (r : Resolver) :
    (outcome (plan files policy imports) r).1 =
      (outcome (group files literals (·.specifier) false (includedLiterals imports)) r).1 >>=
        fun ls => (outcome (group files templates TemplateImport.leadingText true
            (includedTemplates imports)) (outcome (group files literals (·.specifier) false
              (includedLiterals imports)) r).2).1 >>=
          fun ts => assignAll policy ls ts := by
  generalize hl : outcome (group files literals (·.specifier) false (includedLiterals imports)) r =
    found
  obtain ⟨result, r₁⟩ := found
  cases result with
  | error e =>
      rw [plan, outcome_bind_of_error hl]
      rfl
  | ok ls =>
      generalize ht : outcome (group files templates TemplateImport.leadingText true
        (includedTemplates imports)) r₁ = found
      obtain ⟨result, r₂⟩ := found
      cases result with
      | error e =>
          rw [plan, outcome_bind_of_ok hl, outcome_bind_of_error ht]
          rfl
      | ok ts =>
          rw [outcome_plan_of_groups hl ht]
          rfl

theorem learns_plan (policy : BundlePolicy) (imports : List Import) :
    Learns m options (plan m policy imports) :=
  (learns_group _ _ _ _).bind fun _ => (learns_group _ _ _ _).bind fun _ => .look _

/-- A plan that was made once is made again, up to the way its paths are written, where the imports
lead to what they led to. -/
theorem repeats_plan (policy : BundlePolicy) {imports : List Import}
    (h : ∀ i ∈ imports, isIncluded i → importAnswer m' options i = importAnswer m options i) :
    Repeats m m' options BundlePlan.Same (plan m policy imports) (plan m' policy imports) := by
  have hl : ∀ i ∈ includedLiterals imports, answerTo literals (·.specifier) false m' options i =
      answerTo literals (·.specifier) false m options i := fun i hi =>
    h _ (mem_includedLiterals.mp hi).1 (mem_includedLiterals.mp hi).2
  have ht : ∀ i ∈ includedTemplates imports,
      answerTo templates TemplateImport.leadingText true m' options i =
        answerTo templates TemplateImport.leadingText true m options i := fun i hi =>
    h _ (mem_includedTemplates.mp hi).1 (mem_includedTemplates.mp hi).2
  refine (repeats_group _ _ _ respects_literals hl).bind (learns_group _ _ _ _)
    (fun _ => (learns_group _ _ _ _).bind fun _ => .look _) fun ls ls' hls => ?_
  refine (repeats_group _ _ _ respects_templates ht).bind (learns_group _ _ _ _)
    (fun _ => .look _) fun ts ts' hts => ?_
  exact .look (matches_assignAll policy hls hts).agree

end Split

end VendorBundle
