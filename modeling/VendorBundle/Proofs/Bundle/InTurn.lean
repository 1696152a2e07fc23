import VendorBundle.Proofs.Bundle.Told
import VendorBundle.Proofs.Resolver.Schedule

/-!
# Folding what tasks have resolved

A fold over imports waits until tasks have resolved all of them, and then takes them up in the order
of discovery. Whatever the schedule of the tasks, it comes to the groups, or to the error, that come
of resolving one import after the other and taking each up at once.
-/

namespace VendorBundle

open Effect Relation
open List (Forall₂)
open Resolver (Answered AnswersByPlace Echoes Grows Learnt Question VersionsMatch)

namespace Split

variable {α : Type}

/-! ## Taking each import up at once -/

section

variable {σ : Type} [Files σ] {files : σ} {kind : Kind α} {specifier : α → String}
  {template : Bool} {r r₀ : Resolver}

/-- Resolves an import and takes it into the groups. -/
def resolveAndTake (files : σ) (kind : Kind α) (specifier : α → String) (template : Bool)
    (groups : List (ImportGroup α)) (i : α) :
    Effect Resolver SplitError (List (ImportGroup α)) := do
  let (target, r) := (kind.site i).package.resolve (← get) files (specifier i) template
  set r
  take files kind groups ⟨i, target⟩

/-- The groups of some imports, where each is taken up before the next one is resolved. -/
def inTurn (files : σ) (kind : Kind α) (specifier : α → String) (template : Bool)
    (imports : List α) : Effect Resolver SplitError (List (ImportGroup α)) :=
  imports.foldlM (resolveAndTake files kind specifier template) []

theorem outcome_resolveAndTake (groups : List (ImportGroup α)) (i : α) :
    outcome (resolveAndTake files kind specifier template groups i) r =
      outcome (take files kind groups ⟨i, r.gives files (ask kind specifier template i)⟩)
        (r.resolve files (ask kind specifier template i).root
          (ask kind specifier template i).specifier template).2 := by
  rw [resolveAndTake, outcome_bind_of_ok (outcome_get r)]
  exact outcome_bind_of_ok (outcome_set _ _) _

/-- Resolved imports are folded into what comes of taking up one import after the other. -/
theorem matches_inTurn (ha : AnswersByPlace files r₀.options) (hv : VersionsMatch files)
    (hk : kind.TakesExternal) {imports : List α} {as : List (Resolved α)}
    (h : Forall₂ (fun i (a : Resolved α) => a.i = i ∧ Matches Eq Target.Same a.target
      (r₀.gives files (ask kind specifier template i))) imports as)
    {gs hs : List (ImportGroup α)} (hg : Forall₂ ImportGroup.Same gs hs)
    (hr : Echoes files r₀ r) :
    Matches SplitError.Same (Forall₂ ImportGroup.Same)
        (as.foldlM (takeBy (r₀.tells files) kind) gs)
        (outcome (imports.foldlM (resolveAndTake files kind specifier template) hs) r).1 ∧
      Echoes files r₀
        (outcome (imports.foldlM (resolveAndTake files kind specifier template) hs) r).2 := by
  induction h generalizing gs hs r with
  | nil => exact ⟨.ok hg, hr⟩
  | @cons i a imports as ha' _ ih =>
      obtain ⟨i, target⟩ := a
      obtain ⟨rfl, htarget⟩ := ha'
      have htarget' : Matches Eq Target.Same target
          (r.gives files (ask kind specifier template i)) :=
        htarget.trans (fun h h' => h.trans h') (fun h h' => h.trans h')
          ((hr.gives _).symm Eq.symm Target.Same.symm)
      have hresolved : Echoes files r₀ (r.resolve files (ask kind specifier template i).root
          (ask kind specifier template i).specifier template).2 :=
        hr.trans (Resolver.echoes_resolve (hr.options ▸ ha) (ask kind specifier template i))
      have htold := told_take hv.byPlace kind hs
        ⟨i, r.gives files (ask kind specifier template i)⟩
      have htaken := hresolved.trans (htold.echoes _)
      have hstep : Matches SplitError.Same (Forall₂ ImportGroup.Same)
          (takeBy (r₀.tells files) kind gs ⟨i, target⟩)
          (outcome (take files kind hs ⟨i, r.gives files (ask kind specifier template i)⟩)
            (r.resolve files (ask kind specifier template i).root
              (ask kind specifier template i).specifier template).2).1 := by
        rw [(htold _).1, hresolved.tells]
        exact matches_takeBy (Resolver.matches_tells hv r₀) hk hg htarget'
      rw [List.foldlM_cons, List.foldlM_cons, outcome_bind, outcome_resolveAndTake]
      generalize outcome (take files kind hs _) _ = found at hstep htaken
      obtain ⟨result, r'⟩ := found
      generalize takeBy (r₀.tells files) kind gs ⟨i, target⟩ = first at hstep
      cases hstep with
      | error he => exact ⟨.error he, htaken⟩
      | ok hgs => exact ih hgs htaken

/-! ## Whatever the schedule -/

/-- Asked for one import after the other, a resolver gives what it gave in the beginning. -/
theorem answered_resolveAll (ha : AnswersByPlace files r₀.options) (kind : Kind α)
    (specifier : α → String) (template : Bool) {qs : List Question} {imports : List α}
    (hqs : ∀ i ∈ imports, ask kind specifier template i ∈ qs) (h : Learnt files r₀ qs r) :
    Learnt files r₀ qs
        (resolveAll files (fun i => (kind.site i).package) specifier template imports r).2 ∧
      Grows r (resolveAll files (fun i => (kind.site i).package) specifier template imports r).2 ∧
      Forall₂ (fun i (a : Resolved α) => a.i = i ∧ Answered files r₀
          (resolveAll files (fun i => (kind.site i).package) specifier template imports r).2
          (ask kind specifier template i) a.target) imports
        (resolveAll files (fun i => (kind.site i).package) specifier template imports r).1 := by
  induction imports generalizing r with
  | nil => exact ⟨h, .refl r, .nil⟩
  | cons i imports ih =>
      obtain ⟨hi, himports⟩ := List.forall_mem_cons.mp hqs
      obtain ⟨hl, hanswered, hg⟩ := h.resolve ha hi
      obtain ⟨hl', hg', hrest⟩ := ih himports hl
      exact ⟨hl', hg.trans hg', .cons ⟨rfl, hanswered.grows hg'⟩ hrest⟩

theorem exists_answered {imports : List α} {as : List (Resolved α)}
    (h : Forall₂ (fun i (a : Resolved α) => a.i = i ∧
      Answered files r₀ r (ask kind specifier template i) a.target) imports as) :
    ∀ q ∈ imports.map (ask kind specifier template), ∃ result, Answered files r₀ r q result := by
  induction h with
  | nil => exact nofun
  | cons hia _ ih => exact List.forall_mem_cons.mpr ⟨⟨_, hia.2⟩, ih⟩

variable {limit : Nat} {imports : List α} {s : Schedule α}

/-- What tasks for the imports can come to, when they share a resolver. -/
def Reached (files : σ) (kind : Kind α) (specifier : α → String) (template : Bool) (limit : Nat)
    (imports : List α) (r : Resolver) (s : Schedule α) : Prop :=
  ReflTransGen (Schedule.Step files (ask kind specifier template) limit)
    (Schedule.start imports r) s

/-- What comes of folding the results of a schedule. -/
def fold (files : σ) (kind : Kind α) (s : Schedule α) :
    Except SplitError (List (ImportGroup α)) × Resolver :=
  outcome (s.results.foldlM (take files kind) []) s.resolver

/-- Whatever the schedule of the tasks, all of them come to their end. They leave the results, in
the order of the imports, and the memory that are left when one import is resolved after the other.
Folding them comes to what comes of taking up one import after the other with the second
resolver. -/
structure Concurs (files : σ) (kind : Kind α) (specifier : α → String) (template : Bool)
    (limit : Nat) (imports : List α) (r r' : Resolver) : Prop where
  ends : WellFounded (flip (Schedule.Step files (ask kind specifier template) limit))
  goesOn : ∀ s, Reached files kind specifier template limit imports r s →
    s.running ≤ max limit 1 ∧
      (s.Finished ∨ ∃ s', Schedule.Step files (ask kind specifier template) limit s s')
  results : ∀ s, Reached files kind specifier template limit imports r s → s.Finished →
    Forall₂ (fun a b => a.i = b.i ∧ Matches Eq Target.Same a.target b.target) s.results
      (resolveAll files (fun i => (kind.site i).package) specifier template imports r).1
  memory : ∀ s, Reached files kind specifier template limit imports r s → s.Finished →
    Resolver.Same s.resolver
      (resolveAll files (fun i => (kind.site i).package) specifier template imports r).2
  folded : ∀ s, Reached files kind specifier template limit imports r s → s.Finished →
    Matches SplitError.Same (Forall₂ ImportGroup.Same) (fold files kind s).1
      (outcome (inTurn files kind specifier template imports) r').1

section

variable (ha : AnswersByPlace files r.options)
  (hs : Reached files kind specifier template limit imports r s) (hf : s.Finished)

include ha hs

theorem Reached.sound :
    Schedule.Sound files (ask kind specifier template) limit r imports s :=
  (Schedule.sound_start files (ask kind specifier template) limit r imports).steps ha hs

include hf

theorem Reached.results_eq :
    Forall₂ (fun a b => a.i = b.i ∧ Matches Eq Target.Same a.target b.target) s.results
        (resolveAll files (fun i => (kind.site i).package) specifier template imports r).1 ∧
      Resolver.Same s.resolver
        (resolveAll files (fun i => (kind.site i).package) specifier template imports r).2 := by
  have hresults := (hs.sound ha).results hf
  obtain ⟨hlearnt, -, hanswered⟩ := answered_resolveAll ha kind specifier template
    (fun i hi => List.mem_map_of_mem hi) (.refl files r (imports.map _))
  constructor
  · refine forall₂_of_common hresults hanswered fun i _ a b ha hb => ⟨ha.1.trans hb.1.symm, ?_⟩
    exact ha.2.result.trans (fun h h' => h.trans h') (fun h h' => h.trans h')
      (hb.2.result.symm Eq.symm Target.Same.symm)
  · exact (hs.sound ha).learnt.same ha hlearnt (exists_answered hresults)
      (exists_answered hanswered)

/-- Folding the results of a schedule comes to what comes of taking up one import after the other
with a resolver of the same answers. -/
theorem Reached.matches_fold (hv : VersionsMatch files) (hk : kind.TakesExternal) {r' : Resolver}
    (hr : Echoes files r r') :
    Matches SplitError.Same (Forall₂ ImportGroup.Same) (fold files kind s).1
        (outcome (inTurn files kind specifier template imports) r').1 ∧
      Echoes files r (fold files kind s).2 ∧
      Echoes files r (outcome (inTurn files kind specifier template imports) r').2 := by
  have hsound := hs.sound ha
  have hresults := hsound.results hf
  have htold := told_foldlM hv.byPlace kind s.results []
  have hresolver : Echoes files r s.resolver := hsound.learnt.echoes ha
  obtain ⟨hmatches, hechoes⟩ := matches_inTurn ha hv hk
    (hresults.imp fun i a hia => ⟨hia.1, hia.2.result⟩) .nil hr
  refine ⟨?_, hresolver.trans (htold.echoes _), hechoes⟩
  rw [fold, (htold _).1, hresolver.tells]
  exact hmatches

end

theorem concurs (ha : AnswersByPlace files r.options) (hv : VersionsMatch files)
    (hk : kind.TakesExternal) (specifier : α → String) (template : Bool) (limit : Nat)
    (imports : List α) {r' : Resolver} (hr : Echoes files r r') :
    Concurs files kind specifier template limit imports r r' where
  ends := Schedule.wellFounded_step files _ limit
  goesOn _ hs := ⟨(hs.sound ha).permits, or_iff_not_imp_left.mpr (Schedule.progress files _ limit)⟩
  results _ hs hf := (hs.results_eq ha hf).1
  memory _ hs hf := (hs.results_eq ha hf).2
  folded _ hs hf := (hs.matches_fold ha hf hv hk hr).1

/-- Whatever the schedule, a fold over literals concurs with taking up one of them after the other,
and so does the fold over templates that follows when no literal fails. -/
theorem every_schedule_concurs (ha : AnswersByPlace files r.options) (hv : VersionsMatch files)
    (limit : Nat) (ls : List LiteralImport) (ts : List TemplateImport) :
    Concurs files literals (·.specifier) false limit ls r r ∧
      ∀ s gs r₁, Reached files literals (·.specifier) false limit ls r s → s.Finished →
        fold files literals s = (.ok gs, r₁) → ∃ gs' r₁',
          outcome (inTurn files literals (·.specifier) false ls) r = (.ok gs', r₁') ∧
            Concurs files templates TemplateImport.leadingText true limit ts r₁ r₁' := by
  refine ⟨concurs ha hv takesExternal_literals _ _ _ _ (.refl files r),
    fun s gs r₁ hs hf hfold => ?_⟩
  obtain ⟨hmatches, hleft, hright⟩ :=
    hs.matches_fold ha hf hv takesExternal_literals (.refl files r)
  rw [hfold] at hmatches hleft
  generalize outcome (inTurn files literals (·.specifier) false ls) r = found at hmatches hright ⊢
  obtain ⟨result, r₁'⟩ := found
  cases hmatches with
  | @ok _ gs' _ =>
      exact ⟨gs', r₁', rfl, concurs (hleft.options ▸ ha) hv takesExternal_templates _ _ _ _
        (hleft.symm.trans hright)⟩

end

/-! ## Two tasks that search for the same -/

namespace TwoRoots

def installed : Memory := (Memory.empty ⟨"/"⟩).addFile ⟨"/app/node_modules/x/index.js"⟩ .empty

def site (root : Path) : ImportSite where
  file := "a.js"
  package := { name := "app", root }

/-- The roots of the packages are written in two ways. -/
def uses : List LiteralImport :=
  [⟨"x", false, site ⟨"/app"⟩⟩, ⟨"x", false, site ⟨"//app/."⟩⟩]

def patterns : List TemplateImport := [⟨["x/", ".js"], [none], site ⟨"/app"⟩⟩]

def fresh : Resolver := { options := {} }

/-- Both tasks miss the key, the second is the first to remember what it found, and is joined
first. -/
def order : List Nat := [0, 0, 1, 1, 1, 1, 0, 0, 1, 0]

def run? : Option (Schedule LiteralImport) :=
  order.foldlM (Schedule.next? installed (ask literals (·.specifier) false) 2)
    (Schedule.start uses fresh)

def last : Schedule LiteralImport := run?.getD (Schedule.start uses fresh)

/-- The entry file, as the task that was faster has written it. -/
def entry : Path := ⟨"//app/./node_modules/x/index.js"⟩

theorem joined_last : run?.isSome ∧ (∀ task ∈ last.tasks, task.2 = .joined) ∧
    last.results.map (·.target) = [.ok (.external entry), .ok (.external entry)] ∧
    (fold installed literals last).1 = .ok [⟨"x", entry, ⟨"x", false, site ⟨"/app"⟩⟩,
      [⟨"x", false, site ⟨"//app/."⟩⟩]⟩] := by
  decide +kernel

theorem reached_last : Reached installed literals (·.specifier) false 2 uses fresh last := by
  obtain ⟨s, hs⟩ := Option.isSome_iff_exists.mp joined_last.1
  rw [last, hs]
  exact Schedule.steps_of_order hs

theorem last_concurs :
    Resolver.AnswersByPlace installed fresh.options ∧ VersionsMatch installed ∧
    Reached installed literals (·.specifier) false 2 uses fresh last ∧ last.Finished ∧
    last.results.map (·.target) = [.ok (.external entry), .ok (.external entry)] ∧
    (fold installed literals last).1 = .ok [⟨"x", entry, ⟨"x", false, site ⟨"/app"⟩⟩,
      [⟨"x", false, site ⟨"//app/."⟩⟩]⟩] ∧
    Concurs installed literals (·.specifier) false 2 uses fresh fresh ∧
    ∃ gs r, outcome (inTurn installed literals (·.specifier) false uses) fresh = (.ok gs, r) ∧
      Concurs installed templates TemplateImport.leadingText true 2 patterns
        (fold installed literals last).2 r := by
  have ha := Resolver.answersByPlace installed fresh.options
  have hv := Resolver.versionsMatch installed
  obtain ⟨-, hfinished, htargets, hfold⟩ := joined_last
  have hgroups : fold installed literals last =
      (.ok [⟨"x", entry, ⟨"x", false, site ⟨"/app"⟩⟩, [⟨"x", false, site ⟨"//app/."⟩⟩]⟩],
        (fold installed literals last).2) := by
    rw [← hfold]
  obtain ⟨hconcurs, htemplates⟩ := every_schedule_concurs ha hv 2 uses patterns
  exact ⟨ha, hv, reached_last, hfinished, htargets, hfold, hconcurs,
    htemplates last _ _ reached_last hfinished hgroups⟩

end TwoRoots

end Split

end VendorBundle
